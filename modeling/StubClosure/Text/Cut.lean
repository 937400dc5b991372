/-!
# Cutting text at a separator

`pieces` cuts at every occurrence of a separator, `cutLast?` at the last one only. Joining what was cut gives the text back.
-/

namespace StubClosure.Text

/-- The pieces of a text between the occurrences of a separator. There is always a first piece, possibly empty. -/
def pieces (separator : Char) : List Char → List Char × List (List Char)
  | [] => ([], [])
  | c :: rest =>
    let (first, others) := pieces separator rest
    if c = separator then ([], first :: others) else (c :: first, others)

/-- The text before and after the last occurrence of a separator. -/
def cutLast? (separator : Char) : List Char → Option (List Char × List Char)
  | [] => none
  | c :: rest =>
    match cutLast? separator rest with
    | some (before, after) => some (c :: before, after)
    | none => if c = separator then some ([], rest) else none

/-- The texts one after the other with a separator between neighbours. -/
def joinWith (separator : String) : List String → String
  | [] => ""
  | [text] => text
  | text :: others => text ++ separator ++ joinWith separator others

theorem eq_of_cutLast?_eq_some {separator : Char} {cs before after : List Char}
    (h : cutLast? separator cs = some (before, after)) : cs = before ++ separator :: after := by
  induction cs generalizing before with
  | nil => simp [cutLast?] at h
  | cons c rest ih =>
    rw [cutLast?] at h
    split at h
    · next found heq =>
      simp only [Option.some.injEq, Prod.mk.injEq] at h
      obtain ⟨rfl, rfl⟩ := h
      rw [ih heq, List.cons_append]
    · split at h
      · next hc =>
        simp only [Option.some.injEq, Prod.mk.injEq] at h
        obtain ⟨rfl, rfl⟩ := h
        rw [hc, List.nil_append]
      · simp at h

theorem cutLast?_eq_none_iff {separator : Char} {cs : List Char} :
    cutLast? separator cs = none ↔ separator ∉ cs := by
  induction cs with
  | nil => simp [cutLast?]
  | cons c rest ih =>
    rw [cutLast?]
    split
    · next before after heq =>
      have : separator ∈ rest := Decidable.byContradiction fun h => by simp [ih.2 h] at heq
      simp [this]
    · next heq =>
      have := ih.1 heq
      by_cases hc : c = separator <;> simp [hc, this, Ne.symm, eq_comm]

/-- There is one way only to cut at the last separator. -/
theorem cutLast?_append {separator : Char} {after : List Char} (h : separator ∉ after) (before : List Char) :
    cutLast? separator (before ++ separator :: after) = some (before, after) := by
  induction before with
  | nil =>
    rw [List.nil_append, cutLast?, cutLast?_eq_none_iff.2 h]
    exact if_pos rfl
  | cons c rest ih => rw [List.cons_append, cutLast?, ih]

theorem not_mem_of_cutLast?_eq_some {separator : Char} {cs before after : List Char}
    (h : cutLast? separator cs = some (before, after)) : separator ∉ after := by
  induction cs generalizing before with
  | nil => cases h
  | cons c rest ih =>
    rw [cutLast?] at h
    split at h
    next found heq =>
      obtain ⟨rfl, rfl⟩ := Prod.mk.inj (Option.some.inj h)
      exact ih heq
    next hnone =>
      split at h
      · obtain ⟨rfl, rfl⟩ := Prod.mk.inj (Option.some.inj h)
        exact cutLast?_eq_none_iff.1 hnone
      · cases h

theorem not_mem_pieces_fst (separator : Char) (cs : List Char) : separator ∉ (pieces separator cs).1 := by
  induction cs with
  | nil => exact List.not_mem_nil
  | cons c rest ih =>
    rw [pieces]
    dsimp only
    split
    · exact List.not_mem_nil
    next hc => exact List.not_mem_cons_of_ne_of_not_mem (Ne.symm hc) ih

theorem pieces_of_not_mem {separator : Char} {cs : List Char} (h : separator ∉ cs) : pieces separator cs = (cs, []) := by
  induction cs with
  | nil => rfl
  | cons c rest ih =>
    rw [List.mem_cons, not_or] at h
    rw [pieces, ih h.2]
    exact if_neg (Ne.symm h.1)

end StubClosure.Text
