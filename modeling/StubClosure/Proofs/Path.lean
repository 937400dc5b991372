import StubClosure.Path

/-!
# Names in paths

A path is cut at its slashes, so no name in it has one, and neither has a stem. What is put behind a stem to make the name of a file is therefore the last name of the path of that file: files that are named by different stems are different.
-/

namespace StubClosure

namespace Text

theorem not_mem_of_mem_pieces {separator : Char} {cs piece : List Char}
    (h : piece ∈ (pieces separator cs).1 :: (pieces separator cs).2) : separator ∉ piece := by
  induction cs generalizing piece with
  | nil =>
    obtain rfl : piece = [] := List.mem_singleton.1 h
    exact List.not_mem_nil
  | cons c rest ih =>
    rw [pieces] at h
    dsimp only at h
    split at h
    · rcases List.mem_cons.1 h with rfl | h
      · exact List.not_mem_nil
      · exact ih h
    next hc =>
      rcases List.mem_cons.1 h with rfl | h
      · exact List.not_mem_cons_of_ne_of_not_mem (Ne.symm hc) (ih List.mem_cons_self)
      · exact ih (List.mem_cons_of_mem _ h)

end Text

namespace Path

theorem not_mem_of_mem_names {text name : String} (h : name ∈ (ofString text).names) : '/' ∉ name.toList := by
  obtain ⟨hpiece, -⟩ := List.mem_filter.1 h
  obtain ⟨piece, hmem, rfl⟩ := List.mem_map.1 hpiece
  rw [String.toList_ofList]
  exact Text.not_mem_of_mem_pieces hmem

theorem not_mem_name (text : String) : '/' ∉ (ofString text).name.toList := by
  unfold name
  cases hlast : (ofString text).names.getLast? with
  | none => exact List.not_mem_nil
  | some last => exact not_mem_of_mem_names (List.mem_of_getLast? hlast)

theorem not_mem_stem (text : String) : '/' ∉ (ofString text).stem.toList := by
  have hname := not_mem_name text
  unfold stem
  split
  next before after hcut =>
    split
    · rw [String.toList_ofList]
      rw [Text.eq_of_cutLast?_eq_some hcut] at hname
      exact fun h => hname (List.mem_append_left _ h)
    · exact hname
  · exact hname

theorem rootOf_of_not_mem {cs : List Char} (h : '/' ∉ cs) : rootOf cs = "" := by
  unfold rootOf
  split
  · exact absurd List.mem_cons_self h
  · exact absurd List.mem_cons_self h
  · exact absurd List.mem_cons_self h
  · rfl

theorem child_of_name (p : Path) {name : String} (hslash : '/' ∉ name.toList) (hstep : isStep name = true) :
    p.child name = { p with names := p.names ++ [name] } := by
  have hof : ofString name = { root := "", names := [name] } := by
    unfold ofString
    rw [Text.pieces_of_not_mem hslash, rootOf_of_not_mem hslash]
    simp [hstep]
  unfold child join
  rw [hof, if_pos rfl]

theorem isStep_of_length {name : String} (h : 2 ≤ name.length) : isStep name = true := by
  have hne : name ≠ "" := fun he => by rw [he] at h; exact absurd h (by decide)
  have hdot : name ≠ "." := fun he => by rw [he] at h; exact absurd h (by decide)
  unfold isStep
  rw [decide_eq_true hne, decide_eq_true hdot, Bool.and_self]

theorem child_stem_inj (p : Path) {text other suffix : String} (hslash : '/' ∉ suffix.toList) (hlong : 2 ≤ suffix.length)
    (h : p.child ((ofString text).stem ++ suffix) = p.child ((ofString other).stem ++ suffix)) :
    (ofString text).stem = (ofString other).stem := by
  have hchild : ∀ text, p.child ((ofString text).stem ++ suffix) =
      { p with names := p.names ++ [(ofString text).stem ++ suffix] } := by
    intro text
    refine p.child_of_name ?_ (isStep_of_length ?_)
    · rw [String.toList_append, List.mem_append, not_or]
      exact ⟨not_mem_stem text, hslash⟩
    · rw [String.length_append]
      omega
  rw [hchild, hchild] at h
  have hlast : (ofString text).stem ++ suffix = (ofString other).stem ++ suffix := by
    simpa using congrArg Path.names h
  have hlist := congrArg String.toList hlast
  rw [String.toList_append, String.toList_append] at hlist
  exact String.toList_inj.1 (List.append_cancel_right hlist)

end Path

end StubClosure
