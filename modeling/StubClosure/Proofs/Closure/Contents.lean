import StubClosure.Proofs.Closure.Leak
import StubClosure.Proofs.Program.Nesting
import StubClosure.Proofs.Session.Faithful

/-!
# The contents of a stub

What a stub has to declare comes from two sides. Reading the bodies of the source types, and of the types nested in them, finds the members of its type that are mentioned there (`finds_stubContents`); and the overrides that calls were refined to are folded like any other reference (`finds_foldSeeds`).
-/

namespace StubClosure.Closure

variable {p : Program} {sources : List TypeId}

/-- A body of a type mentions the member. -/
def MentionedIn (p : Program) (scanned : TypeId) (s : Signature) : Prop :=
  ∃ b ∈ p.bodiesOf scanned, ∃ o ∈ Mention.ofBody p b, o.target = s

theorem exists_ofInstruction?_iff {index : Nat} {ins : Instruction} {s : Signature} :
    (∃ o, Mention.ofInstruction? p index ins = some o ∧ o.target = s) ↔ ∃ m, ins.member? = some m ∧
      (ins.isCall = true ∧ s = p.folded m ∨ ins.isFieldAccess = true ∧ s = m.toSignature) := by
  have hnot : ins.isFieldAccess = true → ¬ ins.isCall = true := by
    unfold Instruction.isFieldAccess Instruction.isCall
    cases ins.category <;> decide
  unfold Mention.ofInstruction?
  cases ins.member? with
  | none => simp
  | some m =>
    simp only [Option.bind_some, Option.some.injEq]
    split
    next hc =>
      have hf : ¬ ins.isFieldAccess = true := fun h => hnot h hc
      simp [hc, hf, eq_comm]
    next hc =>
      split
      next hf => simp [hc, hf, eq_comm]
      next hf => simp [hc, hf]

theorem mentionedIn_iff {scanned : TypeId} {s : Signature} : MentionedIn p scanned s ↔
    ∃ b ∈ p.bodiesOf scanned, ∃ ins ∈ b.instructions, ∃ m, ins.member? = some m ∧
      (ins.isCall = true ∧ s = p.folded m ∨ ins.isFieldAccess = true ∧ s = m.toSignature) := by
  unfold MentionedIn
  constructor
  · rintro ⟨b, hb, o, ho, rfl⟩
    obtain ⟨ins, hi, ho⟩ := Mention.mem_ofBody.1 ho
    exact ⟨b, hb, ins, List.mem_of_getElem? hi, exists_ofInstruction?_iff.1 ⟨o, ho, rfl⟩⟩
  · rintro ⟨b, hb, ins, hi, hm⟩
    obtain ⟨index, hi⟩ := List.mem_iff_getElem?.1 hi
    obtain ⟨o, ho, rfl⟩ := exists_ofInstruction?_iff.2 hm
    refine ⟨b, hb, o, Mention.mem_ofBody.2 ⟨ins, ?_, ?_⟩, rfl⟩
    · rwa [Mention.index_eq ho]
    · rwa [Mention.index_eq ho]

/-- The types that are scanned are the source types and those nested in them, as far as they have bodies. -/
theorem mentioned_iff (hp : p.Coherent) {s : Signature} :
    Mentioned p {t | t ∈ sources} s ↔ ∃ scanned ∈ scannedTypes p sources, MentionedIn p scanned s := by
  have hscanned : ∀ t, p.defines t = true → (t ∈ scannedTypes p sources ↔
      ∃ source ∈ sources, t = source ∨ t.isNestedIn source = true) := by
    intro t ht
    unfold scannedTypes
    rw [List.mem_flatMap]
    simp only [hp.mem_withNested_iff ht]
  constructor
  · rintro ⟨source, hs, t, ht, h⟩
    have hd : p.defines t = true := by
      obtain ⟨b, hb, -⟩ := h
      exact Program.defines_of_mem_bodiesOf hb
    exact ⟨t, (hscanned t hd).2 ⟨source, hs, ht⟩, mentionedIn_iff.2 h⟩
  · rintro ⟨t, ht, h⟩
    have hd : p.defines t = true := by
      obtain ⟨b, hb, -⟩ := h
      exact Program.defines_of_mem_bodiesOf hb
    obtain ⟨source, hs, ht⟩ := (hscanned t hd).1 ht
    exact ⟨source, hs, t, ht, mentionedIn_iff.1 h⟩

theorem finds_contentsFrom (hp : p.Coherent) (stub : TypeId) (scanned : List TypeId) {content : MemberSet}
    (hc : content.IsKeyed) : Scan.Finds p (contentsFrom p stub scanned content) fun found => found.IsKeyed ∧
      ∀ s, s ∈ found.keys ↔ s ∈ content.keys ∨ s.owner = stub ∧ ∃ t ∈ scanned, MentionedIn p t s := by
  induction scanned generalizing content with
  | nil => exact Scan.finds_pure ⟨hc, by simp⟩
  | cons t rest ih =>
    refine (Reference.finds_into hp stub t).bind ?_
    rintro found ⟨hk, hfound⟩
    refine (ih (MemberSet.isKeyed_addAll hc found.values)).mono ?_
    rintro last ⟨hk', hs⟩
    refine ⟨hk', fun s => ?_⟩
    have hstep : s ∈ found.keys ↔ s.owner = stub ∧ MentionedIn p t s := hfound s
    rw [hs, MemberSet.mem_keys_addAll, hk.map_values, hstep]
    simp only [List.mem_cons, exists_eq_or_imp]
    tauto

theorem finds_stubContents (hp : p.Coherent) (stub : TypeId) :
    Scan.Finds p (stubContents p stub sources) fun content => content.IsKeyed ∧
      ∀ s, s ∈ content.keys ↔ s.owner = stub ∧ Mentioned p {t | t ∈ sources} s := by
  refine (finds_contentsFrom hp stub (scannedTypes p sources) MemberSet.isKeyed_empty).mono ?_
  rintro content ⟨hk, hs⟩
  refine ⟨hk, fun s => ?_⟩
  rw [mentioned_iff hp]
  exact (hs s).trans (by simp)

theorem finds_foldSeeds (hp : p.Coherent) (members : List Member) :
    Scan.Finds p (foldSeeds p members) fun found => found.map (·.toSignature) = members.map p.folded := by
  induction members with
  | nil => exact Scan.finds_pure rfl
  | cons m rest ih =>
    refine (Reference.finds_normalize hp m none).bind fun target ht => ?_
    refine ih.bind fun others ho => Scan.finds_pure ?_
    rw [List.map_cons, List.map_cons, ht, ho]

end StubClosure.Closure
