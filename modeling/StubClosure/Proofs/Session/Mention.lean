import StubClosure.Reference
import StubClosure.Proofs.Program.Coherent

/-!
# Mentions

What a body refers to, without a session: the same references, read off the instructions directly. A session may hand out the target of a reference with the role and flag of an equal member that was folded before, so a `Mention` keeps of its target the identity alone. In a coherent program that identity is a matter of the member's own identity (`Coherent.folded_congr`), and folding stays within the declaring type (`Coherent.owner_folded`).
-/

namespace StubClosure

namespace Program

variable {p : Program}

/-- The identity of what a reference to a member stands for: the property, if the member is an accessor of one. -/
def folded (p : Program) (m : Member) : Signature := (Reference.foldAccessor p m none).1.toSignature

theorem foldAccessor_fst (p : Program) (m : Member) (site : Option Signature) :
    (Reference.foldAccessor p m site).1.toSignature = p.folded m := by
  unfold folded Reference.foldAccessor
  split
  · split <;> rfl
  · rfl

/-- The definition that a reference to a member finds, if there is one. -/
def declaration? (p : Program) (m : Member) : Option Member := (p.type? m.owner).bind (·.definition? m)

theorem declaration?_congr {m m' : Member} (h : m.toSignature = m'.toSignature) :
    p.declaration? m = p.declaration? m' := by
  unfold declaration? TypeDef.definition?
  rw [show m.owner = m'.owner from congrArg Signature.owner h]
  congr 1
  funext d
  congr 1
  funext other
  simp [Member.same, h]

theorem definition_eq (m : Member) : p.definition m = (p.declaration? m).getD m := rfl

theorem toSignature_definition (m : Member) : (p.definition m).toSignature = m.toSignature := by
  rw [definition_eq]
  cases h : p.declaration? m with
  | none => rfl
  | some found =>
    obtain ⟨d, -, hf⟩ := Option.bind_eq_some_iff.1 h
    simpa [Member.same] using List.find?_some hf

theorem exists_type?_of_mem_propertiesOf {t : TypeId} {row : Property} (h : row ∈ p.propertiesOf t) :
    ∃ d, p.type? t = some d ∧ row ∈ d.properties := by
  unfold propertiesOf at h
  cases hd : p.type? t with
  | none => simp [hd] at h
  | some d => exact ⟨d, rfl, by simpa [hd] using h⟩

theorem Coherent.declares_slot (hp : p.Coherent) {t : TypeId} {d : TypeDef} (hd : p.type? t = some d)
    {row : Property} (hrow : row ∈ d.properties) {role : Role} {m : Member} (hm : row.slot? role = some m) :
    d.Declares m.toSignature := by
  cases role with
  | getter => exact (hp.type t d hd).getter_declared row hrow m hm
  | setter => exact (hp.type t d hd).setter_declared row hrow m hm
  | ordinary | constructor | special => cases hm

/-- A method that its type does not declare is in no slot, so it stands for itself. -/
theorem Coherent.folded_of_undeclared (hp : p.Coherent) {m : Member} (h : p.declaration? m = none) :
    p.folded m = m.toSignature := by
  unfold folded Reference.foldAccessor
  split
  · have hdef : p.definition m = m := by rw [definition_eq, h]; rfl
    rw [hdef]
    split
    next row hrow =>
      obtain ⟨d, hd, hmem⟩ := exists_type?_of_mem_propertiesOf (List.mem_of_find?_eq_some hrow)
      obtain ⟨slot, hslot, hsame⟩ : ∃ slot, row.slot? m.role = some slot ∧ slot.toSignature = m.toSignature := by
        have := List.find?_some hrow
        simpa [Option.any_eq_true, Member.same] using this
      obtain ⟨other, hother, hsig⟩ := hp.declares_slot hd hmem hslot
      have hnone : d.definition? m = none := by simpa [declaration?, hd] using h
      have := List.find?_eq_none.1 hnone other hother
      simp [Member.same, hsig, hsame] at this
    · rfl
  · rfl

theorem Coherent.folded_congr (hp : p.Coherent) {m m' : Member} (h : m.toSignature = m'.toSignature) :
    p.folded m = p.folded m' := by
  have hc := declaration?_congr (p := p) h
  cases hd : p.declaration? m with
  | none => rw [hp.folded_of_undeclared hd, hp.folded_of_undeclared (hc ▸ hd), h]
  | some found =>
    have hdef : p.definition m = found := by rw [definition_eq, hd]; rfl
    have hdef' : p.definition m' = found := by rw [definition_eq, ← hc, hd]; rfl
    have hfoldable : p.isFoldable m = p.isFoldable m' := by
      unfold isFoldable
      rw [hdef, hdef', show m.kind = m'.kind from congrArg Signature.kind h,
        show m.owner = m'.owner from congrArg Signature.owner h]
    unfold folded Reference.foldAccessor
    rw [hdef, hdef', hfoldable]
    split
    · split
      · rfl
      · exact h
    · exact h

theorem Coherent.owner_folded (hp : p.Coherent) (m : Member) : (p.folded m).owner = m.owner := by
  have ho : (p.definition m).owner = m.owner := congrArg Signature.owner (toSignature_definition m)
  unfold folded Reference.foldAccessor
  split
  · split
    next row hrow =>
      obtain ⟨d, hd, hmem⟩ := exists_type?_of_mem_propertiesOf (List.mem_of_find?_eq_some hrow)
      exact ((hp.type _ d hd).owner_property row hmem).trans ho
    · rfl
  · rfl

/-! ## The bodies of a program -/

/-- The program has the body, under its own method. -/
def Has (p : Program) (b : Body) : Prop := p.body? b.method = some b

/-- Every body is found under its own method. -/
def OwnsBodies (p : Program) : Prop := ∀ key b, p.bodies.find? key = some b → b.method.toSignature = key

theorem Coherent.ownsBodies (hp : p.Coherent) : p.OwnsBodies := hp.body

theorem OwnsBodies.has (hp : p.OwnsBodies) {key : Signature} {b : Body} (h : p.bodies.find? key = some b) : p.Has b := by
  unfold Has body?
  rwa [hp key b h]

theorem OwnsBodies.has_of_mem_bodiesOf (hp : p.OwnsBodies) {t : TypeId} {b : Body} (h : b ∈ p.bodiesOf t) : p.Has b := by
  obtain ⟨m, -, hb⟩ := List.mem_filterMap.1 h
  exact hp.has hb

theorem Coherent.has_of_mem_bodiesOf (hp : p.Coherent) {t : TypeId} {b : Body} (h : b ∈ p.bodiesOf t) : p.Has b :=
  hp.ownsBodies.has_of_mem_bodiesOf h

theorem Has.eq {b b' : Body} (h : p.Has b) (h' : p.Has b') (he : b.method.toSignature = b'.method.toSignature) :
    b = b' := by
  unfold Has body? at h h'
  rw [he] at h
  exact Option.some.inj (h.symm.trans h')

theorem defines_of_mem_bodiesOf {t : TypeId} {b : Body} (h : b ∈ p.bodiesOf t) : p.defines t = true := by
  unfold bodiesOf at h
  cases hd : p.type? t with
  | none => simp [hd] at h
  | some d => exact defines_of_type? hd

end Program

/-- A reference as its body has it: what the instruction is, the identity of what it refers to, and the member that it names. -/
structure Mention where
  category : OpCategory
  target : Signature
  declared : Member
  index : Nat
  deriving DecidableEq, Repr

def Reference.mention (r : Reference) : Mention where
  category := r.category
  target := r.target.toSignature
  declared := r.declared
  index := r.index

namespace Mention

/-- What an instruction mentions. -/
def ofInstruction? (p : Program) (index : Nat) (ins : Instruction) : Option Mention :=
  ins.member?.bind fun m =>
    if ins.isCall then some { category := ins.category, target := p.folded m, declared := m, index }
    else if ins.isFieldAccess then some { category := ins.category, target := m.toSignature, declared := m, index }
    else none

/-- What instructions mention that begin at an index. -/
def ofInstructions (p : Program) : Nat → List Instruction → List Mention
  | _, [] => []
  | index, ins :: rest => (ofInstruction? p index ins).toList ++ ofInstructions p (index + 1) rest

/-- What a body mentions, in the order of its instructions. -/
def ofBody (p : Program) (b : Body) : List Mention := ofInstructions p 0 b.instructions

theorem index_eq {p : Program} {index : Nat} {ins : Instruction} {o : Mention} (h : ofInstruction? p index ins = some o) :
    o.index = index := by
  obtain ⟨m, -, h⟩ := Option.bind_eq_some_iff.1 h
  split at h
  · cases h; rfl
  · split at h
    · cases h; rfl
    · cases h

theorem of_ofInstruction? {p : Program} {index : Nat} {ins : Instruction} {o : Mention}
    (h : ofInstruction? p index ins = some o) : o.category = ins.category ∧ ins.member? = some o.declared := by
  obtain ⟨m, hm, h⟩ := Option.bind_eq_some_iff.1 h
  split at h
  · cases h; exact ⟨rfl, hm⟩
  · split at h
    · cases h; exact ⟨rfl, hm⟩
    · cases h

theorem ofInstruction?_of_isCall {p : Program} {index : Nat} {ins : Instruction} {m : Member}
    (hc : ins.isCall = true) (hm : ins.member? = some m) : ofInstruction? p index ins =
      some { category := ins.category, target := p.folded m, declared := m, index } := by
  rw [ofInstruction?, hm, Option.bind_some, if_pos hc]

theorem mem_ofInstructions {p : Program} {start : Nat} {instructions : List Instruction} {o : Mention} :
    o ∈ ofInstructions p start instructions ↔
      ∃ place ins, instructions[place]? = some ins ∧ ofInstruction? p (start + place) ins = some o := by
  induction instructions generalizing start with
  | nil => simp [ofInstructions]
  | cons first rest ih =>
    rw [ofInstructions, List.mem_append, ih, Option.mem_toList]
    constructor
    · rintro (h | ⟨place, ins, hi, h⟩)
      · exact ⟨0, first, rfl, h⟩
      · exact ⟨place + 1, ins, hi, by rwa [show start + (place + 1) = start + 1 + place by omega]⟩
    · rintro ⟨place, ins, hi, h⟩
      cases place with
      | zero =>
        obtain rfl : first = ins := Option.some.inj hi
        exact .inl h
      | succ place => exact .inr ⟨place, ins, hi, by rwa [show start + 1 + place = start + (place + 1) by omega]⟩

theorem mem_ofBody {p : Program} {b : Body} {o : Mention} :
    o ∈ ofBody p b ↔ ∃ ins, b.instructions[o.index]? = some ins ∧ ofInstruction? p o.index ins = some o := by
  unfold ofBody
  rw [mem_ofInstructions]
  constructor
  · rintro ⟨place, ins, hi, h⟩
    rw [Nat.zero_add] at h
    obtain rfl := index_eq h
    exact ⟨ins, hi, h⟩
  · rintro ⟨ins, hi, h⟩
    exact ⟨o.index, ins, hi, by rwa [Nat.zero_add]⟩

end Mention

end StubClosure
