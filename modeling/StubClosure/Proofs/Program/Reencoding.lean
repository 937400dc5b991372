import Mathlib.Data.List.Forall2
import StubClosure.Proofs.Receiver
import StubClosure.Proofs.Program.Coherent

/-!
# Re-encoded bodies

One method can be compiled in several ways that differ in what nobody looks at here. Instructions that push nothing and refer to no member may stand anywhere (`IsIdle`); offsets may be any; and a slot may be named by a long or by a short mnemonic (`NamesSlot`). Bodies that differ in these alone are encodings of one another (`Reencoded`).

What counts of a body is the sequence of the other instructions. Two places correspond if the instruction at the one is that at the other, re-encoded, and what comes before is as well (`Corresponds`); each place has at most one that corresponds to it. At corresponding places the walk back from a call comes to the same instruction, re-encoded, so the call comes to the same (`resolveHere_reencoded`).
-/

namespace StubClosure

/-! ## Instructions -/

theorem OpCategory.exists_number_of_accepts {c : OpCategory} {operand : Option Operand} (hs : c.isSlot = true)
    (h : c.accepts operand = true) : ∃ n, operand = some (.number n) := by
  have hnot : (c.isCall || c.isFieldAccess) = false := by
    cases c <;> first | rfl | cases hs
  unfold accepts at h
  rw [hnot, if_neg Bool.false_ne_true, if_pos hs] at h
  split at h
  next n => exact ⟨n, rfl⟩
  · cases h

namespace Instruction

/-- The instruction neither leaves a value on the stack nor refers to a member. -/
def IsIdle (ins : Instruction) : Prop := ins.pushes = false ∧ ins.isCall = false ∧ ins.isFieldAccess = false

instance (ins : Instruction) : Decidable ins.IsIdle := inferInstanceAs (Decidable (_ ∧ _ ∧ _))

/-- The mnemonic is one for the category of the instruction, and if it implies a slot, that is the operand. -/
def NamesSlot (ins : Instruction) : Prop :=
  ins.category.isSlot = true ∧ ∃ slot implied, ins.operand = some (.number slot) ∧
    Mnemonic.table.lookup ins.mnemonic = some (ins.category, implied) ∧ ∀ k ∈ implied, k = slot

/-- The instruction at another offset or, if it names a slot, by another mnemonic for it. -/
structure Recoded (ins ins' : Instruction) : Prop where
  category : ins'.category = ins.category
  operand : ins'.operand = ins.operand
  pushes : ins'.pushes = ins.pushes
  mnemonic : ins'.mnemonic = ins.mnemonic ∨ ins.NamesSlot ∧ ins'.NamesSlot

variable {ins ins' : Instruction}

theorem recoded_refl (ins : Instruction) : Recoded ins ins := ⟨rfl, rfl, rfl, .inl rfl⟩

theorem Recoded.symm (h : Recoded ins ins') : Recoded ins' ins :=
  ⟨h.category.symm, h.operand.symm, h.pushes.symm, h.mnemonic.imp Eq.symm And.symm⟩

theorem Recoded.isIdle_iff (h : Recoded ins ins') : ins'.IsIdle ↔ ins.IsIdle := by
  simp only [IsIdle, isCall, isFieldAccess, h.category, h.pushes]

theorem Recoded.member?_eq (h : Recoded ins ins') : ins'.member? = ins.member? := by
  rw [member?, member?, h.operand]

/-! ### Short and long forms -/

theorem eq_of_make {offset : Int} {mnemonic : String} {operand : Option Operand}
    (h : make offset mnemonic operand = .ok ins) :
    ins.mnemonic = Mnemonic.lower mnemonic ∧ ins.category = (Mnemonic.classify ins.mnemonic).1 ∧
      ins.operand = ((Mnemonic.classify ins.mnemonic).2.map Operand.number).or operand ∧
      ins.pushes = ins.category.pushes ins.mnemonic ins.operand ∧ ins.category.accepts ins.operand = true := by
  unfold make at h
  dsimp only at h
  split at h
  next haccepts =>
    obtain rfl := Except.ok.inj h
    exact ⟨rfl, rfl, rfl, rfl, haccepts⟩
  · split at h <;> cases h

theorem namesSlot_of_make {offset : Int} {mnemonic : String} {operand : Option Operand}
    (h : make offset mnemonic operand = .ok ins) (hs : ins.category.isSlot = true) : ins.NamesSlot := by
  obtain ⟨-, hcategory, hoperand, -, haccepts⟩ := eq_of_make h
  cases hlookup : Mnemonic.table.lookup ins.mnemonic with
  | none =>
    rw [hcategory, Mnemonic.classify, hlookup] at hs
    cases hs
  | some entry =>
    have hentry : Mnemonic.classify ins.mnemonic = entry := by rw [Mnemonic.classify, hlookup, Option.getD_some]
    rw [hentry] at hcategory hoperand
    obtain ⟨slot, hslot⟩ := OpCategory.exists_number_of_accepts hs haccepts
    refine ⟨hs, slot, entry.2, hslot, by rw [hlookup, hcategory], fun k hk => ?_⟩
    rw [hoperand, show entry.2 = some k from hk] at hslot
    simpa using hslot

theorem recoded_of_make {offset offset' : Int} {mnemonic mnemonic' : String} {operand operand' : Option Operand}
    (h : make offset mnemonic operand = .ok ins) (h' : make offset' mnemonic' operand' = .ok ins')
    (hs : ins.category.isSlot = true) (hc : ins'.category = ins.category) (ho : ins'.operand = ins.operand) :
    Recoded ins ins' := by
  refine ⟨hc, ho, ?_, .inr ⟨namesSlot_of_make h hs, namesSlot_of_make h' (hc ▸ hs)⟩⟩
  rw [(eq_of_make h).2.2.2.1, (eq_of_make h').2.2.2.1, hc, ho]
  cases hcat : ins.category <;> rw [hcat] at hs <;> first | rfl | cases hs

/-! ### What can be written -/

theorem four_le_unwritableFrom : 4 ≤ Text.unwritableFrom := by
  have hdigits : Text.maxDigits ≠ 0 := by decide
  unfold Text.unwritableFrom
  generalize Text.maxDigits = digits at hdigits ⊢
  exact Nat.le_trans (by decide) (Nat.le_self_pow hdigits 10)

theorem implied_of_digit : ∀ entry ∈ Mnemonic.table, entry.2.1.isSlot = true →
    entry.1.toList.getLast?.any Text.isDigit = true → entry.2.2.any (fun k => decide (k.natAbs < 4)) = true := by
  decide +kernel

theorem NamesSlot.exists_implied (h : ins.NamesSlot) (himplies : ins.impliesSlot = true) :
    ∃ k : Int, (Mnemonic.classify ins.mnemonic).2 = some k ∧ ins.operand = some (.number k) ∧ k.natAbs < 4 := by
  obtain ⟨hs, slot, implied, hslot, hlookup, himplied⟩ := h
  have hentry : (ins.mnemonic, ins.category, implied) ∈ Mnemonic.table := by
    obtain ⟨before, after, htable, -⟩ := List.lookup_eq_some_iff.1 hlookup
    rw [htable]
    exact List.mem_append_right before List.mem_cons_self
  have hlast : ins.mnemonic.toList.getLast?.any Text.isDigit = true := by
    simpa [impliesSlot, hs] using himplies
  obtain ⟨k, hk, hsmall⟩ := (Option.any_eq_true _ _).1 (implied_of_digit _ hentry hs hlast)
  obtain rfl := himplied k hk
  exact ⟨k, by rw [Mnemonic.classify, hlookup, Option.getD_some]; exact hk, hslot, of_decide_eq_true hsmall⟩

theorem NamesSlot.impliesSlot_eq_false (h : ins.NamesSlot) {n : Int} (ho : ins.operand = some (.number n))
    (hn : Text.unwritableFrom ≤ n.natAbs) : ins.impliesSlot = false := by
  refine Bool.eq_false_iff.2 fun himplies => ?_
  obtain ⟨k, -, hk, hsmall⟩ := h.exists_implied himplies
  obtain rfl : n = k := by simpa [hk] using ho.symm
  have hlong := four_le_unwritableFrom
  omega

theorem Recoded.render_eq_error (h : Recoded ins ins') {e : Text.NumeralError} (hr : ins.render = .error e) :
    ins'.render = .error e := by
  obtain ⟨himplies, n, ho, hn⟩ := exists_render_eq_error_iff.1 ⟨e, hr⟩
  have ho' : ins'.operand = some (.number n) := h.operand.trans ho
  have himplies' : ins'.impliesSlot = false := by
    rcases h.mnemonic with hm | ⟨-, hnames⟩
    · unfold impliesSlot at himplies ⊢
      rwa [h.category, hm]
    · exact hnames.impliesSlot_eq_false ho' hn
  obtain ⟨e', hr'⟩ := exists_render_eq_error_iff.2 ⟨himplies', n, ho', hn⟩
  rw [hr', eq_unwritable_of_render hr, eq_unwritable_of_render hr']

theorem Recoded.render (h : Recoded ins ins') :
    (∃ text text', ins.render = .ok text ∧ ins'.render = .ok text') ∨
      ∃ e, ins.render = .error e ∧ ins'.render = .error e := by
  cases hr : ins.render with
  | error e => exact .inr ⟨e, rfl, h.render_eq_error hr⟩
  | ok text =>
    cases hr' : ins'.render with
    | error e =>
      have hback := h.symm.render_eq_error hr'
      rw [hr] at hback
      cases hback
    | ok text' => exact .inl ⟨text, text', rfl, rfl⟩

end Instruction

open Instruction

/-! ## Bodies -/

/-- The same instructions in the same order, each re-encoded, with others inserted or removed that are idle. -/
inductive Reencoded : List Instruction → List Instruction → Prop where
  | nil : Reencoded [] []
  | keep {ins ins' : Instruction} {rest rest' : List Instruction} (h : Recoded ins ins') (hrest : Reencoded rest rest') :
    Reencoded (ins :: rest) (ins' :: rest')
  | remove {ins : Instruction} {rest rest' : List Instruction} (h : ins.IsIdle) (hrest : Reencoded rest rest') :
    Reencoded (ins :: rest) rest'
  | insert {ins' : Instruction} {rest rest' : List Instruction} (h : ins'.IsIdle) (hrest : Reencoded rest rest') :
    Reencoded rest (ins' :: rest')

section
variable {l l' : List Instruction} {ins ins' : Instruction} {i j i' j' : Nat}

theorem reencoded_refl (l : List Instruction) : Reencoded l l := by
  induction l with
  | nil => exact .nil
  | cons ins rest ih => exact .keep (recoded_refl ins) ih

theorem Reencoded.symm (h : Reencoded l l') : Reencoded l' l := by
  induction h with
  | nil => exact .nil
  | keep h _ ih => exact .keep h.symm ih
  | remove h _ ih => exact .insert h ih
  | insert h _ ih => exact .remove h ih

theorem Reencoded.append {more more' : List Instruction} (h : Reencoded l l') (hmore : Reencoded more more') :
    Reencoded (l ++ more) (l' ++ more') := by
  induction h with
  | nil => exact hmore
  | keep h _ ih => exact .keep h ih
  | remove h _ ih => exact .remove h ih
  | insert h _ ih => exact .insert h ih

theorem Reencoded.filter_pushes (h : Reencoded l l') :
    List.Forall₂ Recoded (l.filter (·.pushes)) (l'.filter (·.pushes)) := by
  induction h with
  | nil => exact .nil
  | keep h _ ih =>
    rw [List.filter_cons, List.filter_cons, h.pushes]
    split
    · exact .cons h ih
    · exact ih
  | remove h _ ih => rwa [List.filter_cons_of_neg (by simp [h.1])]
  | insert h _ ih => rwa [List.filter_cons_of_neg (by simp [h.1])]

/-- So many instructions that are not idle. -/
def countBusy (l : List Instruction) : Nat := l.countP fun ins => !decide ins.IsIdle

theorem Reencoded.countBusy_eq (h : Reencoded l l') : countBusy l = countBusy l' := by
  unfold countBusy
  induction h with
  | nil => rfl
  | keep h _ ih => simp only [List.countP_cons, ih, h.isIdle_iff]
  | remove h _ ih => simp [ih, h]
  | insert h _ ih => simp [ih, h]

/-- At the one place stands the instruction of the other, re-encoded, and before it what comes before that. It is not idle. -/
structure Corresponds (l l' : List Instruction) (i j : Nat) : Prop where
  before : Reencoded (l.take i) (l'.take j)
  here : ∃ ins ins', l[i]? = some ins ∧ l'[j]? = some ins' ∧ Recoded ins ins' ∧ ¬ ins.IsIdle

theorem countBusy_take_le (l : List Instruction) (h : i ≤ j) : countBusy (l.take i) ≤ countBusy (l.take j) :=
  (List.take_prefix_take_left h).sublist.countP_le

theorem countBusy_take_lt (hi : l[i]? = some ins) (hbusy : ¬ ins.IsIdle) (h : i < j) :
    countBusy (l.take i) < countBusy (l.take j) := by
  have hnext : countBusy (l.take (i + 1)) = countBusy (l.take i) + 1 := by
    unfold countBusy
    rw [List.take_add_one, hi, Option.toList_some, List.countP_append, List.countP_singleton]
    simp [hbusy]
  have hle := countBusy_take_le l (show i + 1 ≤ j from h)
  omega

theorem Corresponds.symm (h : Corresponds l l' i j) : Corresponds l' l j i := by
  obtain ⟨hbefore, ins, ins', hi, hj, hrecoded, hbusy⟩ := h
  exact ⟨hbefore.symm, ins', ins, hj, hi, hrecoded.symm, fun hidle => hbusy (hrecoded.isIdle_iff.1 hidle)⟩

theorem Corresponds.lt_of_lt (h : Corresponds l l' i j) (h' : Corresponds l l' i' j') (hlt : i < i') : j < j' := by
  obtain ⟨ins, ins', hi, -, -, hbusy⟩ := h.here
  have hcount := countBusy_take_lt hi hbusy hlt
  rw [h.before.countBusy_eq, h'.before.countBusy_eq] at hcount
  by_contra hle
  have hback := countBusy_take_le l' (show j' ≤ j by omega)
  omega

/-- A place corresponds to one place only, both ways. -/
theorem Corresponds.eq_iff (h : Corresponds l l' i j) (h' : Corresponds l l' i' j') : i = i' ↔ j = j' := by
  have hlt := h.lt_of_lt h'
  have hgt := h'.lt_of_lt h
  have hlt' := h.symm.lt_of_lt h'.symm
  have hgt' := h'.symm.lt_of_lt h.symm
  omega

end

/-! ## Programs -/

/-- The body of the same method with the same locals, re-encoded. -/
structure Body.Reencodes (b b' : Body) : Prop where
  method : b'.method = b.method
  locals : b'.locals = b.locals
  instructions : Reencoded b.instructions b'.instructions

namespace Program

/-- The programs are the same but for the encoding of bodies. -/
structure Reencodes (p q : Program) : Prop where
  name : q.name = p.name
  types : q.types = p.types
  names : q.names = p.names
  members : q.members = p.members
  bodies : ∀ key, Option.Rel Body.Reencodes (p.bodies.find? key) (q.bodies.find? key)

variable {p q : Program}

theorem Reencodes.findType?_eq (h : p.Reencodes q) : q.findType? = p.findType? := by
  unfold findType? type?
  rw [h.names, h.types]

theorem Reencodes.bodiesOf (h : p.Reencodes q) (t : TypeId) :
    List.Forall₂ Body.Reencodes (p.bodiesOf t) (q.bodiesOf t) := by
  unfold Program.bodiesOf type?
  rw [h.types]
  generalize ((p.types.find? t).map TypeDef.methods).getD [] = methods
  induction methods with
  | nil => exact .nil
  | cons m rest ih =>
    have hbody : Option.Rel Body.Reencodes (p.body? m) (q.body? m) := h.bodies m.toSignature
    rw [List.filterMap_cons, List.filterMap_cons]
    cases hb : p.body? m <;> cases hb' : q.body? m <;> rw [hb, hb'] at hbody
    · exact ih
    · cases hbody
    · cases hbody
    · cases hbody with
      | some hbody => exact .cons hbody ih

theorem Coherent.reencodes (hp : p.Coherent) (h : p.Reencodes q) : q.Coherent where
  type := by
    intro t d hd
    unfold type? at hd
    rw [h.types] at hd
    exact hp.type t d hd
  nested := by
    intro t outer hd ho
    unfold defines nestedOf type? at *
    rw [h.types] at *
    exact hp.nested t outer hd ho
  body := by
    intro key b' hb'
    have hbody := h.bodies key
    rw [hb'] at hbody
    cases hb : p.bodies.find? key with
    | none =>
      rw [hb] at hbody
      cases hbody
    | some b =>
      rw [hb] at hbody
      cases hbody with
      | some hbody => rw [hbody.method, hp.body key b hb]

end Program

end StubClosure
