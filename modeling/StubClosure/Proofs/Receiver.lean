import StubClosure.Receiver

/-!
# Refining one call

The walk back from a virtual call comes to the instruction that pushed the receiver, or to none. What it comes to decides on the refinement (`refine_pushedBelow`): a local of known type refines the call to that type, `this` leaves it alone, and anything else is reported. A load of a local that names no slot cannot be looked up, and an instruction that holds too long a number cannot be quoted in a report; then there is an error and no refinement (`Fails`).
-/

namespace StubClosure

/-- The first method of a type with the name and return type of another. -/
def Program.override? (p : Program) (t : TypeId) (m : Member) : Option Member :=
  (p.type? t).bind (·.findMethod? m.name m.valueType)

/-! ## What can be written -/

namespace Instruction

/-- Only a number can be too long to be written, and only where the mnemonic does not name it. -/
theorem exists_render_eq_error_iff {ins : Instruction} :
    (∃ e, ins.render = .error e) ↔
      ins.impliesSlot = false ∧ ∃ n, ins.operand = some (.number n) ∧ Text.unwritableFrom ≤ n.natAbs := by
  unfold render
  constructor
  · rintro ⟨e, h⟩
    cases ho : ins.operand with
    | none =>
      rw [ho] at h
      cases h
    | some operand =>
      rw [ho] at h
      dsimp only at h
      split at h
      · cases h
      next hslot =>
        refine ⟨Bool.eq_false_iff.2 hslot, ?_⟩
        cases operand with
        | number n =>
          refine ⟨n, rfl, Nat.le_of_not_lt fun hn => ?_⟩
          rw [Operand.render, Text.writeDecimal_of_lt hn] at h
          cases h
        | member | type | text => cases h
  · rintro ⟨hslot, n, ho, hn⟩
    refine ⟨.unwritable, ?_⟩
    rw [ho]
    dsimp only
    rw [hslot, if_neg Bool.false_ne_true, Operand.render, Text.writeDecimal_of_le hn]
    rfl

theorem eq_unwritable_of_render {ins : Instruction} {e : Text.NumeralError} (h : ins.render = .error e) :
    e = .unwritable := by
  obtain ⟨hslot, n, ho, hn⟩ := exists_render_eq_error_iff.1 ⟨e, h⟩
  unfold render at h
  rw [ho] at h
  dsimp only at h
  rw [hslot, if_neg Bool.false_ne_true, Operand.render, Text.writeDecimal_of_le hn] at h
  exact (Except.error.inj h).symm

theorem exists_render {call : Instruction} {m : Member} (h : call.member? = some m) :
    ∃ text, call.render = .ok text := by
  cases hr : call.render with
  | ok text => exact ⟨text, rfl⟩
  | error e =>
    obtain ⟨-, n, ho, -⟩ := exists_render_eq_error_iff.1 ⟨e, hr⟩
    rw [member?, ho] at h
    cases h

end Instruction

/-! ## What the walk back comes to -/

namespace Receiver

/-- The type of the local that the receiver of a call was loaded from, if it was. -/
def localType? (b : Body) (index : Nat) (m : Member) : Option TypeId :=
  (pushedBelow b index m.params.length).bind fun ins =>
    if ins.category = .loadLocal then (loadedType? b ins).toOption.join else none

/-- The receiver of a call is not to be found: it was not pushed, or by something else than a load of `this` or of a local of known type. -/
def Unlocated (b : Body) (index : Nat) (m : Member) : Prop :=
  localType? b index m = none ∧ ∀ ins, pushedBelow b index m.params.length = some ins → shape (some ins) ≠ .self

/-- What is reported on a call: once that it is refined, or once that its receiver is not to be found, or nothing. -/
def Reported (b : Body) (index : Nat) (call : Instruction) (m : Member) (reports : List Diagnostic) : Prop :=
  (∃ receiver, (localType? b index m).filter (· ≠ m.owner) = some receiver ∧ reports = [refined b m receiver]) ∨
    (Unlocated b index m ∧ ∃ written reason, call.render = .ok written ∧ reports = [unresolved b written reason]) ∨
    ((localType? b index m).filter (· ≠ m.owner) = none ∧ ¬ Unlocated b index m ∧ reports = [])

/-- Why there can be no report on an instruction that pushed a receiver: it loads a local and names no slot to look up, or it cannot be quoted. -/
inductive Baffles (ins : Instruction) : ReceiverError → Prop
  | noSlot (load : ins.category = .loadLocal) (unnumbered : ∀ n, ins.operand ≠ some (.number n)) :
      Baffles ins (.noSlot (ins.operand.elim "NoneType" Operand.kind))
  | unwritable {error : Text.NumeralError} (unwritten : ins.render = .error error) : Baffles ins (.unwritable error)

/-- The receiver of a call is not to be found, and what was pushed for it cannot be reported. -/
def Fails (b : Body) (index : Nat) (m : Member) (e : ReceiverError) : Prop :=
  Unlocated b index m ∧ ∃ ins, pushedBelow b index m.params.length = some ins ∧ Baffles ins e

theorem instruction?_natCast (b : Body) (index : Nat) : b.instruction? index = b.instructions[index]? := by
  have h : ¬ (index : Int) < 0 := by omega
  unfold Body.instruction?
  simp only [h, if_false, Int.toNat_natCast]

theorem shape_local {ins : Instruction} (h : ins.category = .loadLocal) : shape (some ins) = .local := by
  simp [shape, h]

theorem shape_unrecognized {ins : Instruction} (h : ins.category ≠ .loadLocal) (hs : shape (some ins) ≠ .self) :
    shape (some ins) = .unrecognized := by
  unfold shape at hs ⊢
  dsimp only at hs ⊢
  split at hs
  · exact absurd rfl hs
  next hself => rw [if_neg hself, if_neg h]

theorem quoted_of_render {ins : Instruction} {text : String} (h : ins.render = .ok text) : quoted ins = .ok text := by
  rw [quoted, h]
  rfl

theorem quoted_of_render_error {ins : Instruction} {e : Text.NumeralError} (h : ins.render = .error e) :
    quoted ins = .error (.unwritable e) := by
  rw [quoted, h]
  rfl

variable {p : Program} {b : Body} {index : Nat} {call ins : Instruction} {m : Member} {e : ReceiverError}

theorem loadedType?_of_number {n : Int} (h : ins.operand = some (.number n)) :
    loadedType? b ins = .ok (b.localType? n) := by
  rw [loadedType?, h]

theorem loadedType?_of_unnumbered (h : ∀ n, ins.operand ≠ some (.number n)) :
    loadedType? b ins = .error (.noSlot (ins.operand.elim "NoneType" Operand.kind)) := by
  unfold loadedType?
  split
  next n ho => exact absurd ho (h n)
  · rfl

theorem loadedType?_cases (b : Body) (ins : Instruction) :
    (∃ found, loadedType? b ins = .ok found ∧ (loadedType? b ins).toOption.join = found) ∨
      ((∀ n, ins.operand ≠ some (.number n)) ∧
        loadedType? b ins = .error (.noSlot (ins.operand.elim "NoneType" Operand.kind))) := by
  by_cases h : ∃ n, ins.operand = some (.number n)
  · obtain ⟨n, hn⟩ := h
    refine .inl ⟨_, loadedType?_of_number hn, ?_⟩
    rw [loadedType?_of_number hn]
    rfl
  · have hn : ∀ n, ins.operand ≠ some (.number n) := fun n hn => h ⟨n, hn⟩
    exact .inr ⟨hn, loadedType?_of_unnumbered hn⟩

theorem Baffles.unique {e' : ReceiverError} (h : Baffles ins e) (h' : Baffles ins e') : e = e' := by
  have hclash : ∀ {error : Text.NumeralError}, (∀ n, ins.operand ≠ some (.number n)) → ins.render ≠ .error error := by
    intro error hn hr
    obtain ⟨-, n, ho, -⟩ := Instruction.exists_render_eq_error_iff.1 ⟨error, hr⟩
    exact hn n ho
  cases h with
  | noSlot hl hn =>
    cases h' with
    | noSlot => rfl
    | unwritable hr => exact absurd hr (hclash hn)
  | unwritable hr =>
    cases h' with
    | noSlot hl hn => exact absurd hr (hclash hn)
    | unwritable hr' => rw [Except.error.inj (hr.symm.trans hr')]

theorem Fails.unique {e' : ReceiverError} (h : Fails b index m e) (h' : Fails b index m e') : e = e' := by
  obtain ⟨-, ins, hins, hbaffles⟩ := h
  obtain ⟨-, other, hother, hbaffles'⟩ := h'
  obtain rfl := Option.some.inj (hins.symm.trans hother)
  exact hbaffles.unique hbaffles'

theorem resolveHere_eq (hi : b.instructions[index]? = some call) (hv : call.category = .virtualCall)
    (hm : call.member? = some m) :
    resolveHere p b index = refine p b call m (pushedBelow b index m.params.length) := by
  unfold resolveHere
  rw [instruction?_natCast, hi]
  dsimp only
  rw [hv, hm]

theorem refine_of_loadedType {receiver : TypeId} (hl : ins.category = .loadLocal)
    (ht : loadedType? b ins = .ok (some receiver)) : refine p b call m (some ins) =
      .ok (((some receiver).filter (· ≠ m.owner)).map fun t => ⟨t, p.override? t m⟩,
        ((some receiver).filter (· ≠ m.owner)).toList.map (refined b m)) := by
  by_cases ho : receiver = m.owner
  · simp [refine, shape_local hl, ht, ho, Option.filter_some, Except.bind, bind, pure, Except.pure]
  · simp [refine, shape_local hl, ht, ho, Program.override?, Option.filter_some, Except.bind, bind, pure, Except.pure]

/-- Any other receiver but `this` is reported, unless it baffles the report. -/
theorem refine_of_unseen {written : String} (hw : call.render = .ok written) (hs : shape (some ins) ≠ .self)
    (ht : ins.category = .loadLocal → (loadedType? b ins).toOption.join = none) :
    (∃ e, Baffles ins e ∧ refine p b call m (some ins) = .error e) ∨
      (∀ e, ¬ Baffles ins e) ∧
        ∃ reason, refine p b call m (some ins) = .ok (none, [unresolved b written reason]) := by
  have hcall := quoted_of_render hw
  by_cases hl : ins.category = .loadLocal
  · have hshape := shape_local hl
    rcases loadedType?_cases b ins with ⟨found, hfound, hjoin⟩ | ⟨hn, hfails⟩
    · obtain rfl := hjoin.symm.trans (ht hl)
      cases hr : ins.render with
      | error reason =>
        refine .inl ⟨_, .unwritable hr, ?_⟩
        simp only [refine, hshape, hfound, hcall, quoted_of_render_error hr]
        rfl
      | ok text =>
        refine .inr ⟨?_, text ++ " names an undeclared local", ?_⟩
        · rintro _ (⟨-, hn⟩ | hr')
          · rw [loadedType?_of_unnumbered hn] at hfound
            cases hfound
          · rw [hr] at hr'
            cases hr'
        · simp only [refine, hshape, hfound, hcall, quoted_of_render hr]
          rfl
    · refine .inl ⟨_, .noSlot hl hn, ?_⟩
      simp only [refine, hshape, hfails]
      rfl
  · have hshape := shape_unrecognized hl hs
    cases hr : ins.render with
    | error reason =>
      refine .inl ⟨_, .unwritable hr, ?_⟩
      simp only [refine, hshape, hcall, quoted_of_render_error hr]
      rfl
    | ok text =>
      refine .inr ⟨?_, "unknown instruction " ++ text, ?_⟩
      · rintro _ (⟨hl', -⟩ | hr')
        · exact hl hl'
        · rw [hr] at hr'
          cases hr'
      · simp only [refine, hshape, hcall, quoted_of_render hr]
        rfl

/-- What the walk back finds decides on the refinement and on the report, unless it is to be reported and cannot be. -/
theorem refine_pushedBelow (p : Program) (b : Body) (index : Nat) (hm : call.member? = some m) :
    (∃ e, Fails b index m e ∧ refine p b call m (pushedBelow b index m.params.length) = .error e) ∨
      ((∀ e, ¬ Fails b index m e) ∧ ∃ reports, refine p b call m (pushedBelow b index m.params.length) =
        .ok (((localType? b index m).filter (· ≠ m.owner)).map fun t => ⟨t, p.override? t m⟩, reports) ∧
          Reported b index call m reports) := by
  obtain ⟨written, hw⟩ := Instruction.exists_render hm
  unfold Fails Reported Unlocated localType?
  cases hp : pushedBelow b index m.params.length with
  | none =>
    refine .inr ⟨?_, [unresolved b written "no receiver load found"], ?_, .inr (.inl ⟨⟨rfl, ?_⟩, _, _, hw, rfl⟩)⟩
    · rintro _ ⟨-, _, h, -⟩
      cases h
    · simp only [refine, shape, quoted_of_render hw]
      rfl
    · rintro ins ⟨⟩
  | some ins =>
    by_cases hself : shape (some ins) = .self
    · have hl : ins.category ≠ .loadLocal := by
        intro h
        rw [shape_local h] at hself
        cases hself
      refine .inr ⟨?_, [], by simp [refine, hself, hl], .inr (.inr ⟨by simp [hl], ?_, rfl⟩)⟩
      · rintro _ ⟨⟨-, hlost⟩, -⟩
        exact hlost ins rfl hself
      · rintro ⟨-, hlost⟩
        exact hlost ins rfl hself
    · rw [Option.bind_some]
      cases ht : if ins.category = .loadLocal then (loadedType? b ins).toOption.join else none with
      | some receiver =>
        obtain ⟨hl, ht⟩ := Option.ite_none_right_eq_some.1 ht
        have hfound : loadedType? b ins = .ok (some receiver) := by
          rcases loadedType?_cases b ins with ⟨found, hfound, hjoin⟩ | ⟨-, hfails⟩
          · rw [hfound, ← hjoin, ht]
          · rw [hfails] at ht
            cases ht
        refine .inr ⟨?_, _, refine_of_loadedType hl hfound, ?_⟩
        · rintro _ ⟨⟨hnone, -⟩, -⟩
          cases hnone
        · by_cases ho : receiver = m.owner
          · exact .inr (.inr ⟨by simp [ho, Option.filter_some], by simp, by simp [ho, Option.filter_some]⟩)
          · exact .inl ⟨receiver, by simp [ho, Option.filter_some], by simp [ho, Option.filter_some]⟩
      | none =>
        have hlost : ∀ other, some ins = some other → shape (some other) ≠ .self := by
          rintro other hother
          obtain rfl := Option.some.inj hother
          exact hself
        rcases refine_of_unseen (p := p) (m := m) hw hself fun hl => (if_pos hl).symm.trans ht with
          ⟨e, hbaffles, hfails⟩ | ⟨hclear, reason, hfound⟩
        · exact .inl ⟨e, ⟨⟨rfl, hlost⟩, ins, rfl, hbaffles⟩, hfails⟩
        · refine .inr ⟨?_, _, hfound, .inr (.inl ⟨⟨rfl, hlost⟩, written, reason, hw, rfl⟩)⟩
          rintro e ⟨-, other, hother, hbaffles⟩
          obtain rfl := Option.some.inj hother
          exact hclear e hbaffles

end Receiver

end StubClosure
