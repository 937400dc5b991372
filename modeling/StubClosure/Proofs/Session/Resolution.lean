import Mathlib.Data.List.Induction
import StubClosure.Proofs.Receiver
import StubClosure.Proofs.Program.Built
import StubClosure.Proofs.Session.Faithful

/-!
# Resolving one call

From a virtual call, the walk back passes over as many pushing instructions as the method has parameters, and comes to the one before them. `PushedAt` says which one this is, by place and count alone and without a walk; there is at most one such place, and none exactly if too few instructions push (`pushedBelow_eq_some_iff`, `pushedBelow_eq_none_iff`).

What was pushed there settles the call. A local of another type than the call names refines it, and this is noted; a load of `this` or of a local of that same type leaves it alone, silently; anything else, or nothing, leaves it alone with a warning. Two things come in the way of that (`resolve_settles`): a load of a local whose operand is no number cannot be looked up, and a warning cannot quote an instruction with a number that is too long to be written.
-/

namespace StubClosure.Receiver

/-! ## The walk back -/

/-- The instruction at the place pushes, and between it and the index so many others do. -/
structure PushedAt (b : Body) (index : Int) (others : Nat) (place : Nat) (ins : Instruction) : Prop where
  before : (place : Int) < index
  instruction : b.instructions[place]? = some ins
  pushes : ins.pushes = true
  between : ((b.instructions.take index.toNat).drop (place + 1)).countP (·.pushes) = others

variable {b : Body} {index : Int} {others : Nat} {place place' : Nat} {ins ins' : Instruction}

/-- What comes at a position among the pushing instructions, counted from the end, has so many of them behind it. -/
theorem getElem?_filter_reverse {instructions : List Instruction} :
    (instructions.reverse.filter (·.pushes))[others]? = some ins ↔
      ∃ place, instructions[place]? = some ins ∧ ins.pushes = true ∧
        (instructions.drop (place + 1)).countP (·.pushes) = others := by
  induction instructions using List.reverseRecOn generalizing others with
  | nil => simp
  | append_singleton rest last ih =>
    have hbehind : ∀ place < rest.length, ((rest ++ [last]).drop (place + 1)).countP (·.pushes) =
        (rest.drop (place + 1)).countP (·.pushes) + if last.pushes then 1 else 0 := by
      intro place h
      rw [List.drop_append_of_le_length (by omega), List.countP_append, List.countP_singleton]
    rw [List.reverse_append, List.reverse_singleton, List.singleton_append, List.filter_cons]
    constructor
    · intro h
      split at h
      next hlast =>
        cases others with
        | zero =>
          obtain rfl : last = ins := Option.some.inj h
          exact ⟨rest.length, by simp, hlast, by simp⟩
        | succ others =>
          obtain ⟨place, hplace, hpushes, hcount⟩ := ih.1 h
          have hlt : place < rest.length := (List.getElem?_eq_some_iff.1 hplace).1
          refine ⟨place, by rwa [List.getElem?_append_left hlt], hpushes, ?_⟩
          rw [hbehind place hlt, hcount, if_pos hlast]
      next hlast =>
        obtain ⟨place, hplace, hpushes, hcount⟩ := ih.1 h
        have hlt : place < rest.length := (List.getElem?_eq_some_iff.1 hplace).1
        refine ⟨place, by rwa [List.getElem?_append_left hlt], hpushes, ?_⟩
        rw [hbehind place hlt, hcount, if_neg hlast, Nat.add_zero]
    · rintro ⟨place, hplace, hpushes, hcount⟩
      rcases Nat.lt_trichotomy place rest.length with hlt | rfl | hgt
      · rw [List.getElem?_append_left hlt] at hplace
        rw [hbehind place hlt] at hcount
        subst hcount
        split
        · exact ih.2 ⟨place, hplace, hpushes, rfl⟩
        · exact ih.2 ⟨place, hplace, hpushes, rfl⟩
      · obtain rfl : last = ins := by simpa using hplace
        obtain rfl : 0 = others := by simpa using hcount
        rw [if_pos hpushes]
        rfl
      · rw [List.getElem?_eq_none (by simp; omega)] at hplace
        cases hplace

theorem pushedBelow_eq_some_iff : pushedBelow b index others = some ins ↔ ∃ place, PushedAt b index others place ins := by
  unfold pushedBelow
  rw [getElem?_filter_reverse]
  constructor
  · rintro ⟨place, hplace, hpushes, hcount⟩
    obtain ⟨hbefore, hplace⟩ : place < index.toNat ∧ b.instructions[place]? = some ins := by
      simpa [List.getElem?_take] using hplace
    exact ⟨place, by omega, hplace, hpushes, hcount⟩
  · rintro ⟨place, hbefore, hplace, hpushes, hcount⟩
    refine ⟨place, ?_, hpushes, hcount⟩
    rw [List.getElem?_take_of_lt (by omega)]
    exact hplace

theorem pushedBelow_eq_none_iff :
    pushedBelow b index others = none ↔ (b.instructions.take index.toNat).countP (·.pushes) < others + 1 := by
  unfold pushedBelow
  rw [List.getElem?_eq_none_iff, ← List.countP_eq_length_filter, List.countP_reverse]
  omega

theorem PushedAt.le (h : PushedAt b index others place ins) (h' : PushedAt b index others place' ins') :
    place' ≤ place := by
  by_contra hlt
  have hlater : (b.instructions.take index.toNat).drop place' =
      ins' :: (b.instructions.take index.toNat).drop (place' + 1) := by
    rw [List.drop_eq_getElem?_toList_append, List.getElem?_take_of_lt (by have := h'.before; omega), h'.instruction]
    rfl
  have hle := (List.drop_suffix_drop_left (b.instructions.take index.toNat)
    (show place + 1 ≤ place' by omega)).sublist.countP_le (p := (·.pushes))
  rw [hlater, List.countP_cons_of_pos h'.pushes, h'.between, h.between] at hle
  omega

theorem PushedAt.eq (h : PushedAt b index others place ins) (h' : PushedAt b index others place' ins') :
    place = place' ∧ ins = ins' := by
  obtain rfl : place = place' := Nat.le_antisymm (h'.le h) (h.le h')
  exact ⟨rfl, Option.some.inj (h.instruction.symm.trans h'.instruction)⟩

/-! ## What was pushed -/

/-- A load of `this`. -/
def LoadsThis (ins : Instruction) : Prop := ins.category = .loadArg ∧ ins.operand = some (.number 0)

/-- A load of a local slot that the body declares, of the given type. -/
def LoadsLocal (b : Body) (ins : Instruction) (t : TypeId) : Prop :=
  ins.category = .loadLocal ∧ ∃ slot : Nat, ins.operand = some (.number slot) ∧ b.locals[slot]? = some t

/-- The receiver is not to be found: nothing was pushed for it, or not by a load of `this` or of a declared slot. -/
def Lost (b : Body) (producer : Option Instruction) : Prop :=
  ∀ ins ∈ producer, ¬ LoadsThis ins ∧ ∀ t, ¬ LoadsLocal b ins t

/-- A load of a local whose operand is no number. -/
def IsSlotless (ins : Instruction) : Prop := ins.category = .loadLocal ∧ ∀ n, ins.operand ≠ some (.number n)

/-- The instruction has a number for an operand that is too long to be written, and has to write it. -/
def IsTooLong (ins : Instruction) : Prop :=
  ins.impliesSlot = false ∧ ∃ n, ins.operand = some (.number n) ∧ Text.unwritableFrom ≤ n.natAbs

/-- The type defines the method, as the first of the name and return type of another. -/
def IsOverride (p : Program) (t : TypeId) (m method : Member) : Prop :=
  ∃ d before after, p.type? t = some d ∧ d.methods = before ++ method :: after ∧
    (method.name = m.name ∧ method.valueType = m.valueType) ∧
    ∀ other ∈ before, ¬ (other.name = m.name ∧ other.valueType = m.valueType)

/-- What a call of a member comes to whose receiver was pushed by the given instruction, and what is reported. -/
structure Settles (p : Program) (b : Body) (m : Member) (producer : Option Instruction)
    (refinement : Option Refinement) (reports : List Diagnostic) : Prop where
  refined : ∀ r, refinement = some r ↔ ∃ ins ∈ producer, LoadsLocal b ins r.receiver ∧ r.receiver ≠ m.owner ∧
    ∀ method, r.method = some method ↔ IsOverride p r.receiver m method
  noted : refinement.isSome → ∃ d, reports = [d] ∧ d.severity = .info ∧ d.code = some DiagnosticCode.dispatchRefined.name
  warned : Lost b producer →
    ∃ d, reports = [d] ∧ d.severity = .warning ∧ d.code = some DiagnosticCode.dispatchUnresolved.name
  silent : refinement = none → ¬ Lost b producer → reports = []

variable {p : Program} {m method : Member} {t : TypeId} {call : Instruction}

theorem shape_eq_self_iff : shape (some ins) = .self ↔ LoadsThis ins := by
  unfold shape LoadsThis
  dsimp only
  split
  next h => simpa using h
  next h =>
    split <;> simpa using h

theorem loadedType?_eq_some_iff (h : ins.category = .loadLocal) :
    (loadedType? b ins).toOption.join = some t ↔ LoadsLocal b ins t := by
  unfold loadedType? LoadsLocal Body.localType?
  constructor
  · intro ht
    split at ht
    next slot ho =>
      obtain ⟨hslot, ht⟩ := Option.ite_none_left_eq_some.1 (show (if slot < 0 then none else _) = some t from ht)
      refine ⟨h, slot.toNat, ?_, ht⟩
      rw [ho, Int.toNat_of_nonneg (by omega)]
    · cases ht
  · rintro ⟨-, slot, ho, ht⟩
    rw [ho]
    show (if (slot : Int) < 0 then none else b.locals[(slot : Int).toNat]?) = some t
    simpa using ht

theorem override?_eq_some_iff : p.override? t m = some method ↔ IsOverride p t m method := by
  unfold Program.override? IsOverride TypeDef.findMethod?
  rw [Option.bind_eq_some_iff]
  refine exists_congr fun d => ?_
  rw [List.find?_eq_some_iff_append]
  simp only [Bool.and_eq_true, decide_eq_true_eq, Bool.not_eq_true', Bool.and_eq_false_imp, decide_eq_false_iff_not,
    not_and]
  tauto

theorem localType?_eq_some_iff {place : Nat} : localType? b place m = some t ↔
    ∃ ins ∈ pushedBelow b place m.params.length, LoadsLocal b ins t := by
  unfold localType?
  rw [Option.bind_eq_some_iff]
  refine exists_congr fun ins => and_congr_right fun _ => ?_
  rw [Option.ite_none_right_eq_some]
  constructor
  · rintro ⟨hl, ht⟩
    exact (loadedType?_eq_some_iff hl).1 ht
  · intro ht
    exact ⟨ht.1, (loadedType?_eq_some_iff ht.1).2 ht⟩

theorem localType?_eq_none_iff {place : Nat} : localType? b place m = none ↔
    ∀ ins ∈ pushedBelow b place m.params.length, ∀ t, ¬ LoadsLocal b ins t := by
  rw [Option.eq_none_iff_forall_ne_some]
  constructor
  · intro h ins hins t ht
    exact h t (localType?_eq_some_iff.2 ⟨ins, hins, ht⟩)
  · intro h t ht
    obtain ⟨ins, hins, hloads⟩ := localType?_eq_some_iff.1 ht
    exact h ins hins t hloads

theorem unlocated_iff {place : Nat} : Unlocated b place m ↔ Lost b (pushedBelow b place m.params.length) := by
  unfold Unlocated Lost
  rw [localType?_eq_none_iff]
  simp only [shape_eq_self_iff, Option.mem_def, ne_eq]
  grind

theorem IsSlotless.lost (h : IsSlotless ins) : Lost b (some ins) := by
  rintro other hother
  obtain rfl := Option.some.inj hother
  refine ⟨fun hthis => h.2 0 hthis.2, ?_⟩
  rintro t ⟨-, slot, ho, -⟩
  exact h.2 slot ho

theorem baffles_iff {e : ReceiverError} : Baffles ins e ↔
    IsSlotless ins ∧ e = .noSlot (ins.operand.elim "NoneType" Operand.kind) ∨
      IsTooLong ins ∧ e = .unwritable .unwritable := by
  unfold IsTooLong
  rw [← Instruction.exists_render_eq_error_iff]
  constructor
  · rintro (⟨hl, hn⟩ | hr)
    · exact .inl ⟨⟨hl, hn⟩, rfl⟩
    · obtain rfl := Instruction.eq_unwritable_of_render hr
      exact .inr ⟨⟨_, hr⟩, rfl⟩
  · rintro (⟨⟨hl, hn⟩, rfl⟩ | ⟨⟨error, hr⟩, rfl⟩)
    · exact .noSlot hl hn
    · obtain rfl := Instruction.eq_unwritable_of_render hr
      exact .unwritable hr

/-- What the search for a receiver fails on, and with what. -/
theorem fails_iff {place : Nat} {e : ReceiverError} : Fails b place m e ↔
    ∃ ins ∈ pushedBelow b place m.params.length,
      IsSlotless ins ∧ e = .noSlot (ins.operand.elim "NoneType" Operand.kind) ∨
        Lost b (some ins) ∧ IsTooLong ins ∧ e = .unwritable .unwritable := by
  unfold Fails
  rw [unlocated_iff]
  constructor
  · rintro ⟨hlost, ins, hins, hbaffles⟩
    rw [hins] at hlost
    exact ⟨ins, hins, (baffles_iff.1 hbaffles).imp_right fun h => ⟨hlost, h⟩⟩
  · rintro ⟨ins, hins, hcases⟩
    rw [show pushedBelow b place m.params.length = some ins from hins]
    rcases hcases with ⟨hslotless, he⟩ | ⟨hlost, hlong, he⟩
    · exact ⟨hslotless.lost, ins, rfl, baffles_iff.2 (.inl ⟨hslotless, he⟩)⟩
    · exact ⟨hlost, ins, rfl, baffles_iff.2 (.inr ⟨hlong, he⟩)⟩

theorem map_override?_eq_some_iff {place : Nat} {r : Refinement} :
    (((localType? b place m).filter (· ≠ m.owner)).map fun t => (⟨t, p.override? t m⟩ : Refinement)) = some r ↔
      ∃ ins ∈ pushedBelow b place m.params.length, LoadsLocal b ins r.receiver ∧ r.receiver ≠ m.owner ∧
        ∀ method, r.method = some method ↔ IsOverride p r.receiver m method := by
  simp only [Option.map_eq_some_iff, Option.filter_eq_some_iff, decide_eq_true_eq]
  constructor
  · rintro ⟨t, ⟨ht, hne⟩, rfl⟩
    obtain ⟨ins, hins, hloads⟩ := localType?_eq_some_iff.1 ht
    exact ⟨ins, hins, hloads, hne, fun method => override?_eq_some_iff⟩
  · rintro ⟨ins, hins, hloads, hne, hmethod⟩
    have hsame : p.override? r.receiver m = r.method :=
      Option.ext fun method => override?_eq_some_iff.trans (hmethod method).symm
    exact ⟨r.receiver, ⟨localType?_eq_some_iff.2 ⟨ins, hins, hloads⟩, hne⟩, by rw [hsame]⟩

theorem settles_of_reported {place : Nat} {reports : List Diagnostic} (h : Reported b place call m reports) :
    Settles p b m (pushedBelow b place m.params.length)
      (((localType? b place m).filter (· ≠ m.owner)).map fun t => ⟨t, p.override? t m⟩) reports := by
  rcases h with ⟨t, ht, rfl⟩ | ⟨hlost, written, reason, -, rfl⟩ | ⟨hnone, hfound, rfl⟩
  · refine ⟨fun r => map_override?_eq_some_iff, fun _ => ⟨_, rfl, rfl, rfl⟩, fun hlost => ?_, fun hnone => ?_⟩
    · simp [(unlocated_iff.2 hlost).1] at ht
    · rw [ht] at hnone
      cases hnone
  · refine ⟨fun r => map_override?_eq_some_iff, fun hsome => ?_, fun _ => ⟨_, rfl, rfl, rfl⟩, fun _ hnot => ?_⟩
    · simp [hlost.1] at hsome
    · exact absurd (unlocated_iff.1 hlost) hnot
  · refine ⟨fun r => map_override?_eq_some_iff, fun hsome => ?_, fun hlost => ?_, fun _ _ => rfl⟩
    · rw [hnone] at hsome
      cases hsome
    · exact absurd (unlocated_iff.2 hlost) hfound

/-- **What a virtual call comes to** depends on what pushed its receiver: the one instruction that pushes and has as many pushing instructions between it and the call as there are parameters; there is none exactly if too few instructions before the call push. Asked for the first time, the call is refined and noted, or warned about, or passed over in silence, as `Settles` says; asked again, it comes to the same, and nothing more is reported. There are two exceptions, in which nothing is remembered or reported: the receiver was loaded from a local that the instruction does not name by a number, or there is to be a warning that would have to quote too long a number. -/
theorem resolve_settles (p : Program) (hi : b.instruction? index = some call) (hv : call.category = .virtualCall)
    (hm : call.member? = some m) : ∃ producer, producer? b index = .ok producer ∧
      (∀ ins, producer = some ins ↔ ∃ place, PushedAt b index m.params.length place ins) ∧
      (∀ place place' ins ins', PushedAt b index m.params.length place ins →
        PushedAt b index m.params.length place' ins' → place = place' ∧ ins = ins') ∧
      (producer = none ↔ (b.instructions.take index.toNat).countP (·.pushes) < m.params.length + 1) ∧
      ∀ session : Session, session.memory.refined.find? (b.method.toSignature, index) = none →
        (∀ ins ∈ producer, IsSlotless ins → (resolve p b index).run.run session =
          (.error (.noSlot (ins.operand.elim "NoneType" Operand.kind)), session)) ∧
        (∀ ins ∈ producer, Lost b producer → IsTooLong ins →
          (resolve p b index).run.run session = (.error (.unwritable .unwritable), session)) ∧
        ((∀ ins ∈ producer, ¬ IsSlotless ins ∧ ¬ (Lost b producer ∧ IsTooLong ins)) →
          ∃ refinement reports after, (resolve p b index).run.run session = (.ok refinement, after) ∧
            Settles p b m producer refinement reports ∧ after.sink = session.sink.emitAll reports ∧
            (resolve p b index).run.run after = (.ok refinement, after)) := by
  have hplace : pushedBelow b index m.params.length = pushedBelow b index.toNat m.params.length := by
    unfold pushedBelow
    rw [Int.toNat_natCast]
  have hproducer : producer? b index = .ok (pushedBelow b index m.params.length) := by
    unfold producer?
    rw [hi]
    dsimp only
    rw [hm]
  have hhere : resolveHere p b index = refine p b call m (pushedBelow b index.toNat m.params.length) := by
    unfold resolveHere
    rw [hi]
    dsimp only
    rw [hv, hm, ← hplace]
  refine ⟨_, hproducer, fun ins => pushedBelow_eq_some_iff, fun place place' ins ins' h h' => h.eq h',
    pushedBelow_eq_none_iff, fun session hfresh => ?_⟩
  -- an error is the one that the instruction calls for, since there is only one such error
  have hfails : ∀ e, Fails b index.toNat m e → (resolve p b index).run.run session = (.error e, session) := by
    intro e he
    rw [run_resolve, hfresh, hhere]
    rcases refine_pushedBelow p b index.toNat hm with ⟨e', he', hrefine⟩ | ⟨hclear, -⟩
    · rw [hrefine, he.unique he']
    · exact absurd he (hclear e)
  rw [hplace]
  refine ⟨fun ins hins hslotless => ?_, fun ins hins hlost hlong => ?_, fun hclear => ?_⟩
  · exact hfails _ (fails_iff.2 ⟨ins, hins, .inl ⟨hslotless, rfl⟩⟩)
  · rw [show pushedBelow b index.toNat m.params.length = some ins from hins] at hlost
    exact hfails _ (fails_iff.2 ⟨ins, hins, .inr ⟨hlost, hlong, rfl⟩⟩)
  · rcases refine_pushedBelow p b index.toNat hm with ⟨e, he, -⟩ | ⟨-, reports, hrefine, hreported⟩
    · obtain ⟨ins, hins, ⟨hslotless, -⟩ | ⟨hlost, hlong, -⟩⟩ := fails_iff.1 he
      · exact absurd hslotless (hclear ins hins).1
      · refine absurd ⟨?_, hlong⟩ (hclear ins hins).2
        rwa [show pushedBelow b index.toNat m.params.length = some ins from hins]
    · rw [run_resolve, hfresh, hhere, hrefine]
      refine ⟨_, reports, _, rfl, settles_of_reported hreported, rfl, ?_⟩
      rw [run_resolve]
      simp

/-- In the zoo, `Animal.Speak` is called on a local that is a `Dog`, which has a `Speak` of its own. -/
theorem resolve_settles_zoo : Zoo.make.instruction? 2 = some Zoo.callSpeak ∧ Zoo.callSpeak.category = .virtualCall ∧
    Zoo.callSpeak.member? = some Zoo.speak ∧
    ∃ producer reports after, producer? Zoo.make 2 = .ok producer ∧
      PushedAt Zoo.make 2 1 0 { offset := 0, category := .loadLocal, mnemonic := "ldloc.0", operand := some (.number 0) } ∧
      (resolve Zoo.program Zoo.make 2).run.run {} =
        (.ok (some ⟨Zoo.dog, some (.method Zoo.dog "Speak" [Zoo.foo] .void)⟩), after) ∧
      Settles Zoo.program Zoo.make Zoo.speak producer
        (some ⟨Zoo.dog, some (.method Zoo.dog "Speak" [Zoo.foo] .void)⟩) reports ∧
      reports.map (·.severity) = [.info] ∧ after.sink = Sink.emitAll {} reports := by
  have hi : Zoo.make.instruction? 2 = some Zoo.callSpeak := by decide
  have hpushed : PushedAt Zoo.make 2 1 0
      { offset := 0, category := .loadLocal, mnemonic := "ldloc.0", operand := some (.number 0) } :=
    ⟨by decide, rfl, rfl, by decide⟩
  have hfound : ((resolve Zoo.program Zoo.make 2).run.run {}).1 =
      .ok (some ⟨Zoo.dog, some (.method Zoo.dog "Speak" [Zoo.foo] .void)⟩) := by decide
  obtain ⟨producer, hproducer, hpushes, -, -, hresolve⟩ := resolve_settles Zoo.program hi rfl rfl
  obtain ⟨refinement, reports, after, hrun, hsettles, hsink, -⟩ := (hresolve {} rfl).2.2 fun ins hins => by
    obtain rfl := Option.some.inj (hins.symm.trans ((hpushes _).2 ⟨0, hpushed⟩))
    exact ⟨fun h => h.2 0 rfl, fun h => Bool.false_ne_true h.2.1.symm⟩
  rw [hrun] at hfound
  obtain rfl := Except.ok.inj hfound
  obtain ⟨d, hreports, hseverity, -⟩ := hsettles.noted rfl
  refine ⟨hi, rfl, rfl, producer, reports, after, hproducer, hpushed, hrun, hsettles, ?_, hsink⟩
  rw [hreports, List.map_singleton, hseverity]

end StubClosure.Receiver
