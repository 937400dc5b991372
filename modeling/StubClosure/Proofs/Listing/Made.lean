import StubClosure.Proofs.Except
import StubClosure.Proofs.Listing.Calls

/-!
# What comes of the calls

Calls are made up to the first that fails (`makeAll_eq_error_iff`). If none does, the program is built by their steps (`exists_steps_of_elaborate`), and the instructions in it fit their mnemonics, because each was made from its mnemonic.
-/

namespace StubClosure.Listing

open Step

variable {file : Option String} {p : Program}

/-! ## What calls there are -/

section
variable {P : Call → Prop} {on : TypeId → Prop}

theorem forall_propertyCalls (hproperty : ∀ owner d, on owner → P (propertyCall file owner d)) {owner : TypeId}
    (ho : on owner) (members : List Decl) : ∀ c ∈ propertyCalls file owner members, P c := by
  induction members with
  | nil => simp [propertyCalls]
  | cons d rest ih =>
    cases d with
    | property d =>
      rw [propertyCalls, List.forall_mem_cons]
      exact ⟨hproperty owner d ho, ih⟩
    | field _ => exact ih
    | method _ => exact ih
    | type _ _ => exact ih

/-- Types nested in such a type are such types. -/
def Hereditary (on : TypeId → Prop) : Prop := ∀ outer simple t, on outer → outer.nest simple = .ok t → on t

mutual

theorem forall_typeCalls (hnest : Hereditary on)
    (hhead : ∀ outer h, (∀ t, declaredId outer h.name = .ok t → on t) → P (headCall file outer h))
    (outer : Option TypeId) (h : TypeHead) (members : List Decl) (ht : ∀ t, declaredId outer h.name = .ok t → on t) :
    ∀ c ∈ typeCalls file outer h members, P c := by
  rw [typeCalls, List.forall_mem_cons]
  refine ⟨hhead outer h ht, ?_⟩
  split
  next t hid => exact forall_innerCalls hnest hhead (ht t hid) members
  · exact List.forall_mem_nil _
termination_by (sizeOf members, 1)

theorem forall_innerCalls (hnest : Hereditary on)
    (hhead : ∀ outer h, (∀ t, declaredId outer h.name = .ok t → on t) → P (headCall file outer h))
    {owner : TypeId} (ho : on owner) (members : List Decl) : ∀ c ∈ innerCalls file owner members, P c := by
  match members with
  | [] =>
    rw [innerCalls]
    exact List.forall_mem_nil _
  | .type h inner :: rest =>
    rw [innerCalls, List.forall_mem_append]
    exact ⟨forall_typeCalls hnest hhead (some owner) h inner fun t hid => hnest owner h.name.toList t ho hid,
      forall_innerCalls hnest hhead ho rest⟩
  | .field _ :: rest =>
    rw [innerCalls]
    exact forall_innerCalls hnest hhead ho rest
  | .property _ :: rest =>
    rw [innerCalls]
    exact forall_innerCalls hnest hhead ho rest
  | .method _ :: rest =>
    rw [innerCalls]
    exact forall_innerCalls hnest hhead ho rest
termination_by (sizeOf members, 0)

end

/-- The method is declared among the members, or in a type among them, at any depth. -/
inductive MethodIn (m : MethodDecl) : List Decl → Prop where
  | here {rest : List Decl} : MethodIn m (.method m :: rest)
  | inside {h : TypeHead} {members rest : List Decl} : MethodIn m members → MethodIn m (.type h members :: rest)
  | later {d : Decl} {rest : List Decl} : MethodIn m rest → MethodIn m (d :: rest)

mutual

theorem forall_fillCalls (hnest : Hereditary on) (hfield : ∀ owner f, on owner → P (fieldCall file owner f))
    (hproperty : ∀ owner d, on owner → P (propertyCall file owner d))
    (outer : Option TypeId) (h : TypeHead) (members : List Decl)
    (hmethod : ∀ owner m, on owner → MethodIn m members → P (methodCall file owner m))
    (ht : ∀ t, declaredId outer h.name = .ok t → on t) : ∀ c ∈ fillCalls file outer h members, P c := by
  rw [fillCalls]
  split
  next t hid =>
    rw [List.forall_mem_append]
    exact ⟨forall_memberCalls hnest hfield hproperty (ht t hid) members hmethod,
      forall_propertyCalls hproperty (ht t hid) members⟩
  · exact List.forall_mem_nil _
termination_by (sizeOf members, 1)

theorem forall_memberCalls (hnest : Hereditary on) (hfield : ∀ owner f, on owner → P (fieldCall file owner f))
    (hproperty : ∀ owner d, on owner → P (propertyCall file owner d)) {owner : TypeId} (ho : on owner)
    (members : List Decl) (hmethod : ∀ owner m, on owner → MethodIn m members → P (methodCall file owner m)) :
    ∀ c ∈ memberCalls file owner members, P c := by
  match members with
  | [] =>
    rw [memberCalls]
    exact List.forall_mem_nil _
  | .field f :: rest =>
    rw [memberCalls, List.forall_mem_cons]
    exact ⟨hfield owner f ho,
      forall_memberCalls hnest hfield hproperty ho rest fun owner m ho hm => hmethod owner m ho (.later hm)⟩
  | .method m :: rest =>
    rw [memberCalls, List.forall_mem_cons]
    exact ⟨hmethod owner m ho .here,
      forall_memberCalls hnest hfield hproperty ho rest fun owner m ho hm => hmethod owner m ho (.later hm)⟩
  | .type h inner :: rest =>
    rw [memberCalls, List.forall_mem_append]
    exact ⟨forall_fillCalls hnest hfield hproperty (some owner) h inner
        (fun owner m ho hm => hmethod owner m ho (.inside hm)) fun t hid => hnest owner h.name.toList t ho hid,
      forall_memberCalls hnest hfield hproperty ho rest fun owner m ho hm => hmethod owner m ho (.later hm)⟩
  | .property _ :: rest =>
    rw [memberCalls]
    exact forall_memberCalls hnest hfield hproperty ho rest fun owner m ho hm => hmethod owner m ho (.later hm)
termination_by (sizeOf members, 0)

end

theorem forall_calls {types : List TypeDecl} (hhead : ∀ outer h, P (headCall file outer h))
    (hfield : ∀ owner f, P (fieldCall file owner f)) (hproperty : ∀ owner d, P (propertyCall file owner d))
    (hmethod : ∀ owner m, (∃ t ∈ types, MethodIn m t.members) → P (methodCall file owner m)) :
    ∀ c ∈ calls file types, P c := by
  have hnest : Hereditary fun _ => True := fun _ _ _ _ _ => trivial
  unfold calls
  rw [List.forall_mem_append]
  refine ⟨?_, ?_⟩ <;> intro c hc <;> obtain ⟨t, ht, hc⟩ := List.mem_flatMap.1 hc
  · exact forall_typeCalls hnest (fun outer h _ => hhead outer h) none t.head t.members (fun _ _ => trivial) c hc
  · exact forall_fillCalls hnest (fun owner f _ => hfield owner f) (fun owner d _ => hproperty owner d) none t.head
      t.members (fun owner m _ hm => hmethod owner m ⟨t, ht, hm⟩) (fun _ _ => trivial) c hc

end

/-! ## What comes of them -/

theorem Call.make_of_error {c : Call} {e : LoadError} (he : c.step = .error e) : c.make file p = .error e := by
  unfold Call.make
  rw [he]
  rfl

theorem Call.exists_step_of_make {c : Call} {q : Program} (h : c.make file p = .ok q) :
    ∃ step, c.step = .ok step ∧ q = step.after p := by
  unfold Call.make at h
  cases hs : c.step with
  | error e =>
    rw [hs] at h
    cases h
  | ok step =>
    refine ⟨step, rfl, ?_⟩
    rw [hs] at h
    replace h : (build file c.position p step.perform).bind (fun found => .ok found.2) = .ok q := h
    unfold build at h
    rcases hrun : ExceptT.run step.perform p with ⟨e | a, after⟩ <;> rw [hrun] at h
    · cases h
    · cases h
      exact (congrArg Prod.snd hrun).symm

theorem Call.make_of_step {c : Call} {step : BuildStep} (hs : c.step = .ok step) {q : Program}
    (hrun : step.perform.run.run p = (.ok (), q)) : c.make file p = .ok q := by
  replace hrun : ExceptT.run step.perform p = (.ok (), q) := hrun
  unfold Call.make
  rw [hs]
  show (build file c.position p step.perform).bind (fun found => .ok found.2) = .ok q
  unfold build
  rw [hrun]
  rfl

theorem exists_steps_of_makeAll {list : List Call} {q : Program} (h : makeAll file list p = .ok q) :
    ∃ steps : List BuildStep, list.map (·.step) = steps.map .ok ∧ q = steps.foldl (fun p step => step.after p) p := by
  induction list generalizing p with
  | nil =>
    cases h
    exact ⟨[], rfl, rfl⟩
  | cons c rest ih =>
    rw [makeAll_cons] at h
    cases hc : c.make file p with
    | error e =>
      rw [hc] at h
      cases h
    | ok mid =>
      rw [hc] at h
      obtain ⟨step, hs, rfl⟩ := Call.exists_step_of_make hc
      obtain ⟨steps, hsteps, rfl⟩ := ih h
      exact ⟨step :: steps, by rw [List.map_cons, hs, hsteps, List.map_cons], rfl⟩

/-- The first call that fails ends it all. -/
theorem makeAll_eq_error_iff {list : List Call} {e : LoadError} : makeAll file list p = .error e ↔
    ∃ before c after q, list = before ++ c :: after ∧ makeAll file before p = .ok q ∧ c.make file q = .error e := by
  constructor
  · intro h
    induction list generalizing p with
    | nil => cases h
    | cons c rest ih =>
      rw [makeAll_cons] at h
      cases hc : c.make file p with
      | error e' =>
        rw [hc] at h
        cases h
        exact ⟨[], c, rest, p, rfl, rfl, hc⟩
      | ok mid =>
        rw [hc] at h
        obtain ⟨before, bad, after, q, rfl, hq, hbad⟩ := ih h
        refine ⟨c :: before, bad, after, q, rfl, ?_, hbad⟩
        rw [makeAll_cons, hc]
        exact hq
  · rintro ⟨before, c, after, q, rfl, hq, hc⟩
    rw [makeAll_append, hq]
    show makeAll file (c :: after) q = _
    rw [makeAll_cons, hc]
    rfl

theorem fits_of_instructionOf {i : InstructionDecl} {ins : Instruction} (h : instructionOf file i = .ok ins) :
    ins.Fits := by
  obtain ⟨operand, -, hmade⟩ := exists_of_bind_eq_ok (mapError_eq_ok_iff.1 h)
  exact Instruction.fits_of_make (mapError_eq_ok_iff.1 hmade)

/-- The instructions that the builder is given are those of the methods. -/
theorem exists_of_gives {types : List TypeDecl} {c : Call} (hc : c ∈ calls file types) {step : BuildStep}
    (hs : c.step = .ok step) {list : List Instruction} (hlist : step.Gives list) {ins : Instruction} (hins : ins ∈ list) :
    ∃ t ∈ types, ∃ m, MethodIn m t.members ∧ ∃ b ∈ m.body, ∃ i ∈ b.instructions, instructionOf file i = .ok ins := by
  revert step list ins
  refine forall_calls (P := fun c => ∀ {step}, c.step = .ok step → ∀ {list}, step.Gives list → ∀ {ins}, ins ∈ list →
    ∃ t ∈ types, ∃ m, MethodIn m t.members ∧ ∃ b ∈ m.body, ∃ i ∈ b.instructions, instructionOf file i = .ok ins)
    ?_ ?_ ?_ ?_ c hc
  · intro outer h step hs list hlist
    obtain ⟨t, -, hs⟩ := exists_of_bind_eq_ok hs
    obtain ⟨base, -, hs⟩ := exists_of_bind_eq_ok hs
    obtain ⟨interfaces, -, hs⟩ := exists_of_bind_eq_ok hs
    cases hs
    cases hlist
  · intro owner f step hs list hlist
    obtain ⟨t, -, hs⟩ := exists_of_bind_eq_ok hs
    cases hs
    cases hlist
  · intro owner d step hs list hlist
    obtain ⟨t, -, hs⟩ := exists_of_bind_eq_ok hs
    cases hs
    cases hlist
  · rintro owner m ⟨t, ht, hm⟩ step hs list hlist ins hins
    obtain ⟨params, -, hs⟩ := exists_of_bind_eq_ok hs
    obtain ⟨locals, -, hs⟩ := exists_of_bind_eq_ok hs
    obtain ⟨body, hbody, hs⟩ := exists_of_bind_eq_ok hs
    obtain ⟨returns, -, hs⟩ := exists_of_bind_eq_ok hs
    cases hs
    obtain rfl : body = some list := hlist
    cases hb : m.body with
    | none =>
      rw [hb] at hbody
      cases hbody
    | some text =>
      rw [hb, optionMapM_some] at hbody
      obtain ⟨made, hmade, h⟩ := exists_of_bind_eq_ok hbody
      cases h
      obtain ⟨i, hi, hmade⟩ := exists_of_mem_mapM hmade hins
      exact ⟨t, ht, m, hm, text, hb, i, hi, hmade⟩

theorem step_ne_operands {types : List TypeDecl} {c : Call} (hc : c ∈ calls file types) : c.step ≠ .ok .operands := by
  refine forall_calls (P := fun c => c.step ≠ .ok .operands) ?_ ?_ ?_ ?_ c hc
  · intro outer h hs
    obtain ⟨t, -, hs⟩ := exists_of_bind_eq_ok hs
    obtain ⟨base, -, hs⟩ := exists_of_bind_eq_ok hs
    obtain ⟨interfaces, -, hs⟩ := exists_of_bind_eq_ok hs
    cases hs
  · intro owner f hs
    obtain ⟨t, -, hs⟩ := exists_of_bind_eq_ok hs
    cases hs
  · intro owner d hs
    obtain ⟨t, -, hs⟩ := exists_of_bind_eq_ok hs
    cases hs
  · intro owner m _ hs
    obtain ⟨params, -, hs⟩ := exists_of_bind_eq_ok hs
    obtain ⟨locals, -, hs⟩ := exists_of_bind_eq_ok hs
    obtain ⟨body, -, hs⟩ := exists_of_bind_eq_ok hs
    obtain ⟨returns, -, hs⟩ := exists_of_bind_eq_ok hs
    cases hs

theorem exists_call_of_mem {types : List TypeDecl} {steps : List BuildStep}
    (hsteps : (calls file types).map (·.step) = steps.map .ok) {step : BuildStep} (hs : step ∈ steps) :
    ∃ c ∈ calls file types, c.step = .ok step :=
  List.mem_map.1 (hsteps ▸ List.mem_map_of_mem hs : Except.ok step ∈ (calls file types).map (·.step))

/-- A listing that loads is built by the steps of its calls, and the resolution of operands after them. -/
theorem exists_steps_of_elaborate {name : String} {types : List TypeDecl} {p : Program}
    (h : elaborate file name types = .ok p) : ∃ steps : List BuildStep, (calls file types).map (·.step) = steps.map .ok ∧
      (∀ step ∈ steps, step.Fits) ∧ p = Program.build name (steps ++ [.operands]) := by
  rw [elaborate_eq] at h
  cases hm : makeAll file (calls file types) { name } with
  | error e =>
    rw [hm] at h
    cases h
  | ok q =>
    rw [hm] at h
    obtain rfl := Except.ok.inj h
    obtain ⟨steps, hsteps, rfl⟩ := exists_steps_of_makeAll hm
    refine ⟨steps, hsteps, fun step hs list hlist ins hins => ?_, ?_⟩
    · obtain ⟨c, hc, he⟩ := exists_call_of_mem hsteps hs
      obtain ⟨t, -, m, -, b, -, i, -, hmade⟩ := exists_of_gives hc he hlist hins
      exact fits_of_instructionOf hmade
    · unfold Program.build
      rw [List.foldl_append]
      rfl

theorem fits_of_load {source name : String} {p : Program} (h : load source name file = .ok p) : p.Fits := by
  unfold load at h
  split at h
  · obtain ⟨steps, -, hfits, rfl⟩ := exists_steps_of_elaborate h
    refine Program.fits_build name fun step hs => ?_
    rcases List.mem_append.1 hs with hs | hs
    · exact hfits step hs
    · obtain rfl := List.mem_singleton.1 hs
      rintro list ⟨⟩
  · cases h

end StubClosure.Listing
