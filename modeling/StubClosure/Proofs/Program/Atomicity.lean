import StubClosure.Proofs.Program.Change

/-!
# Steps that fail

A step of building that fails should leave the program as it was. Most steps do, for they make every check before their first change. Two steps do not, for they read some of their types too late. A nested type is listed with the type around it before its base and interfaces are read (`ListedEarly`), and a method is declared before the types of its locals are read (`DeclaredEarly`). What a failure leaves then gets in the way of a second attempt: the type comes to be listed twice, and the method counts as already defined.

Types are given by their names or by identities, and every identity has an arity that can be written (`Arity`). So a type has a name to be entered under, and entering it is no third way to fail late.
-/

namespace StubClosure

namespace Build

open Step

/-! ## Types -/

/-- The step lists a type, and then finds a base or an interface bad. -/
structure ListedEarly (p : Program) (arg : TypeArg) (base : Option TypeArg) (interfaces : List TypeArg)
    (t outer : TypeId) : Prop extends AddsInner p arg t outer where
  bad : BadSupertype base interfaces

/-- Unless it slips, the work fails before it has changed anything. -/
abbrev FailsFirst {α : Type} (work : Build α) (p : Program) (slips : Prop) : Prop :=
  Ends work p fun outcome after => ∀ e, outcome = .error e → ¬ slips → after = p

theorem failsFirst_forget {α : Type} {work : Build α} {p : Program} {slips : Prop} (h : FailsFirst work p slips) :
    FailsFirst (do let _ ← work) p slips := by
  apply Ends.forget
  refine h.mono fun outcome after hfirst e he => ?_
  cases outcome with
  | error e' => exact hfirst e' rfl
  | ok a => cases he

theorem failsFirst_addType (p : Program) (arg : TypeArg) (base : Option TypeArg) (interfaces : List TypeArg)
    (isPublic : Bool) :
    FailsFirst (addType arg base interfaces isPublic) p (∃ t outer, ListedEarly p arg base interfaces t outer) := by
  unfold FailsFirst Ends
  rcases run_addType_cases p arg base interfaces isPublic with
    ⟨e, hrun⟩ | ⟨t, outer, hadds, hrun⟩ | ⟨t, -, -, -, hrun⟩
  · rw [hrun]
    exact fun _ _ _ => rfl
  · rcases run_defineType_cases t base interfaces isPublic with ⟨hbad, -⟩ | ⟨-, found, others, hdefine⟩
    · exact fun _ _ hslips => absurd ⟨t, outer, hadds, hbad⟩ hslips
    · rw [hrun, hdefine]
      rintro _ ⟨⟩
  · rcases run_defineType_cases t base interfaces isPublic with ⟨-, e, hdefine⟩ | ⟨-, found, others, hdefine⟩
    · rw [hrun, hdefine]
      exact fun _ _ _ => rfl
    · rw [hrun, hdefine]
      rintro _ ⟨⟩

/-! ## Fields and properties -/

theorem failsFirst_addField (p : Program) (owner : TypeId) (name : String) (fieldType : TypeArg) (isStatic : Bool) :
    FailsFirst (addField owner name fieldType isStatic) p False := by
  unfold addField
  refine (reads_require owner).ends_bind (fun _ _ _ _ => rfl) fun _ _ => ?_
  refine (reads_type fieldType).ends_bind (fun _ _ _ _ => rfl) fun t _ => ?_
  rintro _ ⟨⟩

theorem failsFirst_addProperty (p : Program) (owner : TypeId) (name : String) (propertyType : TypeArg)
    (getter setter : Option AccessorArg) :
    FailsFirst (addProperty owner name propertyType getter setter) p False := by
  have hbinds : ∀ arg role q, Ends (accessor owner arg role) q fun outcome _ => ∃ bound, outcome = .ok bound := by
    intro arg role q
    cases arg with
    | none => exact ⟨none, rfl⟩
    | some arg => exact ⟨_, rfl⟩
  unfold addProperty
  refine (reads_require owner).ends_bind (fun _ _ _ _ => rfl) fun _ _ => ?_
  refine (reads_type propertyType).ends_bind (fun _ _ _ _ => rfl) fun t _ => ?_
  -- from here on nothing fails
  refine (hbinds getter .getter p).bind (fun e q h => by cases h.choose_spec) fun _ q _ => ?_
  refine (hbinds setter .setter q).bind (fun e r h => by cases h.choose_spec) fun _ r _ => ?_
  rintro _ ⟨⟩

/-! ## Methods -/

/-- The step declares a method, and then finds the type of a local bad. -/
structure DeclaredEarly (p : Program) (owner : TypeId) (new : NewMethod) (m : Member) : Prop
    extends AddsMethod p owner new m where
  isNew : p.members.contains m.toSignature = false
  bad : new.HasBadLocal

theorem failsFirst_addMethod (p : Program) (owner : TypeId) (new : NewMethod) :
    FailsFirst (addMethod owner new) p (∃ m, DeclaredEarly p owner new m) := by
  unfold FailsFirst Ends
  rcases run_addMethod_cases p owner new with ⟨e, hrun⟩ | ⟨m, hadds, hnew, hrun⟩
  · rw [hrun]
    exact fun _ _ _ => rfl
  · rcases run_giveBody_cases m new with ⟨hbad, -⟩ | ⟨-, hgive⟩
    · exact fun _ _ hslips => absurd ⟨m, hadds, hnew, hbad⟩ hslips
    · obtain ⟨q, hgive, -⟩ := hgive (p.declare owner m)
      rw [hrun, hgive]
      rintro _ ⟨⟩

end Build

namespace BuildStep

variable {p : Program}

/-- The step changes the program before it finds a type bad. -/
def Slips (p : Program) : BuildStep → Prop
  | type arg base interfaces _ => ∃ t outer, Build.ListedEarly p arg base interfaces t outer
  | method owner new => ∃ m, Build.DeclaredEarly p owner new m
  | field .. | property .. | operands => False

theorem failsFirst_perform (step : BuildStep) (p : Program) : Build.FailsFirst step.perform p (step.Slips p) := by
  cases step with
  | type arg base interfaces isPublic =>
    exact Build.failsFirst_forget (Build.failsFirst_addType p arg base interfaces isPublic)
  | field owner name fieldType isStatic =>
    exact Build.failsFirst_forget (Build.failsFirst_addField p owner name fieldType isStatic)
  | method owner new => exact Build.failsFirst_forget (Build.failsFirst_addMethod p owner new)
  | property owner name propertyType getter setter =>
    exact Build.failsFirst_forget (Build.failsFirst_addProperty p owner name propertyType getter setter)
  | operands => rintro _ ⟨⟩

section
variable {arg : TypeArg} {base : Option TypeArg} {interfaces : List TypeArg} {owner t outer : TypeId}
  {new : Build.NewMethod} {m : Member}

theorem exists_run_type_of_bad (h : Build.AddsInner p arg t outer) (hbad : Build.BadSupertype base interfaces)
    (isPublic : Bool) :
    ∃ e, (type arg base interfaces isPublic).perform.run.run p = (.error e, p.listNested outer t) := by
  rcases Build.run_defineType_cases t base interfaces isPublic with ⟨-, e, hrun⟩ | ⟨hgood, -⟩
  · refine ⟨e, ?_⟩
    rw [perform, Step.run_forget, h.run, hrun]
    rfl
  · exact absurd hbad hgood

/-- With good types the step succeeds. Where the type is listed already, it comes to be listed once more. -/
theorem exists_run_type_of_good (h : Build.AddsInner p arg t outer) (hgood : ¬ Build.BadSupertype base interfaces)
    (isPublic : Bool) :
    ∃ q, (type arg base interfaces isPublic).perform.run.run p = (.ok (), q) ∧ q.defines outer = true ∧
      (type arg base interfaces isPublic).perform.run.run (p.listNested outer t) = (.ok (), q.listNested outer t) := by
  rcases Build.run_defineType_cases t base interfaces isPublic with ⟨hbad, -⟩ | ⟨-, found, others, hrun⟩
  · exact absurd hbad hgood
  · generalize ({ id := t, base := found, interfaces := others, isPublic } : TypeDef) = d at hrun
    refine ⟨(p.listNested outer t).define t d, ?_, (Program.defines_define_iff d _).2 (.inr h.listNested.around), ?_⟩
    · rw [perform, Step.run_forget, h.run, hrun]
      rfl
    · rw [perform, Step.run_forget, h.listNested.run, hrun, Program.define_listNested h.ne]
      rfl

theorem exists_run_method_of_bad (h : Build.DeclaredEarly p owner new m) :
    ∃ e, (method owner new).perform.run.run p = (.error e, p.declare owner m) := by
  rcases Build.run_giveBody_cases m new with ⟨-, e, hrun⟩ | ⟨hgood, -⟩
  · refine ⟨e, ?_⟩
    rw [perform, Step.run_forget, h.run, if_neg (by simp [h.isNew]), hrun]
    rfl
  · exact absurd h.bad hgood

theorem exists_run_method_of_good (h : Build.AddsMethod p owner new m)
    (hnew : p.members.contains m.toSignature = false) (hgood : ¬ new.HasBadLocal) :
    ∃ q, (method owner new).perform.run.run p = (.ok (), q) := by
  rcases Build.run_giveBody_cases m new with ⟨hbad, -⟩ | ⟨-, hrun⟩
  · exact absurd hbad hgood
  · obtain ⟨q, hq, -⟩ := hrun (p.declare owner m)
    refine ⟨q, ?_⟩
    rw [perform, Step.run_forget, h.run, if_neg (by simp [hnew]), hq]
    rfl

theorem run_method_declare {other : Member} (h : Build.AddsMethod p owner new m)
    (hsame : m.toSignature = other.toSignature) :
    (method owner new).perform.run.run (p.declare owner other) =
      (.error (.methodExists other.toSignature), p.declare owner other) := by
  have hdeclared : Build.AddsMethod (p.declare owner other) owner new m :=
    ⟨(Program.defines_modifyType owner _ owner).trans h.owned, h.makes⟩
  rw [perform, Step.run_forget, hdeclared.run, hsame, if_pos (Program.contains_declare owner other)]
  rfl

end

end BuildStep

namespace Program

open BuildStep

/-- **What failing steps leave.** A step that fails leaves the program as it was, and then whatever is done next comes to the same, unless the step lists a nested type or declares a method before it finds a type bad. A step that lists a type early fails and leaves it listed; made again with good types it succeeds, as it would have at once, but the type around then lists the new one twice. A step that declares a method early fails and leaves it declared; made again with good locals, which would have succeeded at once, it fails because the method is defined already. -/
theorem failed_steps (p : Program) :
    (∀ (step : BuildStep) e, step.outcome p = .error e → ¬ step.Slips p →
      step.after p = p ∧ ∀ next : BuildStep, next.perform.run.run (step.after p) = next.perform.run.run p) ∧
    (∀ arg base interfaces isPublic t outer, Build.ListedEarly p arg base interfaces t outer →
      let step := BuildStep.type arg base interfaces isPublic
      (∃ e, step.outcome p = .error e) ∧ step.after p = p.listNested outer t ∧ step.after p ≠ p ∧
      ∀ base' interfaces' isPublic', ¬ Build.BadSupertype base' interfaces' →
        let again := BuildStep.type arg base' interfaces' isPublic'
        again.outcome p = .ok () ∧ again.outcome (step.after p) = .ok () ∧
          again.after (step.after p) = (again.after p).listNested outer t ∧
          again.after (step.after p) ≠ again.after p) ∧
    ∀ owner new m, Build.DeclaredEarly p owner new m →
      let step := BuildStep.method owner new
      (∃ e, step.outcome p = .error e) ∧ step.after p = p.declare owner m ∧ step.after p ≠ p ∧
      ∀ new' m', new'.Makes owner m' → m'.toSignature = m.toSignature → ¬ new'.HasBadLocal →
        let again := BuildStep.method owner new'
        again.outcome p = .ok () ∧ again.outcome (step.after p) = .error (.methodExists m.toSignature) := by
  refine ⟨fun step e he hslips => ?_, fun arg base interfaces isPublic t outer h => ?_, fun owner new m h => ?_⟩
  · have hafter : step.after p = p := step.failsFirst_perform p e he hslips
    exact ⟨hafter, fun next => by rw [hafter]⟩
  · intro step
    obtain ⟨e, hstep⟩ := exists_run_type_of_bad h.toAddsInner h.bad isPublic
    have hafter : step.after p = p.listNested outer t := congrArg Prod.snd hstep
    refine ⟨⟨e, congrArg Prod.fst hstep⟩, hafter, ?_, fun base' interfaces' isPublic' hgood => ?_⟩
    · rw [hafter]
      exact listNested_ne h.around
    · intro again
      obtain ⟨q, hfirst, hq, hsecond⟩ := exists_run_type_of_good h.toAddsInner hgood isPublic'
      have hagain : again.after p = q := congrArg Prod.snd hfirst
      have htwice : again.after (p.listNested outer t) = q.listNested outer t := congrArg Prod.snd hsecond
      rw [hafter, hagain, htwice]
      exact ⟨congrArg Prod.fst hfirst, congrArg Prod.fst hsecond, rfl, listNested_ne hq⟩
  · intro step
    obtain ⟨e, hstep⟩ := exists_run_method_of_bad h
    have hafter : step.after p = p.declare owner m := congrArg Prod.snd hstep
    refine ⟨⟨e, congrArg Prod.fst hstep⟩, hafter, ?_, fun new' m' hmakes hsame hgood => ?_⟩
    · rw [hafter]
      exact declare_ne h.isNew
    · intro again
      have hadds : Build.AddsMethod p owner new' m' := ⟨h.owned, hmakes⟩
      obtain ⟨q, hfirst⟩ := exists_run_method_of_good hadds (hsame ▸ h.isNew) hgood
      rw [hafter]
      exact ⟨congrArg Prod.fst hfirst, congrArg Prod.fst (run_method_declare hadds hsame)⟩

end Program

namespace Zoo

/-- A type in `Foo`. -/
def cage : TypeId := .inner foo "" "Cage" 0

/-- A method of `Foo` whose one local is bad. -/
def feed : Build.NewMethod := { name := "Feed", body := some [], locals := [.name "B."] }

theorem isBad : (TypeArg.name "B.").IsBad := ⟨.invalid "B.", rfl⟩

theorem listedEarly : Build.ListedEarly program (.id cage) (some (.name "B.")) [] cage foo where
  resolves := rfl
  isNew := by decide
  isInner := rfl
  around := by decide
  bad := .inl ⟨_, rfl, isBad⟩

theorem declaredEarly : Build.DeclaredEarly program foo feed (.method foo "Feed" [] .void) where
  owned := by decide
  makes := ⟨[], .void, rfl, rfl, by decide⟩
  isNew := by decide
  bad := ⟨by simp [feed], _, List.mem_singleton_self _, isBad⟩

end Zoo

/-- In the zoo, adding a type again changes nothing, but a type and a method can be added by halves. -/
theorem Program.failed_steps_zoo :
    (BuildStep.type (.id Zoo.foo) none [] true).after Zoo.program = Zoo.program ∧
    Build.ListedEarly Zoo.program (.id Zoo.cage) (some (.name "B.")) [] Zoo.cage Zoo.foo ∧
    (BuildStep.type (.id Zoo.cage) (some (.name "B.")) [] true).after Zoo.program ≠ Zoo.program ∧
    Build.DeclaredEarly Zoo.program Zoo.foo Zoo.feed (.method Zoo.foo "Feed" [] .void) ∧
    (BuildStep.method Zoo.foo Zoo.feed).after Zoo.program ≠ Zoo.program := by
  obtain ⟨hclean, hlisted, hdeclared⟩ := Program.failed_steps Zoo.program
  refine ⟨(hclean _ (.typeExists Zoo.foo) ?_ ?_).1, Zoo.listedEarly, (hlisted _ _ _ true _ _ Zoo.listedEarly).2.2.1,
    Zoo.declaredEarly, (hdeclared _ _ _ Zoo.declaredEarly).2.2.1⟩
  · rfl
  · rintro ⟨t, outer, h⟩
    obtain rfl := Except.ok.inj h.resolves
    cases h.isInner

end StubClosure
