import Mathlib.Data.Set.Basic
import StubClosure.Proofs.Program.Change

/-!
# What a step of building looks at

A step that adds a member looks at the type that the member is for, and at nothing else; one that adds a type looks at that type and the one around it. All that it changes is kept under the same types: their definitions, and the members and bodies whose signatures they own. So a step may be made on any of two programs that have the same of these types (`SameOn`). It comes to the same on both and leaves them the same (`BuildStep.twins_perform`), and what is kept under other types stays as it was (`BuildStep.sameOn_after`). The resolution of operands looks everywhere and is treated apart.
-/

namespace StubClosure

open Step

namespace Program

/-- The programs have the same of some types: their definitions, and what is kept under the signatures of their members. -/
structure SameOn (within : Set TypeId) (p q : Program) : Prop where
  type : ∀ t ∈ within, q.type? t = p.type? t
  member : ∀ s : Signature, s.owner ∈ within → q.members.find? s = p.members.find? s
  body : ∀ s : Signature, s.owner ∈ within → q.bodies.find? s = p.bodies.find? s

variable {p q r : Program} {within other : Set TypeId}

theorem sameOn_refl (within : Set TypeId) (p : Program) : p.SameOn within p :=
  ⟨fun _ _ => rfl, fun _ _ => rfl, fun _ _ => rfl⟩

theorem SameOn.symm (h : p.SameOn within q) : q.SameOn within p where
  type := fun t ht => (h.type t ht).symm
  member := fun s hs => (h.member s hs).symm
  body := fun s hs => (h.body s hs).symm

theorem SameOn.trans (h : p.SameOn within q) (h' : q.SameOn within r) : p.SameOn within r where
  type := fun t ht => (h'.type t ht).trans (h.type t ht)
  member := fun s hs => (h'.member s hs).trans (h.member s hs)
  body := fun s hs => (h'.body s hs).trans (h.body s hs)

theorem SameOn.mono (h : p.SameOn within q) (hs : other ⊆ within) : p.SameOn other q where
  type := fun t ht => h.type t (hs ht)
  member := fun s ht => h.member s (hs ht)
  body := fun s ht => h.body s (hs ht)

theorem SameOn.union (h : p.SameOn within q) (h' : p.SameOn other q) : p.SameOn (within ∪ other) q where
  type := fun t ht => ht.elim (h.type t) (h'.type t)
  member := fun s ht => ht.elim (h.member s) (h'.member s)
  body := fun s ht => ht.elim (h.body s) (h'.body s)

theorem SameOn.defines (h : p.SameOn within q) {t : TypeId} (ht : t ∈ within) : q.defines t = p.defines t :=
  congrArg Option.isSome (h.type t ht)

/-! ## The same change to both programs -/

theorem SameOn.modifyType (h : p.SameOn within q) (owner : TypeId) (change : TypeDef → TypeDef) :
    (p.modifyType owner change).SameOn within (q.modifyType owner change) := by
  refine ⟨fun t ht => ?_, h.member, h.body⟩
  rw [type?_modifyType, type?_modifyType]
  split
  next he => rw [h.type owner (he ▸ ht)]
  · exact h.type t ht

theorem SameOn.enter (h : p.SameOn within q) (m : Member) : (p.enter m).SameOn within (q.enter m) := by
  refine ⟨h.type, fun s hs => ?_, h.body⟩
  unfold Program.enter
  rw [Table.find?_insert, Table.find?_insert, h.member s hs]

theorem SameOn.setBody (h : p.SameOn within q) (b : Body) : (p.setBody b).SameOn within (q.setBody b) := by
  refine ⟨h.type, h.member, fun s hs => ?_⟩
  rw [find?_setBody, find?_setBody, h.body s hs]

theorem SameOn.define (h : p.SameOn within q) (t : TypeId) (d : TypeDef) :
    (p.define t d).SameOn within (q.define t d) := by
  refine ⟨fun other ho => ?_, h.member, h.body⟩
  rw [type?_define, type?_define, h.type other ho]

theorem SameOn.setMethod (h : p.SameOn within q) (owner : TypeId) (place : Nat) (m : Member) :
    (p.setMethod owner place m).SameOn within (q.setMethod owner place m) := by
  have hentered := (h.modifyType owner fun d => { d with methods := d.methods.set place m }).enter m
  refine ⟨hentered.type, hentered.member, fun s hs => ?_⟩
  rw [find?_bodies_setMethod, find?_bodies_setMethod]
  split
  next he => rw [h.body m.toSignature (he ▸ hs)]
  · exact h.body s hs

theorem SameOn.resolveOperands (h : p.SameOn Set.univ q) : p.resolveOperands.SameOn Set.univ q.resolveOperands := by
  refine ⟨h.type, h.member, fun s hs => ?_⟩
  have hrebind : q.rebind = p.rebind := by
    funext ins
    unfold rebind
    rw [show (fun m : Member => q.members.find? m.toSignature) = fun m : Member => p.members.find? m.toSignature from
      funext fun m => h.member m.toSignature trivial]
  rw [find?_resolveOperands, find?_resolveOperands, h.body s hs, hrebind]

/-! ## A change under another type -/

section
variable {t owner : TypeId}

theorem sameOn_modifyType (ho : owner ∉ within) (change : TypeDef → TypeDef) :
    p.SameOn within (p.modifyType owner change) := by
  refine ⟨fun t ht => ?_, fun _ _ => rfl, fun _ _ => rfl⟩
  rw [type?_modifyType, if_neg]
  rintro rfl
  exact ho ht

theorem sameOn_enter {m : Member} (hm : m.owner ∉ within) : p.SameOn within (p.enter m) := by
  refine ⟨fun _ _ => rfl, fun s hs => ?_, fun _ _ => rfl⟩
  unfold Program.enter
  rw [Table.find?_insert, if_neg]
  rintro rfl
  exact hm hs

theorem sameOn_setBody {b : Body} (hb : b.method.owner ∉ within) : p.SameOn within (p.setBody b) := by
  refine ⟨fun _ _ => rfl, fun _ _ => rfl, fun s hs => ?_⟩
  rw [find?_setBody, if_neg]
  rintro rfl
  exact hb hs

theorem sameOn_define (ht : t ∉ within) (d : TypeDef) : p.SameOn within (p.define t d) := by
  refine ⟨fun other ho => ?_, fun _ _ => rfl, fun _ _ => rfl⟩
  rw [type?_define, if_neg]
  rintro rfl
  exact ht ho

theorem sameOn_setMethod {m : Member} (ho : owner ∉ within) (hm : m.owner ∉ within) (place : Nat) :
    p.SameOn within (p.setMethod owner place m) := by
  have hentered := (sameOn_modifyType (p := p) ho fun d => { d with methods := d.methods.set place m }).trans
    (sameOn_enter hm)
  refine ⟨hentered.type, hentered.member, fun s hs => ?_⟩
  rw [find?_bodies_setMethod, if_neg]
  rintro rfl
  exact hm hs

end

end Program

/-! ## Work on two programs -/

namespace Build

open Program

variable {p q : Program} {within : Set TypeId} {α β : Type}

/-- The works come to the same, and leave programs that have the same of the types. -/
def Twins (within : Set TypeId) (work work' : Build α) (p q : Program) : Prop :=
  (work'.run.run q).1 = (work.run.run p).1 ∧ (work.run.run p).2.SameOn within (work'.run.run q).2

theorem twins_pure (h : p.SameOn within q) (a : α) : Twins within (pure a) (pure a) p q := ⟨rfl, h⟩

theorem twins_throw (h : p.SameOn within q) (e : BuildError) :
    Twins within (throw e : Build α) (throw e) p q := ⟨rfl, h⟩

theorem Twins.bind {work work' : Build α} {next next' : α → Build β} (h : Twins within work work' p q)
    (hn : ∀ a p' q', p'.SameOn within q' → Twins within (next a) (next' a) p' q') :
    Twins within (work >>= next) (work' >>= next') p q := by
  unfold Twins at h ⊢
  rw [run_bind, run_bind]
  rcases hrun : work.run.run p with ⟨outcome, after⟩
  rcases hrun' : work'.run.run q with ⟨outcome', after'⟩
  rw [hrun, hrun'] at h
  obtain ⟨rfl, hsame⟩ := h
  cases outcome' with
  | error e => exact ⟨rfl, hsame⟩
  | ok a => exact hn a after after' hsame

theorem Twins.forget {work work' : Build α} (h : Twins within work work' p q) :
    Twins within (do let _ ← work) (do let _ ← work') p q := by
  apply h.bind
  intro _ p q h
  exact twins_pure h ()

theorem twins_modify {change change' : Program → Program} (h : (change p).SameOn within (change' q)) :
    Twins within (modify change) (modify change') p q := ⟨rfl, h⟩

theorem twins_type (h : p.SameOn within q) (arg : TypeArg) : Twins within (type arg) (type arg) p q := by
  unfold type
  cases arg.resolve with
  | ok t => exact twins_pure h t
  | error e => exact twins_throw h _

theorem twins_mapM_type (h : p.SameOn within q) (args : List TypeArg) :
    Twins within (args.mapM type) (args.mapM type) p q := by
  unfold Twins
  rw [run_mapM_type, run_mapM_type]
  exact ⟨rfl, h⟩

theorem twins_require (h : p.SameOn within q) {owner : TypeId} (ho : owner ∈ within) :
    Twins within (require owner) (require owner) p q := by
  unfold Twins require
  rw [run_get_bind, run_get_bind, h.type owner ho]
  cases p.type? owner with
  | some d => exact twins_pure h d
  | none => exact twins_throw h _

theorem twins_accessor (h : p.SameOn within q) {owner : TypeId} (ho : owner ∈ within) (arg : Option AccessorArg)
    (role : Role) : Twins within (accessor owner arg role) (accessor owner arg role) p q := by
  cases arg with
  | none => exact twins_pure h none
  | some arg =>
    show Except.ok (q.bindAccessor owner arg role).1 = Except.ok (p.bindAccessor owner arg role).1 ∧
      (p.bindAccessor owner arg role).2.SameOn within (q.bindAccessor owner arg role).2
    rw [bindAccessor_eq, bindAccessor_eq, h.type owner ho]
    cases (p.type? owner).bind (·.accessor? arg) with
    | none => exact ⟨rfl, h⟩
    | some found => exact ⟨rfl, h.setMethod owner found.1 _⟩

theorem twins_defineType (h : p.SameOn within q) (t : TypeId) (base : Option TypeArg) (interfaces : List TypeArg)
    (isPublic : Bool) :
    Twins within (defineType t base interfaces isPublic) (defineType t base interfaces isPublic) p q := by
  unfold Twins
  rcases run_defineType_cases t base interfaces isPublic with ⟨-, e, hrun⟩ | ⟨-, found, others, hrun⟩ <;>
    rw [hrun, hrun]
  · exact ⟨rfl, h⟩
  · exact ⟨rfl, h.define t _⟩

theorem twins_giveBody (h : p.SameOn within q) (m : Member) (new : NewMethod) :
    Twins within (giveBody m new) (giveBody m new) p q := by
  unfold giveBody
  cases new.body with
  | none => exact twins_pure h m
  | some instructions =>
    apply (twins_mapM_type h new.locals).bind
    intro locals p' q' h'
    apply (twins_modify (h'.setBody { method := m, instructions, locals })).bind
    intro _ p'' q'' h''
    exact twins_pure h'' m

/-! ## Every step -/

theorem twins_addType (h : p.SameOn within q) {arg : TypeArg}
    (hw : ∀ t, arg.resolve = .ok t → t ∈ within ∧ ∀ outer, t.outer? = some outer → outer ∈ within)
    (base : Option TypeArg) (interfaces : List TypeArg) (isPublic : Bool) :
    Twins within (addType arg base interfaces isPublic) (addType arg base interfaces isPublic) p q := by
  unfold Twins
  rcases arg.isBad_or_exists_resolve with ⟨e, he⟩ | ⟨t, ht⟩
  · rw [addType, run_bind_of_error (run_type_of_error he p), run_bind_of_error (run_type_of_error he q)]
    exact ⟨rfl, h⟩
  · obtain ⟨hin, houter⟩ := hw t ht
    rw [run_addType ht, run_addType ht, h.defines hin]
    split
    · exact ⟨rfl, h⟩
    · cases ho : t.outer? with
      | none => exact twins_defineType h t base interfaces isPublic
      | some outer =>
        dsimp only
        rw [h.defines (houter outer ho)]
        split
        · exact twins_defineType (h.modifyType outer _) t base interfaces isPublic
        · exact ⟨rfl, h⟩

theorem twins_addField (h : p.SameOn within q) {owner : TypeId} (ho : owner ∈ within) (name : String)
    (fieldType : TypeArg) (isStatic : Bool) :
    Twins within (addField owner name fieldType isStatic) (addField owner name fieldType isStatic) p q := by
  unfold addField
  apply (twins_require h ho).bind
  intro _ p q h
  apply (twins_type h fieldType).bind
  intro t p q h
  apply (twins_modify ((h.modifyType owner _).enter _)).bind
  intro _ p q h
  exact twins_pure h _

theorem twins_addMethod (h : p.SameOn within q) {owner : TypeId} (ho : owner ∈ within) (new : NewMethod) :
    Twins within (addMethod owner new) (addMethod owner new) p q := by
  unfold addMethod
  apply (twins_require h ho).bind
  intro _ p q h
  apply (twins_mapM_type h new.params).bind
  intro params p q h
  apply (twins_type h new.returns).bind
  intro returns p q h
  let m : Member := { Member.method owner new.name params returns with
    role := Program.newRole new.name new.isSpecial, isStatic := new.isStatic }
  have hdeclared : Twins within (modify (fun p => p.declare owner m) >>= fun _ => giveBody m new)
      (modify (fun p => p.declare owner m) >>= fun _ => giveBody m new) p q := by
    apply (twins_modify ((h.modifyType owner _).enter m)).bind
    intro _ p q h
    exact twins_giveBody h m new
  unfold Twins
  rw [run_get_bind, run_get_bind]
  dsimp only
  rw [show q.members.contains m.toSignature = p.members.contains m.toSignature from
    congrArg Option.isSome (h.member m.toSignature ho)]
  split
  · exact ⟨rfl, h⟩
  · exact hdeclared

theorem twins_addProperty (h : p.SameOn within q) {owner : TypeId} (ho : owner ∈ within) (name : String)
    (propertyType : TypeArg) (getter setter : Option AccessorArg) :
    Twins within (addProperty owner name propertyType getter setter)
      (addProperty owner name propertyType getter setter) p q := by
  unfold addProperty
  apply (twins_require h ho).bind
  intro _ p q h
  apply (twins_type h propertyType).bind
  intro t p q h
  apply (twins_accessor h ho getter .getter).bind
  intro getter p q h
  apply (twins_accessor h ho setter .setter).bind
  intro setter p q h
  apply (twins_modify ((h.modifyType owner _).enter _)).bind
  intro _ p q h
  exact twins_pure h _

/-! ## What is left alone -/

/-- The work leaves alone what is kept under the types. -/
abbrev EndsSame (within : Set TypeId) (work : Build α) (p : Program) : Prop :=
  Ends work p fun _ after => p.SameOn within after

theorem same_defineType {t : TypeId} (ht : t ∉ within) (base : Option TypeArg) (interfaces : List TypeArg)
    (isPublic : Bool) : EndsSame within (defineType t base interfaces isPublic) p := by
  unfold EndsSame Ends
  rcases run_defineType_cases t base interfaces isPublic with ⟨-, e, hrun⟩ | ⟨-, found, others, hrun⟩ <;> rw [hrun]
  · exact sameOn_refl within p
  · exact sameOn_define ht _

theorem same_addType {arg : TypeArg}
    (hw : ∀ t, arg.resolve = .ok t → t ∉ within ∧ ∀ outer, t.outer? = some outer → outer ∉ within)
    (base : Option TypeArg) (interfaces : List TypeArg) (isPublic : Bool) :
    EndsSame within (addType arg base interfaces isPublic) p := by
  unfold EndsSame Ends
  rcases run_addType_cases p arg base interfaces isPublic with
    ⟨e, hrun⟩ | ⟨t, outer, hadds, hrun⟩ | ⟨t, ht, -, -, hrun⟩ <;> rw [hrun]
  · exact sameOn_refl within p
  · obtain ⟨hin, houter⟩ := hw t hadds.resolves
    have hlisted : p.SameOn within (p.listNested outer t) := sameOn_modifyType (houter outer hadds.isInner) _
    exact hlisted.trans (same_defineType hin base interfaces isPublic)
  · exact same_defineType (hw t ht).1 base interfaces isPublic

theorem same_addField {owner : TypeId} (ho : owner ∉ within) (name : String) (fieldType : TypeArg)
    (isStatic : Bool) : EndsSame within (addField owner name fieldType isStatic) p := by
  unfold addField
  apply (reads_require owner).ends_bind (fun _ => sameOn_refl within p)
  intro _ _
  apply (reads_type fieldType).ends_bind (fun _ => sameOn_refl within p)
  intro t _
  simp only [ends_modify_bind, ends_pure]
  exact (sameOn_modifyType ho _).trans (sameOn_enter ho)

theorem same_addMethod {owner : TypeId} (ho : owner ∉ within) (new : NewMethod) :
    EndsSame within (addMethod owner new) p := by
  unfold EndsSame Ends
  rcases run_addMethod_cases p owner new with ⟨e, hrun⟩ | ⟨m, hadds, -, hrun⟩ <;> rw [hrun]
  · exact sameOn_refl within p
  · have hm : m.owner ∉ within := hadds.makes.owner_eq ▸ ho
    have hdeclared : p.SameOn within (p.declare owner m) := (sameOn_modifyType ho _).trans (sameOn_enter hm)
    rcases run_giveBody_cases m new with ⟨-, e, hgive⟩ | ⟨-, hgive⟩
    · rw [hgive]
      exact hdeclared
    · obtain ⟨q, hgive, rfl | ⟨instructions, locals, -, rfl⟩⟩ := hgive (p.declare owner m) <;> rw [hgive]
      · exact hdeclared
      · exact hdeclared.trans (sameOn_setBody hm)

theorem same_accessor (hp : p.Coherent) {owner : TypeId} (ho : owner ∉ within) (arg : Option AccessorArg)
    (role : Role) : Ends (accessor owner arg role) p fun _ after => p.SameOn within after ∧ after.Coherent := by
  cases arg with
  | none => exact ⟨sameOn_refl within p, hp⟩
  | some arg =>
    show p.SameOn within (p.bindAccessor owner arg role).2 ∧ (p.bindAccessor owner arg role).2.Coherent
    refine ⟨?_, (bindAccessor_spec hp owner arg role).1⟩
    rw [bindAccessor_eq]
    cases hfound : (p.type? owner).bind (·.accessor? arg) with
    | none => exact sameOn_refl within p
    | some found =>
      obtain ⟨place, m⟩ := found
      obtain ⟨d, hd, ha⟩ := Option.bind_eq_some_iff.1 hfound
      have hm : m.owner = owner :=
        (hp.type owner d hd).owner_method m (List.mem_of_getElem? (TypeDef.getElem?_of_accessor? ha))
      apply sameOn_setMethod ho
      rw [show (m.withRole role).owner = m.owner from rfl, hm]
      exact ho

theorem same_addProperty (hp : p.Coherent) {owner : TypeId} (ho : owner ∉ within) (name : String)
    (propertyType : TypeArg) (getter setter : Option AccessorArg) :
    EndsSame within (addProperty owner name propertyType getter setter) p := by
  unfold addProperty
  apply (reads_require owner).ends_bind (fun _ => sameOn_refl within p)
  intro _ _
  apply (reads_type propertyType).ends_bind (fun _ => sameOn_refl within p)
  intro t _
  apply (same_accessor hp ho getter .getter).bind (fun _ _ h => h.1)
  rintro getter q ⟨hq, hcoherent⟩
  apply (same_accessor hcoherent ho setter .setter).bind (fun _ _ h => hq.trans h.1)
  rintro setter r ⟨hr, -⟩
  simp only [ends_modify_bind, ends_pure]
  exact ((hq.trans hr).trans (sameOn_modifyType ho _)).trans (sameOn_enter ho)

end Build

namespace BuildStep

open Program

variable {p q : Program} {within : Set TypeId}

/-- The step looks at the given types alone. -/
def Within (within : Set TypeId) : BuildStep → Prop
  | type arg _ _ _ => ∀ t, arg.resolve = .ok t → t ∈ within ∧ ∀ outer, t.outer? = some outer → outer ∈ within
  | field owner .. | method owner _ | property owner .. => owner ∈ within
  | operands => False

theorem Within.mono {other : Set TypeId} {step : BuildStep} (hw : step.Within within) (hs : within ⊆ other) :
    step.Within other := by
  cases step with
  | type arg base interfaces isPublic => exact fun t ht => ⟨hs (hw t ht).1, fun outer ho => hs ((hw t ht).2 outer ho)⟩
  | field owner name fieldType isStatic => exact hs hw
  | method owner new => exact hs hw
  | property owner name propertyType getter setter => exact hs hw
  | operands => exact hw

/-- **A step depends on the types alone that it looks at.** Made on programs that have the same of these, it comes to the same and leaves the same of them. -/
theorem twins_perform {step : BuildStep} (hw : step.Within within) (h : p.SameOn within q) :
    step.outcome q = step.outcome p ∧ (step.after p).SameOn within (step.after q) := by
  have htwins : Build.Twins within step.perform step.perform p q := by
    cases step with
    | type arg base interfaces isPublic => exact (Build.twins_addType h hw base interfaces isPublic).forget
    | field owner name fieldType isStatic => exact (Build.twins_addField h hw name fieldType isStatic).forget
    | method owner new => exact (Build.twins_addMethod h hw new).forget
    | property owner name propertyType getter setter =>
      exact (Build.twins_addProperty h hw name propertyType getter setter).forget
    | operands => exact hw.elim
  exact htwins

/-- **A step leaves alone what it does not look at.** -/
theorem sameOn_after (hp : p.Coherent) {step : BuildStep} (hw : step.Within within) :
    p.SameOn withinᶜ (step.after p) := by
  have hnot : ∀ {t : TypeId}, t ∈ within → t ∉ withinᶜ := fun h hn => hn h
  change Ends step.perform p fun _ after => p.SameOn withinᶜ after
  cases step with
  | type arg base interfaces isPublic =>
    apply Ends.forget
    apply Build.same_addType
    intro t ht
    exact ⟨hnot (hw t ht).1, fun outer ho => hnot ((hw t ht).2 outer ho)⟩
  | field owner name fieldType isStatic => exact Ends.forget (Build.same_addField (hnot hw) name fieldType isStatic)
  | method owner new => exact Ends.forget (Build.same_addMethod (hnot hw) new)
  | property owner name propertyType getter setter =>
    exact Ends.forget (Build.same_addProperty hp (hnot hw) name propertyType getter setter)
  | operands => exact hw.elim

theorem sameOn_foldl (hp : p.Coherent) {steps : List BuildStep} (hw : ∀ step ∈ steps, step.Within within) :
    p.SameOn withinᶜ (steps.foldl (fun p step => step.after p) p) := by
  induction steps generalizing p with
  | nil => exact sameOn_refl _ p
  | cons step rest ih =>
    have hfirst := sameOn_after hp (hw step List.mem_cons_self)
    exact hfirst.trans (ih (step.coherent_after hp) fun other ho => hw other (List.mem_cons_of_mem _ ho))

theorem mem_of_defines_build {steps : List BuildStep} (hw : ∀ step ∈ steps, step.Within within) (name : String)
    {t : TypeId} (h : (build name steps).defines t = true) : t ∈ within := by
  by_contra ht
  have hsame := (sameOn_foldl (coherent_new name) hw).defines ht
  cases h.symm.trans hsame

end BuildStep

end StubClosure
