import StubClosure.Proofs.Program.Outcome

/-!
# Built programs

A program is built from an empty one by steps in any number and order: types, fields, methods and properties are added, and operands are resolved. A step may fail and leave behind what it did before failing; building goes on from there. `Built` says that a program comes about in this way, and `Built.coherent` that it is then coherent.
-/

namespace StubClosure

/-- A step of building, with what it is given. -/
inductive BuildStep where
  | type (arg : TypeArg) (base : Option TypeArg) (interfaces : List TypeArg) (isPublic : Bool)
  | field (owner : TypeId) (name : String) (fieldType : TypeArg) (isStatic : Bool)
  | method (owner : TypeId) (new : Build.NewMethod)
  | property (owner : TypeId) (name : String) (propertyType : TypeArg) (getter setter : Option AccessorArg)
  | operands

namespace BuildStep

def perform : BuildStep → Build Unit
  | type arg base interfaces isPublic => do let _ ← Build.addType arg base interfaces isPublic
  | field owner name fieldType isStatic => do let _ ← Build.addField owner name fieldType isStatic
  | method owner new => do let _ ← Build.addMethod owner new
  | property owner name propertyType getter setter => do
    let _ ← Build.addProperty owner name propertyType getter setter
  | operands => modify Program.resolveOperands

/-- What the step comes to. -/
def outcome (step : BuildStep) (p : Program) : Except BuildError Unit := (step.perform.run.run p).1

/-- The program that the step leaves, whether it fails or not. -/
def after (step : BuildStep) (p : Program) : Program := (step.perform.run.run p).2

end BuildStep

namespace Program

/-- The program that steps lead to, one after the other. -/
def build (name : String) (steps : List BuildStep) : Program := steps.foldl (fun p step => step.after p) { name }

/-- The program comes about by steps of building. -/
inductive Built : Program → Prop where
  | new (name : String) : Built { name }
  | step {p : Program} (hp : Built p) (step : BuildStep) : Built (step.after p)

theorem built_build (name : String) (steps : List BuildStep) : Built (build name steps) := by
  suffices h : ∀ p, Built p → Built (steps.foldl (fun p step => step.after p) p) from h _ (.new name)
  intro p hp
  induction steps generalizing p with
  | nil => exact hp
  | cons step rest ih => exact ih _ (hp.step step)

/-! ## What binding an accessor does -/

end Program

/-- The first method of a type that fits, with its place among the methods. -/
def TypeDef.accessor? (d : TypeDef) (accessor : AccessorArg) : Option (Nat × Member) :=
  (d.methods.findIdx? accessor.fits).bind fun place => d.methods[place]?.map (place, ·)

theorem TypeDef.getElem?_of_accessor? {d : TypeDef} {accessor : AccessorArg} {place : Nat} {m : Member}
    (h : d.accessor? accessor = some (place, m)) : d.methods[place]? = some m := by
  obtain ⟨i, -, h⟩ := Option.bind_eq_some_iff.1 h
  obtain ⟨other, hother, heq⟩ := Option.map_eq_some_iff.1 h
  obtain ⟨rfl, rfl⟩ := Prod.mk.inj heq
  exact hother

namespace Program

/-- A method takes the place of the one that has its signature: among the methods of its type, in the table of members, and in the body, if there is one. -/
def setMethod (p : Program) (owner : TypeId) (place : Nat) (m : Member) : Program :=
  { (p.modifyType owner fun d => { d with methods := d.methods.set place m }).enter m with
    bodies := p.bodies.modify m.toSignature fun b => { b with method := m } }

/-- **Binding an accessor** puts the method that fits first in its own place, with its new role. -/
theorem bindAccessor_eq (p : Program) (owner : TypeId) (accessor : AccessorArg) (role : Role) :
    p.bindAccessor owner accessor role =
      match (p.type? owner).bind (·.accessor? accessor) with
      | none => (none, p)
      | some (place, m) => (some (m.withRole role), p.setMethod owner place (m.withRole role)) := by
  unfold bindAccessor TypeDef.accessor?
  cases hd : p.type? owner with
  | none => rfl
  | some d =>
    simp only [Option.bind_some]
    cases hi : d.methods.findIdx? accessor.fits with
    | none => rfl
    | some place =>
      simp only [Option.bind_some]
      cases hm : d.methods[place]? with
      | none => rfl
      | some m =>
        simp only [Option.map_some, setMethod, Table.modify, Member.toSignature_withRole]
        cases hb : p.bodies.find? m.toSignature with
        | none => simp [body?, hb, enter, modifyType]
        | some b => simp [body?, hb, enter, modifyType, setBody]

theorem find?_bodies_setMethod (p : Program) (owner : TypeId) (place : Nat) (m : Member) (s : Signature) :
    (p.setMethod owner place m).bodies.find? s =
      if s = m.toSignature then (p.bodies.find? m.toSignature).map fun b => { b with method := m }
      else p.bodies.find? s :=
  Table.find?_modify p.bodies m.toSignature _ s

end Program

namespace TypeDef

theorem declares_set {d : TypeDef} {place : Nat} {m : Member} (hm : d.methods[place]? = some m) (role : Role)
    {s : Signature} (h : d.Declares s) : Declares { d with methods := d.methods.set place (m.withRole role) } s := by
  obtain ⟨other, hmem, rfl⟩ := h
  obtain ⟨i, hi⟩ := List.mem_iff_getElem?.1 hmem
  by_cases he : place = i
  · subst he
    obtain rfl : m = other := Option.some.inj (hm.symm.trans hi)
    exact ⟨m.withRole role, List.mem_set (List.getElem?_eq_some_iff.1 hm).1 _, rfl⟩
  · exact ⟨other, List.mem_iff_getElem?.2 ⟨i, by rw [List.getElem?_set_ne he]; exact hi⟩, rfl⟩

theorem Coherent.setMethod {t : TypeId} {d : TypeDef} (hd : d.Coherent t) {place : Nat} {m : Member}
    (hm : d.methods[place]? = some m) (role : Role) :
    Coherent t { d with methods := d.methods.set place (m.withRole role) } where
  id_eq := hd.id_eq
  owner_method := by
    intro other hmem
    rcases List.mem_or_eq_of_mem_set hmem with hmem | rfl
    · exact hd.owner_method other hmem
    · exact hd.owner_method m (List.mem_of_getElem? hm)
  owner_property := hd.owner_property
  getter_declared := fun row hrow g hg => declares_set hm role (hd.getter_declared row hrow g hg)
  setter_declared := fun row hrow g hg => declares_set hm role (hd.setter_declared row hrow g hg)
  outer_nested := hd.outer_nested

theorem Coherent.addMethod {t : TypeId} {d : TypeDef} (hd : d.Coherent t) {m : Member} (hm : m.owner = t) :
    Coherent t { d with methods := d.methods ++ [m] } where
  id_eq := hd.id_eq
  owner_method := by
    intro other hmem
    rcases List.mem_append.1 hmem with hmem | hmem
    · exact hd.owner_method other hmem
    · rw [List.mem_singleton.1 hmem]
      exact hm
  owner_property := hd.owner_property
  getter_declared := fun row hrow g hg =>
    (hd.getter_declared row hrow g hg).imp fun _ h => ⟨List.mem_append_left _ h.1, h.2⟩
  setter_declared := fun row hrow g hg =>
    (hd.setter_declared row hrow g hg).imp fun _ h => ⟨List.mem_append_left _ h.1, h.2⟩
  outer_nested := hd.outer_nested

theorem Coherent.addProperty {t : TypeId} {d : TypeDef} (hd : d.Coherent t) {row : Property}
    (hr : row.ref.owner = t) (hg : ∀ m ∈ row.getter, d.Declares m.toSignature)
    (hs : ∀ m ∈ row.setter, d.Declares m.toSignature) :
    Coherent t { d with properties := d.properties ++ [row] } where
  id_eq := hd.id_eq
  owner_method := hd.owner_method
  owner_property := by
    intro other hmem
    rcases List.mem_append.1 hmem with hmem | hmem
    · exact hd.owner_property other hmem
    · rw [List.mem_singleton.1 hmem]
      exact hr
  getter_declared := by
    intro other hmem m hm
    rcases List.mem_append.1 hmem with hmem | hmem
    · exact hd.getter_declared other hmem m hm
    · rw [List.mem_singleton.1 hmem] at hm
      exact hg m hm
  setter_declared := by
    intro other hmem m hm
    rcases List.mem_append.1 hmem with hmem | hmem
    · exact hd.setter_declared other hmem m hm
    · rw [List.mem_singleton.1 hmem] at hm
      exact hs m hm
  outer_nested := hd.outer_nested

theorem Coherent.addNested {t inner : TypeId} {d : TypeDef} (hd : d.Coherent t) (hi : inner.outer? = some t) :
    Coherent t { d with nested := d.nested ++ [inner] } where
  id_eq := hd.id_eq
  owner_method := hd.owner_method
  owner_property := hd.owner_property
  getter_declared := hd.getter_declared
  setter_declared := hd.setter_declared
  outer_nested := by
    intro other hmem
    rcases List.mem_append.1 hmem with hmem | hmem
    · exact hd.outer_nested other hmem
    · rw [List.mem_singleton.1 hmem]
      exact hi

theorem coherent_new (t : TypeId) (base : Option TypeId) (interfaces : List TypeId) (isPublic : Bool) :
    Coherent t { id := t, base, interfaces, isPublic } where
  id_eq := rfl
  owner_method := by simp
  owner_property := by simp
  getter_declared := by simp
  setter_declared := by simp
  outer_nested := by simp

end TypeDef

namespace Program

variable {p : Program}

theorem declares_of_type? {owner : TypeId} {d : TypeDef} {s : Signature} (hd : p.type? owner = some d)
    (h : p.Declares owner s) : d.Declares s := by
  obtain ⟨d', hd', hs⟩ := h
  rw [hd] at hd'
  exact Option.some.inj hd' ▸ hs

theorem declares_modifyType {owner : TypeId} {change : TypeDef → TypeDef} {t : TypeId} {s : Signature}
    (hc : ∀ d, p.type? owner = some d → d.Declares s → (change d).Declares s) (h : p.Declares t s) :
    (p.modifyType owner change).Declares t s := by
  obtain ⟨d, hd, hs⟩ := h
  by_cases he : t = owner
  · subst he
    exact ⟨change d, by rw [type?_modifyType, if_pos rfl, hd]; rfl, hc d hd hs⟩
  · exact ⟨d, by rw [type?_modifyType, if_neg he, hd], hs⟩

theorem Coherent.setMethod (hp : p.Coherent) {owner : TypeId} {d : TypeDef} {place : Nat} {m : Member}
    (hd : p.type? owner = some d) (hm : d.methods[place]? = some m) (role : Role) :
    (p.setMethod owner place (m.withRole role)).Coherent := by
  have hmodified : (p.modifyType owner fun d => { d with methods := d.methods.set place (m.withRole role) }).Coherent := by
    apply hp.modifyType
    · intro d' hd' hc
      obtain rfl : d = d' := Option.some.inj (hd.symm.trans hd')
      exact hc.setMethod hm role
    · exact fun d => List.Subset.refl _
  have hentered := hmodified.enter (m.withRole role)
  refine ⟨hentered.type, hentered.nested, fun key b hb => ?_⟩
  rw [find?_bodies_setMethod] at hb
  split at hb
  next hk =>
    obtain ⟨b', -, rfl⟩ := Option.map_eq_some_iff.1 hb
    exact hk.symm
  · exact hp.body key b hb

theorem declares_setMethod {owner : TypeId} {d : TypeDef} {place : Nat} {m : Member} (hd : p.type? owner = some d)
    (hm : d.methods[place]? = some m) (role : Role) {t : TypeId} {s : Signature} (h : p.Declares t s) :
    (p.setMethod owner place (m.withRole role)).Declares t s := by
  have hkept : (p.modifyType owner fun d => { d with methods := d.methods.set place (m.withRole role) }).Declares t s := by
    refine declares_modifyType ?_ h
    intro d' hd' hs
    obtain rfl : d = d' := Option.some.inj (hd.symm.trans hd')
    exact TypeDef.declares_set hm role hs
  exact hkept

/-- Binding an accessor keeps the program coherent and every declared signature declared, and what it binds is declared. -/
theorem bindAccessor_spec (hp : p.Coherent) (owner : TypeId) (accessor : AccessorArg) (role : Role) :
    (p.bindAccessor owner accessor role).2.Coherent ∧
      (∀ t s, p.Declares t s → (p.bindAccessor owner accessor role).2.Declares t s) ∧
      ∀ m, (p.bindAccessor owner accessor role).1 = some m →
        (p.bindAccessor owner accessor role).2.Declares owner m.toSignature := by
  rw [bindAccessor_eq]
  cases hfound : (p.type? owner).bind (·.accessor? accessor) with
  | none => exact ⟨hp, fun t s h => h, fun m h => by cases h⟩
  | some found =>
    obtain ⟨place, m⟩ := found
    obtain ⟨d, hd, ha⟩ := Option.bind_eq_some_iff.1 hfound
    have hm := TypeDef.getElem?_of_accessor? ha
    refine ⟨hp.setMethod hd hm role, fun t s h => declares_setMethod hd hm role h, fun bound h => ?_⟩
    obtain rfl := Option.some.inj h
    exact declares_setMethod hd hm role ⟨d, hd, m, List.mem_of_getElem? hm, rfl⟩

theorem Coherent.resolveOperands (hp : p.Coherent) : p.resolveOperands.Coherent := by
  refine ⟨hp.type, hp.nested, ?_⟩
  intro key b h
  obtain ⟨b', hb', rfl⟩ : ∃ b', p.bodies.find? key = some b' ∧
      b = { b' with instructions := b'.instructions.map p.rebind } := by
    replace h : (p.bodies.entries.map fun entry =>
      (entry.1, { entry.2 with instructions := entry.2.instructions.map p.rebind })).lookup key = some b := h
    show ∃ b', p.bodies.entries.lookup key = some b' ∧ _
    generalize p.bodies.entries = entries at h
    induction entries with
    | nil => cases h
    | cons entry rest ih =>
      rw [List.map_cons, Table.lookup_entry] at h
      rw [Table.lookup_entry]
      by_cases he : key = entry.1
      · rw [if_pos he] at h ⊢
        exact ⟨entry.2, rfl, (Option.some.inj h).symm⟩
      · rw [if_neg he] at h ⊢
        exact ih h
  exact hp.body key b' hb'

end Program

/-! ## Every step keeps a program coherent -/

namespace Build

open Step

variable {p : Program}

/-- The state after a step is a coherent program, whatever the step comes to. -/
abbrev EndsCoherent {α : Type} (work : Build α) (p : Program) : Prop := Ends work p fun _ after => after.Coherent

theorem coherent_defineType (hp : p.Coherent) {t : TypeId} (hnew : p.defines t = false)
    (ho : ∀ outer, t.outer? = some outer → p.defines outer = true ∧ t ∈ p.nestedOf outer) (base : Option TypeArg)
    (interfaces : List TypeArg) (isPublic : Bool) : EndsCoherent (defineType t base interfaces isPublic) p := by
  unfold EndsCoherent Ends
  rcases run_defineType_cases t base interfaces isPublic with ⟨-, e, hrun⟩ | ⟨-, found, others, hrun⟩
  · rw [hrun]
    exact hp
  · rw [hrun]
    exact hp.insertType _ hnew ho (TypeDef.coherent_new t found others isPublic)

theorem coherent_addType (hp : p.Coherent) (arg : TypeArg) (base : Option TypeArg) (interfaces : List TypeArg)
    (isPublic : Bool) : EndsCoherent (addType arg base interfaces isPublic) p := by
  unfold EndsCoherent Ends
  rcases run_addType_cases p arg base interfaces isPublic with
    ⟨e, hrun⟩ | ⟨t, outer, hadds, hrun⟩ | ⟨t, -, hnew, ho, hrun⟩
  · rw [hrun]
    exact hp
  · rw [hrun]
    have hlisted : (p.listNested outer t).Coherent :=
      hp.modifyType (fun d _ hd => hd.addNested hadds.isInner) fun d => List.subset_append_left _ _
    apply coherent_defineType hlisted hadds.listNested.isNew
    intro other hother
    obtain rfl : outer = other := Option.some.inj (hadds.isInner.symm.trans hother)
    rw [Program.nestedOf_listNested hadds.around]
    exact ⟨hadds.listNested.around, by simp⟩
  · rw [hrun]
    apply coherent_defineType hp hnew
    intro outer hother
    cases ho.symm.trans hother

theorem coherent_addField (hp : p.Coherent) (owner : TypeId) (name : String) (fieldType : TypeArg)
    (isStatic : Bool) : EndsCoherent (addField owner name fieldType isStatic) p := by
  unfold addField
  refine (reads_require owner).ends_bind (fun _ => hp) fun _ _ => ?_
  refine (reads_type fieldType).ends_bind (fun _ => hp) fun t _ => ?_
  simp only [ends_modify_bind, ends_pure]
  refine Program.Coherent.enter (hp.modifyType ?_ ?_) _
  · exact fun d _ hd => { hd with }
  · exact fun d => List.Subset.refl _

theorem coherent_addMethod (hp : p.Coherent) (owner : TypeId) (new : NewMethod) :
    EndsCoherent (addMethod owner new) p := by
  unfold EndsCoherent Ends
  rcases run_addMethod_cases p owner new with ⟨e, hrun⟩ | ⟨m, hadds, -, hrun⟩
  · rw [hrun]
    exact hp
  · have hdeclared : (p.declare owner m).Coherent :=
      (hp.modifyType (fun d _ hd => hd.addMethod hadds.makes.owner_eq) fun d => List.Subset.refl _).enter m
    rcases run_giveBody_cases m new with ⟨-, e, hgive⟩ | ⟨-, hgive⟩
    · rw [hrun, hgive]
      exact hdeclared
    · obtain ⟨q, hgive, rfl | ⟨instructions, locals, -, rfl⟩⟩ := hgive (p.declare owner m)
      · rw [hrun, hgive]
        exact hdeclared
      · rw [hrun, hgive]
        exact hdeclared.setBody _

theorem ends_accessor (hp : p.Coherent) (owner : TypeId) (arg : Option AccessorArg) (role : Role) :
    Ends (accessor owner arg role) p fun outcome after =>
      after.Coherent ∧ (∀ t s, p.Declares t s → after.Declares t s) ∧
        ∃ bound : Option Member, outcome = .ok bound ∧ ∀ m ∈ bound, after.Declares owner m.toSignature := by
  cases arg with
  | none => exact ⟨hp, fun t s h => h, none, rfl, by simp⟩
  | some arg =>
    obtain ⟨hc, hd, hb⟩ := Program.bindAccessor_spec hp owner arg role
    exact ⟨hc, hd, _, rfl, hb⟩

theorem coherent_addProperty (hp : p.Coherent) (owner : TypeId) (name : String) (propertyType : TypeArg)
    (getter setter : Option AccessorArg) : EndsCoherent (addProperty owner name propertyType getter setter) p := by
  unfold addProperty
  refine (reads_require owner).ends_bind (fun _ => hp) fun _ _ => ?_
  refine (reads_type propertyType).ends_bind (fun _ => hp) fun t _ => ?_
  refine (ends_accessor hp owner getter .getter).bind (fun e q h => h.1) ?_
  rintro _ q ⟨hq, -, getter, h, hg⟩
  obtain rfl := Except.ok.inj h
  refine (ends_accessor hq owner setter .setter).bind (fun e r h => h.1) ?_
  rintro _ r ⟨hr, hkeep, setter, h, hs⟩
  obtain rfl := Except.ok.inj h
  simp only [ends_modify_bind, ends_pure]
  refine Program.Coherent.enter (hr.modifyType ?_ ?_) _
  · intro d hd hc
    refine hc.addProperty rfl ?_ ?_
    · intro m hm
      exact Program.declares_of_type? hd (hkeep owner _ (hg m hm))
    · intro m hm
      exact Program.declares_of_type? hd (hs m hm)
  · exact fun d => List.Subset.refl _

end Build

namespace BuildStep

theorem coherent_after {p : Program} (hp : p.Coherent) (step : BuildStep) : (step.after p).Coherent := by
  change Step.Ends step.perform p fun _ after => after.Coherent
  cases step with
  | type arg base interfaces isPublic => exact Step.Ends.forget (Build.coherent_addType hp arg base interfaces isPublic)
  | field owner name fieldType isStatic => exact Step.Ends.forget (Build.coherent_addField hp owner name fieldType isStatic)
  | method owner new => exact Step.Ends.forget (Build.coherent_addMethod hp owner new)
  | property owner name propertyType getter setter =>
    exact Step.Ends.forget (Build.coherent_addProperty hp owner name propertyType getter setter)
  | operands => exact hp.resolveOperands

end BuildStep

namespace Program

/-- **Built programs are coherent.** -/
theorem Built.coherent {p : Program} (hp : Built p) : p.Coherent := by
  induction hp with
  | new name => exact coherent_new name
  | step _ step ih => exact step.coherent_after ih

end Program

/-! ## A program -/

namespace Zoo

def foo : TypeId := .top "" "Foo" 0

def animal : TypeId := .top "" "Animal" 0

def dog : TypeId := .top "" "Dog" 0

def speak : Member := .method animal "Speak" [foo] .void

/-- `Animal.Speak` is called on a local and given `this`. -/
def callSpeak : Instruction where
  offset := 2
  category := .virtualCall
  mnemonic := "callvirt"
  operand := some (.member speak)
  pushes := false

/-- The body of `Foo.Make`, with a local that is a `Dog`. -/
def make : Body where
  method := .method foo "Make" [] .void
  instructions :=
    [{ offset := 0, category := .loadLocal, mnemonic := "ldloc.0", operand := some (.number 0) },
     { offset := 1, category := .loadArg, mnemonic := "ldarg.0", operand := some (.number 0) }, callSpeak]
  locals := [dog]

def steps : List BuildStep :=
  [.type (.id foo) none [] true, .type (.id animal) none [] true, .type (.id dog) (some (.id animal)) [] true,
   .method animal { name := "Speak", params := [.id foo] }, .method dog { name := "Speak", params := [.id foo] },
   .method foo { name := "Make", body := some make.instructions, locals := [.id dog] }]

/-- A program in which `Foo` hands itself to an `Animal` that is a `Dog`. -/
def program : Program := .build "zoo" steps

theorem built : program.Built := Program.built_build _ _

theorem bodiesOf_foo : program.bodiesOf foo = [make] := by decide

end Zoo

end StubClosure
