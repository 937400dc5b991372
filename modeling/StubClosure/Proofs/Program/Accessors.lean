import StubClosure.Reference
import StubClosure.Proofs.Program.Operands

/-!
# Accessors

A method becomes an accessor by being named by a property: it is given the role, and the property keeps it in the slot of that role. The property itself is listed last, after both slots are filled, and a method may be named again, in the other role or by a further property. At the end of each step, though, every method with the role of an accessor stands in the slot of that role, in some property of its type (`Built.slotted`): the role that it has is the one that was given last, and no slot is ever emptied.

Within the step that adds a property this does not hold. There the property that is being put together has to be counted in, as a row that is still to be listed (`SlottedBut`).
-/

namespace StubClosure

open Step

/-- A getter or a setter. -/
def Role.IsAccessor (role : Role) : Prop := role = .getter ∨ role = .setter

theorem Role.eq_special_iff {role : Role} :
    role = .special ↔ ¬ role.IsAccessor ∧ role ≠ .ordinary ∧ role ≠ .constructor := by
  unfold IsAccessor
  cases role <;> simp

/-- The property has the method of a signature in the slot of a role. -/
def Property.Holds (row : Property) (role : Role) (s : Signature) : Prop := ∃ m ∈ row.slot? role, m.toSignature = s

/-- Each accessor among the methods stands in the slot of its role in one of the rows. -/
def AllSlotted (methods : List Member) (rows : List Property) : Prop :=
  ∀ m ∈ methods, m.role.IsAccessor → ∃ row ∈ rows, row.Holds m.role m.toSignature

namespace Program

/-- Each accessor stands in the slot of its role in a property of its type. -/
def Slotted (p : Program) : Prop := ∀ t, AllSlotted (p.methodsOf t) (p.propertiesOf t)

/-- Each accessor stands in the slot of its role in a property of its type; for one type, a row that is not listed is counted in. -/
def SlottedBut (p : Program) (owner : TypeId) (row : Property) : Prop :=
  ∀ t, AllSlotted (p.methodsOf t) (p.propertiesOf t ++ if t = owner then [row] else [])

variable {p q : Program} {owner t : TypeId} {row : Property} {m : Member}

theorem not_isAccessor_newRole (name : String) (isSpecial : Bool) : ¬ (newRole name isSpecial).IsAccessor := by
  unfold newRole Role.IsAccessor
  split
  · simp
  · split <;> simp

theorem propertiesOf_of_not_defines (h : p.defines t = false) : p.propertiesOf t = [] := by
  unfold propertiesOf
  rw [show p.type? t = none from Option.not_isSome_iff_eq_none.1 (Bool.eq_false_iff.1 h)]
  rfl

theorem propertiesOf_modifyType {change : TypeDef → TypeDef} (hc : ∀ d, (change d).properties = d.properties) :
    (p.modifyType owner change).propertiesOf t = p.propertiesOf t := by
  unfold propertiesOf
  rw [type?_modifyType]
  split
  next he =>
    rw [he, Option.map_map, show TypeDef.properties ∘ change = TypeDef.properties from funext hc]
  · rfl

theorem propertiesOf_addRow (hd : p.defines owner = true) (row : Property) (t : TypeId) :
    (p.modifyType owner fun d => { d with properties := d.properties ++ [row] }).propertiesOf t =
      p.propertiesOf t ++ if t = owner then [row] else [] := by
  obtain ⟨d, hd⟩ := exists_type?_of_defines hd
  unfold propertiesOf
  rw [type?_modifyType]
  split
  next he => simp [he, hd]
  · simp

/-! ## Changes -/

theorem slotted_new (name : String) : Slotted { name } := by
  intro t m hm
  cases hm

theorem Slotted.keep (hp : p.Slotted) (hm : ∀ t, ∀ m ∈ q.methodsOf t, m ∈ p.methodsOf t ∨ ¬ m.role.IsAccessor)
    (hrows : ∀ t, p.propertiesOf t ⊆ q.propertiesOf t) : q.Slotted := by
  intro t m hmem hrole
  have hold : m ∈ p.methodsOf t := (hm t m hmem).resolve_right (not_not_intro hrole)
  obtain ⟨row, hrow, hholds⟩ := hp t m hold hrole
  exact ⟨row, hrows t hrow, hholds⟩

theorem Slotted.modifyType (hp : p.Slotted) {change : TypeDef → TypeDef} (hm : ∀ d, (change d).methods = d.methods)
    (hrows : ∀ d, (change d).properties = d.properties) : (p.modifyType owner change).Slotted := by
  apply hp.keep
  · intro t m hmem
    rw [methodsOf_modifyType hm] at hmem
    exact .inl hmem
  · intro t
    rw [propertiesOf_modifyType hrows]
    exact List.Subset.refl _

theorem Slotted.define (hp : p.Slotted) (hnew : p.defines t = false) {d : TypeDef} (hd : d.methods = []) :
    (p.define t d).Slotted := by
  apply hp.keep
  · intro other m hmem
    rw [methodsOf_define hnew hd] at hmem
    exact .inl hmem
  · intro other
    by_cases he : other = t
    · simp [he, propertiesOf_of_not_defines hnew]
    · unfold propertiesOf
      rw [type?_define, if_neg he]
      exact List.Subset.refl _

theorem Slotted.declare (hp : p.Slotted) (hd : p.defines owner = true) (hm : ¬ m.role.IsAccessor) :
    (p.declare owner m).Slotted := by
  apply hp.keep
  · intro t other hmem
    rcases (mem_methodsOf_declare hd).1 hmem with hmem | ⟨-, rfl⟩
    · exact .inl hmem
    · exact .inr hm
  · intro t
    rw [show (p.declare owner m).propertiesOf t = p.propertiesOf t from propertiesOf_modifyType fun _ => rfl]
    exact List.Subset.refl _

/-! ## A property in the making -/

theorem Slotted.but (hp : p.Slotted) (owner : TypeId) (row : Property) : p.SlottedBut owner row := by
  intro t m hm hrole
  obtain ⟨row, hrow, hholds⟩ := hp t m hm hrole
  exact ⟨row, List.mem_append_left _ hrow, hholds⟩

theorem SlottedBut.mono (hp : p.SlottedBut owner row) {fuller : Property}
    (h : ∀ role s, row.Holds role s → fuller.Holds role s) : p.SlottedBut owner fuller := by
  intro t m hm hrole
  obtain ⟨found, hfound, hholds⟩ := hp t m hm hrole
  rcases List.mem_append.1 hfound with hfound | hfound
  · exact ⟨found, List.mem_append_left _ hfound, hholds⟩
  · split at hfound
    · rw [List.mem_singleton.1 hfound] at hholds
      exact ⟨fuller, by simp [*], h _ _ hholds⟩
    · cases hfound

theorem SlottedBut.setMethod (hp : p.SlottedBut owner row) {d : TypeDef} {place : Nat} {role : Role}
    (hd : p.type? owner = some d) (hrow : row.slot? role = some (m.withRole role)) :
    (p.setMethod owner place (m.withRole role)).SlottedBut owner row := by
  intro t other hother hrole
  rw [show (p.setMethod owner place (m.withRole role)).propertiesOf t = p.propertiesOf t from
    propertiesOf_modifyType fun _ => rfl]
  rw [methodsOf_setMethod hd] at hother
  split at hother
  next he =>
    subst he
    rcases List.mem_or_eq_of_mem_set hother with hother | rfl
    · simpa using hp t other hother hrole
    · exact ⟨row, by simp, _, hrow, rfl⟩
  next he => simpa [he] using hp t other hother hrole

theorem SlottedBut.list (hp : p.SlottedBut owner row) (hd : p.defines owner = true) :
    (p.modifyType owner fun d => { d with properties := d.properties ++ [row] }).Slotted := by
  intro t
  rw [propertiesOf_addRow hd, methodsOf_modifyType]
  · exact hp t
  · exact fun _ => rfl

end Program

/-! ## Every step -/

namespace Build

variable {p : Program}

/-- Whatever the work comes to, accessors stand in their slots after it. -/
abbrev EndsSlotted {α : Type} (work : Build α) (p : Program) : Prop := Ends work p fun _ after => after.Slotted

theorem slotted_defineType (hp : p.Slotted) {t : TypeId} (hnew : p.defines t = false) (base : Option TypeArg)
    (interfaces : List TypeArg) (isPublic : Bool) : EndsSlotted (defineType t base interfaces isPublic) p := by
  unfold EndsSlotted Ends
  rcases run_defineType_cases t base interfaces isPublic with ⟨-, e, hrun⟩ | ⟨-, found, others, hrun⟩
  · rw [hrun]
    exact hp
  · rw [hrun]
    exact hp.define hnew rfl

theorem slotted_addType (hp : p.Slotted) (arg : TypeArg) (base : Option TypeArg) (interfaces : List TypeArg)
    (isPublic : Bool) : EndsSlotted (addType arg base interfaces isPublic) p := by
  unfold EndsSlotted Ends
  rcases run_addType_cases p arg base interfaces isPublic with
    ⟨e, hrun⟩ | ⟨t, outer, hadds, hrun⟩ | ⟨t, -, hnew, -, hrun⟩
  · rw [hrun]
    exact hp
  · have hlisted : (p.listNested outer t).Slotted := hp.modifyType (fun _ => rfl) fun _ => rfl
    rw [hrun]
    exact slotted_defineType hlisted hadds.listNested.isNew base interfaces isPublic
  · rw [hrun]
    exact slotted_defineType hp hnew base interfaces isPublic

theorem slotted_addField (hp : p.Slotted) (owner : TypeId) (name : String) (fieldType : TypeArg) (isStatic : Bool) :
    EndsSlotted (addField owner name fieldType isStatic) p := by
  unfold addField
  refine (reads_require owner).ends_bind (fun _ => hp) fun _ howner => ?_
  refine (reads_type fieldType).ends_bind (fun _ => hp) fun t _ => ?_
  simp only [ends_modify_bind, ends_pure]
  exact hp.modifyType (fun _ => rfl) fun _ => rfl

theorem slotted_addMethod (hp : p.Slotted) (owner : TypeId) (new : NewMethod) : EndsSlotted (addMethod owner new) p := by
  unfold EndsSlotted Ends
  rcases run_addMethod_cases p owner new with ⟨e, hrun⟩ | ⟨m, hadds, -, hrun⟩
  · rw [hrun]
    exact hp
  · have hrole : ¬ m.role.IsAccessor := by
      obtain ⟨params, returns, -, -, rfl⟩ := hadds.makes
      exact Program.not_isAccessor_newRole new.name new.isSpecial
    have hdeclared : (p.declare owner m).Slotted := hp.declare hadds.owned hrole
    rcases run_giveBody_cases m new with ⟨-, e, hgive⟩ | ⟨-, hgive⟩
    · rw [hrun, hgive]
      exact hdeclared
    · obtain ⟨q, hgive, rfl | ⟨instructions, locals, -, rfl⟩⟩ := hgive (p.declare owner m)
      · rw [hrun, hgive]
        exact hdeclared
      · rw [hrun, hgive]
        exact hdeclared

/-- What is bound goes into the slot of its role, in a row that holds all that the row before it did. -/
theorem slotted_accessor {owner : TypeId} {row : Property} (hp : p.SlottedBut owner row) (arg : Option AccessorArg)
    (role : Role) (fill : Option Member → Property) (hfill : ∀ bound, (fill bound).slot? role = bound)
    (hkeep : ∀ bound role s, row.Holds role s → (fill bound).Holds role s) :
    Ends (accessor owner arg role) p fun outcome after =>
      (p.defines owner = true → after.defines owner = true) ∧
        ∃ bound, outcome = .ok bound ∧ after.SlottedBut owner (fill bound) := by
  cases arg with
  | none => exact ⟨id, none, rfl, hp.mono (hkeep none)⟩
  | some arg =>
    show (_ → (p.bindAccessor owner arg role).2.defines owner = true) ∧
      ∃ bound, Except.ok (p.bindAccessor owner arg role).1 = .ok bound ∧
        (p.bindAccessor owner arg role).2.SlottedBut owner (fill bound)
    rw [Program.bindAccessor_eq]
    cases hfound : (p.type? owner).bind (·.accessor? arg) with
    | none => exact ⟨id, none, rfl, hp.mono (hkeep none)⟩
    | some found =>
      obtain ⟨d, hd, -⟩ := Option.bind_eq_some_iff.1 hfound
      refine ⟨fun howner => ?_, _, rfl, (hp.mono (hkeep _)).setMethod hd (hfill _)⟩
      exact (Program.defines_modifyType owner _ owner).trans howner

theorem holds_getter (ref : Member) (bound : Option Member) (role : Role) (s : Signature)
    (h : Property.Holds { ref } role s) : Property.Holds { ref, getter := bound } role s := by
  obtain ⟨m, hm, -⟩ := h
  cases role <;> cases hm

theorem holds_setter (ref : Member) (getter bound : Option Member) (role : Role) (s : Signature)
    (h : Property.Holds { ref, getter } role s) : Property.Holds { ref, getter, setter := bound } role s := by
  obtain ⟨m, hm, hs⟩ := h
  cases role with
  | getter => exact ⟨m, hm, hs⟩
  | ordinary | constructor | setter | special => cases hm

theorem slotted_addProperty (hp : p.Slotted) (owner : TypeId) (name : String) (propertyType : TypeArg)
    (getter setter : Option AccessorArg) : EndsSlotted (addProperty owner name propertyType getter setter) p := by
  unfold addProperty
  refine (reads_require owner).ends_bind (fun _ => hp) fun _ howner => ?_
  refine (reads_type propertyType).ends_bind (fun _ => hp) fun t _ => ?_
  let ref := Member.property owner name t
  -- neither accessor can fail, so the row comes to be listed with all that is bound for it
  have hgetter := slotted_accessor (hp.but owner { ref }) getter .getter (fun bound => { ref, getter := bound })
    (fun _ => rfl) (holds_getter ref)
  refine hgetter.bind (fun e q h => ?_) ?_
  · obtain ⟨-, bound, h, -⟩ := h
    cases h
  rintro bound q ⟨hkeep, _, h, hq⟩
  obtain rfl := Except.ok.inj h
  have hsetter := slotted_accessor hq setter .setter (fun other => { ref, getter := bound, setter := other })
    (fun _ => rfl) (holds_setter ref bound)
  refine hsetter.bind (fun e r h => ?_) ?_
  · obtain ⟨-, other, h, -⟩ := h
    cases h
  rintro other r ⟨hkeep', _, h, hr⟩
  obtain rfl := Except.ok.inj h
  simp only [ends_modify_bind, ends_pure]
  exact hr.list (hkeep' (hkeep (defines_of_run_require howner)))

end Build

theorem BuildStep.slotted_after {p : Program} (hp : p.Slotted) (step : BuildStep) : (step.after p).Slotted := by
  change Ends step.perform p fun _ after => after.Slotted
  cases step with
  | type arg base interfaces isPublic => exact Ends.forget (Build.slotted_addType hp arg base interfaces isPublic)
  | field owner name fieldType isStatic => exact Ends.forget (Build.slotted_addField hp owner name fieldType isStatic)
  | method owner new => exact Ends.forget (Build.slotted_addMethod hp owner new)
  | property owner name propertyType getter setter =>
    exact Ends.forget (Build.slotted_addProperty hp owner name propertyType getter setter)
  | operands => exact hp

/-- **Accessors stand in their slots**, whether steps have failed or not. -/
theorem Program.Built.slotted {p : Program} (hp : p.Built) : p.Slotted := by
  induction hp with
  | new name => exact slotted_new name
  | step _ step ih => exact step.slotted_after ih

end StubClosure
