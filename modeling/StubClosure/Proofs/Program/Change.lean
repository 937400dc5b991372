import StubClosure.Proofs.Program.Built

/-!
# What a step of building changes

Beside its types a program keeps an index of their names and the bodies of methods. `Changes` says of one step what it can do to these two: it gives a new type its name, or leaves the index alone; and the instructions of every body afterwards were there before, or are those that the step brings. A step that fails is no exception.

Two invariants follow. The index knows exactly the defined types (`Indexed`), so asking for a name is asking whether a type of that name is defined. And instructions that fit their mnemonics stay so (`Fits`): a call in a body names a member, and a load of a local names a slot.
-/

namespace StubClosure

open Step

namespace Program

variable {p q r : Program} {given : List Instruction → Prop}

/-- The same types are defined, and known by the same names. -/
def SameIndex (p after : Program) : Prop := after.names = p.names ∧ after.types.keys = p.types.keys

/-- No body has instructions that none had before. -/
def KeepsBodies (p after : Program) : Prop :=
  ∀ key b, after.bodies.find? key = some b → ∃ key' b', p.bodies.find? key' = some b' ∧ b.instructions = b'.instructions

/-- What a step can do to the index of names and to the bodies, when it brings some instructions. -/
structure Changes (given : List Instruction → Prop) (p after : Program) : Prop where
  index : p.SameIndex after ∨ ∃ t, after.names = p.names.insert t.fullName t ∧
    t ∉ p.types.keys ∧ after.types.keys = p.types.keys ++ [t]
  bodies : ∀ key b, after.bodies.find? key = some b →
    given b.instructions ∨ ∃ key' b', p.bodies.find? key' = some b' ∧ b.instructions = b'.instructions

theorem sameIndex_refl (p : Program) : p.SameIndex p := ⟨rfl, rfl⟩

theorem SameIndex.trans (h : p.SameIndex q) (h' : q.SameIndex r) : p.SameIndex r :=
  ⟨h'.1.trans h.1, h'.2.trans h.2⟩

theorem sameIndex_modifyType (t : TypeId) (change : TypeDef → TypeDef) : p.SameIndex (p.modifyType t change) :=
  ⟨rfl, Table.keys_modify p.types t change⟩

theorem SameIndex.enter (h : p.SameIndex q) (m : Member) : p.SameIndex (q.enter m) := h

theorem keepsBodies_of_eq (h : q.bodies = p.bodies) : p.KeepsBodies q := by
  intro key b hb
  rw [h] at hb
  exact ⟨key, b, hb, rfl⟩

theorem KeepsBodies.trans (h : p.KeepsBodies q) (h' : q.KeepsBodies r) : p.KeepsBodies r := by
  intro key b hb
  obtain ⟨_, b', hb', he⟩ := h' key b hb
  obtain ⟨key'', b'', hb'', he'⟩ := h _ b' hb'
  exact ⟨key'', b'', hb'', he.trans he'⟩

theorem changes_of_keeps (hi : p.SameIndex q) (hb : p.KeepsBodies q) : Changes given p q :=
  ⟨.inl hi, fun key b h => .inr (hb key b h)⟩

theorem Changes.mono (h : Changes given p q) {brought : List Instruction → Prop} (hg : ∀ list, given list → brought list) :
    Changes brought p q :=
  ⟨h.index, fun key b hb => (h.bodies key b hb).imp_left (hg b.instructions)⟩

theorem changes_refl (p : Program) : Changes given p p := changes_of_keeps (sameIndex_refl p) (keepsBodies_of_eq rfl)

theorem find?_setBody (b : Body) (key : Signature) :
    (p.setBody b).bodies.find? key = if key = b.method.toSignature then some b else p.bodies.find? key :=
  Table.find?_insert p.bodies b.method.toSignature b key

theorem keeps_bindAccessor (owner : TypeId) (accessor : AccessorArg) (role : Role) :
    p.SameIndex (p.bindAccessor owner accessor role).2 ∧ p.KeepsBodies (p.bindAccessor owner accessor role).2 := by
  rw [bindAccessor_eq]
  cases (p.type? owner).bind (·.accessor? accessor) with
  | none => exact ⟨sameIndex_refl p, keepsBodies_of_eq rfl⟩
  | some found =>
    obtain ⟨place, m⟩ := found
    refine ⟨sameIndex_modifyType (p := p) owner _, fun key b hb => ?_⟩
    rw [find?_bodies_setMethod] at hb
    split at hb
    · obtain ⟨b', hb', rfl⟩ := Option.map_eq_some_iff.1 hb
      exact ⟨_, b', hb', rfl⟩
    · exact ⟨key, b, hb, rfl⟩

theorem find?_resolveOperands (key : Signature) : p.resolveOperands.bodies.find? key =
    (p.bodies.find? key).map fun b => { b with instructions := b.instructions.map p.rebind } := by
  show (p.bodies.entries.map fun entry =>
    (entry.1, { entry.2 with instructions := entry.2.instructions.map p.rebind })).lookup key = _
  unfold Table.find?
  induction p.bodies.entries with
  | nil => rfl
  | cons entry rest ih =>
    rw [List.map_cons, Table.lookup_entry, Table.lookup_entry, ih]
    split <;> rfl

end Program

/-! ## Every step -/

namespace Build

open Program

variable {p : Program} {given : List Instruction → Prop}

theorem changes_defineType {q : Program} {t : TypeId} (hnew : p.defines t = false) (hi : p.SameIndex q)
    (hb : q.bodies = p.bodies) (base : Option TypeArg) (interfaces : List TypeArg) (isPublic : Bool) :
    Ends (defineType t base interfaces isPublic) q fun _ after => Changes given p after := by
  have hq : Changes given p q := changes_of_keeps hi (keepsBodies_of_eq hb)
  unfold Ends
  rcases run_defineType_cases t base interfaces isPublic with ⟨-, e, hrun⟩ | ⟨-, found, others, hrun⟩
  · rw [hrun]
    exact hq
  · rw [hrun]
    have hnot : t ∉ p.types.keys := by
      intro ht
      rw [show p.defines t = true from Table.contains_iff.2 ht] at hnew
      cases hnew
    refine ⟨.inr ⟨t, ?_, hnot, ?_⟩, hq.bodies⟩
    · exact congrArg (fun names : Table String TypeId => names.insert t.fullName t) hi.1
    · exact (Table.keys_insert q.types t _).trans (by rw [hi.2, if_neg hnot])

theorem changes_addType (arg : TypeArg) (base : Option TypeArg) (interfaces : List TypeArg) (isPublic : Bool) :
    Ends (addType arg base interfaces isPublic) p fun _ after => Changes given p after := by
  unfold Ends
  rcases run_addType_cases p arg base interfaces isPublic with
    ⟨e, hrun⟩ | ⟨t, outer, hadds, hrun⟩ | ⟨t, -, hnew, -, hrun⟩
  · rw [hrun]
    exact changes_refl p
  · rw [hrun]
    exact changes_defineType hadds.isNew (sameIndex_modifyType _ _) rfl base interfaces isPublic
  · rw [hrun]
    exact changes_defineType hnew (sameIndex_refl p) rfl base interfaces isPublic

theorem changes_addField (owner : TypeId) (name : String) (fieldType : TypeArg) (isStatic : Bool) :
    Ends (addField owner name fieldType isStatic) p fun _ after => Changes given p after := by
  unfold addField
  refine (reads_require owner).ends_bind (fun _ => changes_refl p) fun _ _ => ?_
  refine (reads_type fieldType).ends_bind (fun _ => changes_refl p) fun t _ => ?_
  simp only [ends_modify_bind, ends_pure]
  exact changes_of_keeps ((sameIndex_modifyType _ _).enter _) (keepsBodies_of_eq rfl)

theorem changes_addMethod (owner : TypeId) (new : NewMethod) :
    Ends (addMethod owner new) p fun _ after => Changes (fun list => new.body = some list) p after := by
  unfold Ends
  rcases run_addMethod_cases p owner new with ⟨e, hrun⟩ | ⟨m, -, -, hrun⟩
  · rw [hrun]
    exact changes_refl p
  · have hdeclared : Changes (fun list => new.body = some list) p (p.declare owner m) :=
      changes_of_keeps ((sameIndex_modifyType _ _).enter _) (keepsBodies_of_eq rfl)
    rcases run_giveBody_cases m new with ⟨-, e, hgive⟩ | ⟨-, hgive⟩
    · rw [hrun, hgive]
      exact hdeclared
    · obtain ⟨q, hgive, rfl | ⟨instructions, locals, hbody, rfl⟩⟩ := hgive (p.declare owner m)
      · rw [hrun, hgive]
        exact hdeclared
      · rw [hrun, hgive]
        refine ⟨hdeclared.index, fun key b hb => ?_⟩
        rw [find?_setBody] at hb
        split at hb
        · obtain rfl := Option.some.inj hb
          exact .inl hbody
        · exact hdeclared.bodies key b hb

theorem keeps_accessor (owner : TypeId) (arg : Option AccessorArg) (role : Role) :
    Ends (accessor owner arg role) p fun _ after => p.SameIndex after ∧ p.KeepsBodies after := by
  cases arg with
  | none => exact ⟨sameIndex_refl p, keepsBodies_of_eq rfl⟩
  | some arg => exact keeps_bindAccessor owner arg role

theorem changes_addProperty (owner : TypeId) (name : String) (propertyType : TypeArg)
    (getter setter : Option AccessorArg) :
    Ends (addProperty owner name propertyType getter setter) p fun _ after => Changes given p after := by
  unfold addProperty
  refine (reads_require owner).ends_bind (fun _ => changes_refl p) fun _ _ => ?_
  refine (reads_type propertyType).ends_bind (fun _ => changes_refl p) fun t _ => ?_
  refine (keeps_accessor owner getter .getter).bind (fun e q h => changes_of_keeps h.1 h.2) ?_
  rintro getter q ⟨hi, hb⟩
  refine (keeps_accessor owner setter .setter).bind
    (fun e r h => changes_of_keeps (hi.trans h.1) (hb.trans h.2)) ?_
  rintro setter r ⟨hi', hb'⟩
  simp only [ends_modify_bind, ends_pure]
  exact changes_of_keeps (((hi.trans hi').trans (sameIndex_modifyType _ _)).enter _) (hb.trans hb')

end Build

namespace BuildStep

open Program

/-- The step is given the instructions for a body. -/
def Gives : BuildStep → List Instruction → Prop
  | method _ new, list => new.body = some list
  | _, _ => False

/-- The step brings the instructions into a body: it is given them, or they are those of some body with their operands resolved. -/
def Brings (step : BuildStep) (p : Program) (list : List Instruction) : Prop :=
  step.Gives list ∨ step = .operands ∧ ∃ key b, p.bodies.find? key = some b ∧ list = b.instructions.map p.rebind

/-- **What a step changes**, whether it fails or not. -/
theorem changes_after (step : BuildStep) (p : Program) : Changes (step.Brings p) p (step.after p) := by
  change Ends step.perform p fun _ after => Changes (step.Brings p) p after
  cases step with
  | type arg base interfaces isPublic => exact Ends.forget (Build.changes_addType arg base interfaces isPublic)
  | field owner name fieldType isStatic => exact Ends.forget (Build.changes_addField owner name fieldType isStatic)
  | method owner new =>
    exact Ends.forget ((Build.changes_addMethod owner new).mono fun _ _ h => h.mono fun _ => .inl)
  | property owner name propertyType getter setter =>
    exact Ends.forget (Build.changes_addProperty owner name propertyType getter setter)
  | operands =>
    refine ⟨.inl (sameIndex_refl p), fun key b hb => .inl (.inr ⟨rfl, ?_⟩)⟩
    obtain ⟨b', hb', rfl⟩ := Option.map_eq_some_iff.1 ((find?_resolveOperands key).symm.trans hb)
    exact ⟨key, b', hb', rfl⟩

end BuildStep

namespace Program

variable {p : Program}

/-! ## The index of names -/

/-- A type of the name is defined. -/
def Knows (p : Program) (name : String) : Prop := ∃ t, p.defines t = true ∧ t.fullName = name

/-- The index holds the names of the defined types, each with a type of that name. -/
structure Indexed (p : Program) : Prop where
  nodup : p.types.keys.Nodup
  sound : ∀ name t, p.names.find? name = some t → t ∈ p.types.keys ∧ t.fullName = name
  complete : ∀ t ∈ p.types.keys, t.fullName ∈ p.names.keys

theorem Indexed.changes {after : Program} (hp : p.Indexed) (h : Changes given p after) : after.Indexed := by
  rcases h.index with ⟨hn, hk⟩ | ⟨t, hn, hnew, hk⟩
  · constructor
    · rw [hk]
      exact hp.nodup
    · rw [hn, hk]
      exact hp.sound
    · rw [hn, hk]
      exact hp.complete
  · constructor
    · rw [hk, List.nodup_append]
      refine ⟨hp.nodup, by simp, ?_⟩
      rintro other ho _ ht rfl
      exact hnew (List.mem_singleton.1 ht ▸ ho)
    · intro name other ho
      rw [hn, Table.find?_insert] at ho
      rw [hk, List.mem_append, List.mem_singleton]
      split at ho
      next he =>
        obtain rfl := Option.some.inj ho
        exact ⟨.inr rfl, he.symm⟩
      · obtain ⟨hdef, he⟩ := hp.sound name other ho
        exact ⟨.inl hdef, he⟩
    · intro other ho
      rw [hk, List.mem_append, List.mem_singleton] at ho
      rw [hn, Table.mem_keys_insert]
      rcases ho with ho | rfl
      · exact .inr (hp.complete other ho)
      · exact .inl rfl

theorem Built.indexed (hp : p.Built) : p.Indexed := by
  induction hp with
  | new name => exact ⟨List.nodup_nil, by rintro _ _ ⟨⟩, by rintro _ ⟨⟩⟩
  | step _ step ih => exact ih.changes (step.changes_after _)

theorem Indexed.map_id_values (hp : p.Indexed) (hc : p.Coherent) : p.types.values.map (·.id) = p.types.keys := by
  unfold Table.values Table.keys
  rw [List.map_map]
  refine List.map_congr_left fun entry he => ?_
  exact (hc.type entry.1 entry.2 (Table.find?_of_mem hp.nodup he)).id_eq

/-- **Asking for a name is asking for a defined type.** -/
theorem Indexed.findType?_ne_none_iff (hp : p.Indexed) {name : String} : p.findType? name ≠ none ↔ p.Knows name := by
  constructor
  · intro h
    obtain ⟨d, hd⟩ := Option.ne_none_iff_exists'.1 h
    obtain ⟨t, ht, -⟩ := Option.bind_eq_some_iff.1 hd
    obtain ⟨hdef, he⟩ := hp.sound name t ht
    exact ⟨t, Table.contains_iff.2 hdef, he⟩
  · rintro ⟨t, ht, rfl⟩
    obtain ⟨other, ho⟩ := Table.exists_find?_of_mem (hp.complete t (Table.contains_iff.1 ht))
    obtain ⟨d, hd⟩ := exists_type?_of_defines (Table.contains_iff.2 (hp.sound _ other ho).1)
    simp [findType?, ho, hd]

end Program

/-! ## Instructions that fit -/

namespace Instruction

/-- The operand is one that the mnemonic takes. -/
def Fits (ins : Instruction) : Prop := ins.category.accepts ins.operand = true

theorem fits_of_make {offset : Int} {mnemonic : String} {operand : Option Operand} {ins : Instruction}
    (h : make offset mnemonic operand = .ok ins) : ins.Fits := by
  unfold make at h
  dsimp only at h
  split at h
  next hfits =>
    obtain rfl := Except.ok.inj h
    exact hfits
  · split at h <;> cases h

theorem Fits.exists_number {ins : Instruction} (h : ins.Fits) (hs : ins.category.isSlot = true) :
    ∃ slot, ins.operand = some (.number slot) := by
  have hnot : (ins.category.isCall || ins.category.isFieldAccess) = false := by
    cases hc : ins.category <;> simp [hc, OpCategory.isSlot] at hs <;> rfl
  unfold Fits OpCategory.accepts at h
  rw [hnot, if_neg (by decide), if_pos hs] at h
  split at h
  next slot ho => exact ⟨slot, ho⟩
  · cases h

theorem Fits.exists_member {ins : Instruction} (h : ins.Fits) (hc : ins.isCall = true) :
    ∃ m, ins.member? = some m := by
  unfold Fits OpCategory.accepts at h
  rw [show ins.category.isCall = true from hc, Bool.true_or, if_pos rfl] at h
  exact Option.isSome_iff_exists.1 h

theorem Fits.rebind {ins : Instruction} (h : ins.Fits) (p : Program) : (p.rebind ins).Fits := by
  unfold Program.rebind
  split
  next definition hfound =>
    -- only an operand that is a member is replaced, and by a member
    obtain ⟨m, hm, -⟩ := Option.bind_eq_some_iff.1 hfound
    by_cases hs : ins.category.isSlot = true
    · obtain ⟨slot, hslot⟩ := h.exists_number hs
      simp [member?, hslot, Operand.member?] at hm
    · show ins.category.accepts (some (.member definition)) = true
      simp [OpCategory.accepts, hs, Operand.member?]
  · exact h

end Instruction

/-- The instructions that the step is given fit. -/
def BuildStep.Fits (step : BuildStep) : Prop := ∀ list, step.Gives list → ∀ ins ∈ list, ins.Fits

namespace Program

variable {p : Program}

/-- The instructions of all bodies fit. -/
def Fits (p : Program) : Prop := ∀ key b, p.bodies.find? key = some b → ∀ ins ∈ b.instructions, ins.Fits

/-- What holds of all instructions that the steps are given, and is kept when operands are resolved, if they are, holds of the instructions of every body. -/
theorem forall_instructions_build {P : Instruction → Prop} {steps : List BuildStep}
    (hr : .operands ∈ steps → ∀ p : Program, p.Built → ∀ ins, P ins → P (p.rebind ins)) (name : String)
    (hs : ∀ step ∈ steps, ∀ list, step.Gives list → ∀ ins ∈ list, P ins) :
    ∀ key b, (build name steps).bodies.find? key = some b → ∀ ins ∈ b.instructions, P ins := by
  suffices h : ∀ p : Program, p.Built → (∀ key b, p.bodies.find? key = some b → ∀ ins ∈ b.instructions, P ins) →
      ∀ key b, (steps.foldl (fun p step => step.after p) p).bodies.find? key = some b → ∀ ins ∈ b.instructions, P ins from
    h _ (.new name) (by rintro _ _ ⟨⟩)
  induction steps with
  | nil => exact fun p _ hp => hp
  | cons step rest ih =>
    intro p hbuilt hp
    refine ih (fun hmem => hr (List.mem_cons_of_mem _ hmem)) (fun other ho => hs other (List.mem_cons_of_mem _ ho)) _
      (hbuilt.step step) ?_
    intro key b hb ins hi
    rcases (step.changes_after p).bodies key b hb with (hgiven | ⟨rfl, key', b', hb', he⟩) | ⟨key', b', hb', he⟩
    · exact hs step List.mem_cons_self _ hgiven ins hi
    · rw [he] at hi
      obtain ⟨ins', hi', rfl⟩ := List.mem_map.1 hi
      exact hr List.mem_cons_self p hbuilt ins' (hp key' b' hb' ins' hi')
    · rw [he] at hi
      exact hp key' b' hb' ins hi

/-- **Instructions that fit when they are given fit in every body.** -/
theorem fits_build (name : String) {steps : List BuildStep} (hs : ∀ step ∈ steps, step.Fits) :
    (build name steps).Fits :=
  forall_instructions_build (fun _ p _ _ h => h.rebind p) name hs

end Program

theorem Zoo.fits_steps : ∀ step ∈ Zoo.steps, step.Fits := by
  have hmake : ∀ ins ∈ Zoo.make.instructions, ins.category.accepts ins.operand = true := by decide
  intro step hstep list hgives
  simp only [Zoo.steps, List.mem_cons, List.not_mem_nil, or_false] at hstep
  rcases hstep with rfl | rfl | rfl | rfl | rfl | rfl
  all_goals
    cases hgives
  exact hmake

end StubClosure
