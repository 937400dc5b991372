import Mathlib.Data.Set.Function
import StubClosure.Proofs.Program.Consistent

/-!
# Resolved operands

A reader knows a member by its signature; the program that defines it knows its role and flag as well. It keeps them in two places, the definition of the type and the table of members, and these agree however the program was built, also where steps have failed: the table holds of each signature the member that its type declares last (`Built.enters`). A method is declared once, so for methods that is the definition which scanning looks up.

Resolving operands thus puts definitions in the place of references and changes nothing else (`resolves_rebind`). Operands that were the same member stay so (`Enters.injOn_operands`).
-/

namespace StubClosure

open Step

/-- The members of a kind that the type declares, in order. -/
def TypeDef.declarations (d : TypeDef) : MemberKind → List Member
  | .method => d.methods
  | .field => d.fields
  | .property => d.properties.map (·.ref)

namespace Program

/-- The members of a kind that a type declares, in order. -/
def declarations (p : Program) (t : TypeId) (kind : MemberKind) : List Member :=
  ((p.type? t).map (·.declarations kind)).getD []

/-- The member of a signature that its type declares last. Only fields can be declared more than once. -/
def lastDeclared? (p : Program) (s : Signature) : Option Member :=
  (p.declarations s.owner s.kind).reverse.find? (·.toSignature = s)

/-- The table of members and the definitions of types agree, and methods are declared once. -/
structure Enters (p : Program) : Prop where
  owned : ∀ t kind, ∀ m ∈ p.declarations t kind, m.owner = t ∧ m.kind = kind
  last : ∀ s, p.members.find? s = p.lastDeclared? s
  distinct : ∀ t, ((p.declarations t .method).map (·.toSignature)).Nodup

section
variable {p q : Program} {owner t : TypeId} {m : Member}

theorem toSignature_of_lastDeclared? {s : Signature} (h : p.lastDeclared? s = some m) : m.toSignature = s := by
  simpa using List.find?_some h

theorem declarations_eq {d : TypeDef} (h : p.type? t = some d) (kind : MemberKind) :
    p.declarations t kind = d.declarations kind := by
  simp [declarations, h]

theorem declarations_of_not_defines (h : p.defines t = false) (kind : MemberKind) : p.declarations t kind = [] := by
  unfold declarations
  rw [show p.type? t = none from Option.not_isSome_iff_eq_none.1 (Bool.eq_false_iff.1 h)]
  rfl

theorem declarations_modifyType {change : TypeDef → TypeDef} (edit : MemberKind → List Member → List Member)
    (hc : ∀ d kind, (change d).declarations kind = edit kind (d.declarations kind)) (hd : p.defines owner = true)
    (kind : MemberKind) : (p.modifyType owner change).declarations t kind =
      if t = owner then edit kind (p.declarations owner kind) else p.declarations t kind := by
  obtain ⟨d, hd⟩ := exists_type?_of_defines hd
  split
  next he =>
    rw [he, declarations_eq hd, ← hc d]
    apply declarations_eq
    rw [type?_modifyType, if_pos rfl, hd]
    rfl
  next he =>
    unfold declarations
    rw [type?_modifyType, if_neg he]

/-! ## The small changes -/

theorem enters_new (name : String) : Enters { name } where
  owned := by
    intro t kind m h
    cases h
  last := fun _ => rfl
  distinct := fun _ => List.nodup_nil

theorem Enters.congr (hp : p.Enters) (hd : ∀ t kind, q.declarations t kind = p.declarations t kind)
    (hm : q.members = p.members) : q.Enters where
  owned := by
    intro t kind
    rw [hd]
    exact hp.owned t kind
  last := by
    intro s
    unfold lastDeclared?
    rw [hm, hd]
    exact hp.last s
  distinct := by
    intro t
    rw [hd]
    exact hp.distinct t

theorem Enters.not_mem_of_new (hp : p.Enters) (hnew : p.members.contains m.toSignature = false) :
    m.toSignature ∉ (p.declarations m.owner m.kind).map (·.toSignature) := by
  intro h
  obtain ⟨other, hother, he⟩ := List.mem_map.1 h
  have hnone : p.members.find? m.toSignature = none := Option.not_isSome_iff_eq_none.1 (Bool.eq_false_iff.1 hnew)
  rw [hp.last] at hnone
  have hno := List.find?_eq_none.1 hnone other (List.mem_reverse.2 hother)
  simp [he] at hno

theorem Enters.append (hp : p.Enters)
    (hd : ∀ t kind, q.declarations t kind =
      if t = m.owner ∧ kind = m.kind then p.declarations t kind ++ [m] else p.declarations t kind)
    (hm : q.members = p.members.insert m.toSignature m)
    (hnew : m.kind = .method → p.members.contains m.toSignature = false) : q.Enters where
  owned := by
    intro t kind other h
    rw [hd] at h
    split at h
    next he =>
      rcases List.mem_append.1 h with h | h
      · exact hp.owned t kind other h
      · rw [List.mem_singleton.1 h]
        exact ⟨he.1.symm, he.2.symm⟩
    · exact hp.owned t kind other h
  last := by
    intro s
    unfold lastDeclared?
    rw [hm, Table.find?_insert, hd]
    by_cases hs : s = m.toSignature
    · subst hs
      simp
    · rw [if_neg hs, hp.last]
      unfold lastDeclared?
      split
      · rw [List.reverse_append, List.reverse_singleton, List.singleton_append, List.find?_cons_of_neg]
        simpa using Ne.symm hs
      · rfl
  distinct := by
    intro t
    rw [hd]
    split
    next he =>
      obtain ⟨rfl, hk⟩ := he
      have hnot := hp.not_mem_of_new (hnew hk.symm)
      rw [← hk] at hnot
      rw [List.map_append, List.map_singleton]
      exact (hp.distinct m.owner).append (List.nodup_singleton _) (by simpa using hnot)
    · exact hp.distinct t

theorem Enters.listNested (hp : p.Enters) (hd : p.defines owner = true) (inner : TypeId) :
    (p.listNested owner inner).Enters := by
  refine hp.congr (fun t kind => ?_) rfl
  have hkeep : (p.listNested owner inner).declarations t kind =
      if t = owner then p.declarations owner kind else p.declarations t kind :=
    declarations_modifyType (fun _ members => members) (fun d kind => by cases kind <;> rfl) hd kind
  rw [hkeep]
  split
  next he => rw [he]
  · rfl

theorem Enters.define (hp : p.Enters) (hnew : p.defines t = false) {d : TypeDef}
    (hempty : ∀ kind, d.declarations kind = []) : (p.define t d).Enters := by
  refine hp.congr (fun other kind => ?_) rfl
  by_cases he : other = t
  · rw [he, declarations_of_not_defines hnew, ← hempty kind]
    apply declarations_eq
    rw [type?_define, if_pos rfl]
  · unfold declarations
    rw [type?_define, if_neg he]

theorem find?_eq_some_iff {members : List Member} (hn : (members.map (·.toSignature)).Nodup) {s : Signature}
    {m : Member} : members.find? (·.toSignature = s) = some m ↔ m ∈ members ∧ m.toSignature = s := by
  constructor
  · intro h
    exact ⟨List.mem_of_find?_eq_some h, by simpa using List.find?_some h⟩
  · rintro ⟨hmem, rfl⟩
    cases hfound : members.find? (·.toSignature = m.toSignature) with
    | none =>
      have hno := List.find?_eq_none.1 hfound m hmem
      simp at hno
    | some other =>
      have hsame : other.toSignature = m.toSignature := by simpa using List.find?_some hfound
      rw [List.inj_on_of_nodup_map hn (List.mem_of_find?_eq_some hfound) hmem hsame]

theorem find?_reverse_eq_some_iff {members : List Member} (hn : (members.map (·.toSignature)).Nodup) {s : Signature}
    {m : Member} : members.reverse.find? (·.toSignature = s) = some m ↔ m ∈ members ∧ m.toSignature = s := by
  rw [find?_eq_some_iff (by rwa [List.map_reverse, List.nodup_reverse]), List.mem_reverse]

theorem mem_set_iff {members : List Member} {place : Nat} {bound other : Member} (hm : members[place]? = some m)
    (hne : other ≠ m) (hb : other ≠ bound) : other ∈ members.set place bound ↔ other ∈ members := by
  constructor
  · intro h
    exact (List.mem_or_eq_of_mem_set h).resolve_right hb
  · intro h
    obtain ⟨i, hi⟩ := List.mem_iff_getElem?.1 h
    have hplace : place ≠ i := by
      rintro rfl
      exact hne (Option.some.inj (hi.symm.trans hm))
    exact List.mem_iff_getElem?.2 ⟨i, by rwa [List.getElem?_set_ne hplace]⟩

theorem Enters.setMethod (hp : p.Enters) {d : TypeDef} {place : Nat} (hd : p.type? owner = some d)
    (hm : d.methods[place]? = some m) (role : Role) : (p.setMethod owner place (m.withRole role)).Enters := by
  have hplace : (p.declarations owner .method)[place]? = some m := by rwa [declarations_eq hd]
  obtain ⟨ho, hk⟩ := hp.owned owner .method m (List.mem_of_getElem? hplace)
  have hkeep : ∀ t kind, (p.setMethod owner place (m.withRole role)).declarations t kind =
      if t = owner ∧ kind = .method then (p.declarations owner .method).set place (m.withRole role)
      else p.declarations t kind := by
    intro t kind
    have hset : (p.setMethod owner place (m.withRole role)).declarations t kind = if t = owner then
        (if kind = .method then (p.declarations owner kind).set place (m.withRole role) else p.declarations owner kind)
        else p.declarations t kind :=
      declarations_modifyType
        (fun kind members => if kind = .method then members.set place (m.withRole role) else members)
        (fun d kind => by cases kind <;> rfl) (defines_of_type? hd) kind
    rw [hset]
    by_cases ht : t = owner <;> by_cases hkind : kind = .method <;> simp [ht, hkind]
  have hsame : ((p.declarations owner .method).set place (m.withRole role)).map (·.toSignature) =
      (p.declarations owner .method).map (·.toSignature) := map_toSignature_set hplace role
  have hmem : ∀ other, other.toSignature ≠ m.toSignature →
      (other ∈ (p.declarations owner .method).set place (m.withRole role) ↔ other ∈ p.declarations owner .method) :=
    fun other hne => mem_set_iff hplace (fun h => hne (by rw [h])) (fun h => hne (by rw [h, Member.toSignature_withRole]))
  refine ⟨fun t kind other h => ?_, fun s => ?_, fun t => ?_⟩
  · rw [hkeep] at h
    split at h
    next he =>
      rcases List.mem_or_eq_of_mem_set h with h | rfl
      · exact hp.owned t kind other (by rw [he.1, he.2]; exact h)
      · exact ⟨ho.trans he.1.symm, hk.trans he.2.symm⟩
    · exact hp.owned t kind other h
  · unfold lastDeclared?
    rw [show (p.setMethod owner place (m.withRole role)).members =
      p.members.insert m.toSignature (m.withRole role) from rfl, Table.find?_insert, hkeep]
    have hdistinct : (((p.declarations owner .method).set place (m.withRole role)).map (·.toSignature)).Nodup := by
      rw [hsame]
      exact hp.distinct owner
    by_cases hs : s = m.toSignature
    · subst hs
      rw [if_pos rfl, if_pos ⟨ho, hk⟩, eq_comm, find?_reverse_eq_some_iff hdistinct]
      exact ⟨List.mem_set (List.getElem?_eq_some_iff.1 hplace).1 _, rfl⟩
    · rw [if_neg hs, hp.last]
      unfold lastDeclared?
      split
      next he =>
        rw [he.1, he.2]
        ext other
        rw [find?_reverse_eq_some_iff (hp.distinct owner), find?_reverse_eq_some_iff hdistinct]
        exact and_congr_left fun h => (hmem other (by rwa [h])).symm
      · rfl
  · rw [hkeep]
    split
    · rw [hsame]
      exact hp.distinct owner
    · exact hp.distinct t

end

end Program

/-! ## Every step -/

namespace Build

variable {p : Program}

/-- Whatever the work comes to, the table and the definitions agree after it. -/
abbrev EndsEntered {α : Type} (work : Build α) (p : Program) : Prop := Ends work p fun _ after => after.Enters

theorem enters_defineType {q : Program} (hq : q.Enters) {t : TypeId} (hnew : q.defines t = false)
    (base : Option TypeArg) (interfaces : List TypeArg) (isPublic : Bool) :
    EndsEntered (defineType t base interfaces isPublic) q := by
  unfold EndsEntered Ends
  rcases run_defineType_cases t base interfaces isPublic with ⟨-, e, hrun⟩ | ⟨-, found, others, hrun⟩
  · rw [hrun]
    exact hq
  · rw [hrun]
    exact hq.define hnew fun kind => by cases kind <;> rfl

theorem enters_addType (hp : p.Enters) (arg : TypeArg) (base : Option TypeArg) (interfaces : List TypeArg)
    (isPublic : Bool) : EndsEntered (addType arg base interfaces isPublic) p := by
  unfold EndsEntered Ends
  rcases run_addType_cases p arg base interfaces isPublic with
    ⟨e, hrun⟩ | ⟨t, outer, hadds, hrun⟩ | ⟨t, -, hnew, -, hrun⟩
  · rw [hrun]
    exact hp
  · rw [hrun]
    exact enters_defineType (hp.listNested hadds.around t) hadds.listNested.isNew base interfaces isPublic
  · rw [hrun]
    exact enters_defineType hp hnew base interfaces isPublic

theorem enters_declaration (hp : p.Enters) {m : Member} {change : TypeDef → TypeDef} (hd : p.defines m.owner = true)
    (hc : ∀ d kind, (change d).declarations kind =
      if kind = m.kind then d.declarations kind ++ [m] else d.declarations kind)
    (hnew : m.kind = .method → p.members.contains m.toSignature = false) :
    ((p.modifyType m.owner change).enter m).Enters := by
  refine hp.append (fun t kind => ?_) rfl hnew
  refine (Program.declarations_modifyType (t := t)
    (fun kind members => if kind = m.kind then members ++ [m] else members) hc hd kind).trans ?_
  by_cases ht : t = m.owner <;> simp [ht]

theorem enters_addField (hp : p.Enters) (owner : TypeId) (name : String) (fieldType : TypeArg) (isStatic : Bool) :
    EndsEntered (addField owner name fieldType isStatic) p := by
  unfold addField
  refine (reads_require owner).ends_bind (fun _ => hp) fun _ howner => ?_
  refine (reads_type fieldType).ends_bind (fun _ => hp) fun t _ => ?_
  simp only [ends_modify_bind, ends_pure]
  refine enters_declaration hp (m := { Member.field owner name t with isStatic }) (defines_of_run_require howner)
    (fun d kind => ?_) fun h => by cases h
  cases kind <;> rfl

theorem enters_addMethod (hp : p.Enters) (owner : TypeId) (new : NewMethod) : EndsEntered (addMethod owner new) p := by
  unfold EndsEntered Ends
  rcases run_addMethod_cases p owner new with ⟨e, hrun⟩ | ⟨m, hadds, hnew, hrun⟩
  · rw [hrun]
    exact hp
  · have hkind : m.kind = .method := by
      obtain ⟨params, returns, -, -, rfl⟩ := hadds.makes
      rfl
    have howner := hadds.makes.owner_eq
    have hdeclared : (p.declare owner m).Enters := by
      rw [← howner]
      refine enters_declaration hp (howner ▸ hadds.owned) (fun d kind => ?_) fun _ => hnew
      rw [hkind]
      cases kind <;> rfl
    rcases run_giveBody_cases m new with ⟨-, e, hgive⟩ | ⟨-, hgive⟩
    · rw [hrun, hgive]
      exact hdeclared
    · obtain ⟨q, hgive, rfl | ⟨instructions, locals, -, rfl⟩⟩ := hgive (p.declare owner m)
      · rw [hrun, hgive]
        exact hdeclared
      · rw [hrun, hgive]
        exact hdeclared.congr (fun _ _ => rfl) rfl

theorem enters_accessor (hp : p.Enters) (owner : TypeId) (arg : Option AccessorArg) (role : Role) :
    Ends (accessor owner arg role) p fun _ after => after.Enters ∧ (p.defines owner = true → after.defines owner = true) := by
  cases arg with
  | none => exact ⟨hp, id⟩
  | some arg =>
    show (p.bindAccessor owner arg role).2.Enters ∧ _
    refine ⟨?_, fun hd => ?_⟩
    · rw [Program.bindAccessor_eq]
      cases hfound : (p.type? owner).bind (·.accessor? arg) with
      | none => exact hp
      | some found =>
        obtain ⟨d, hd, ha⟩ := Option.bind_eq_some_iff.1 hfound
        exact hp.setMethod hd (TypeDef.getElem?_of_accessor? ha) role
    · have hkeys : (p.bindAccessor owner arg role).2.types.keys = p.types.keys :=
        (Program.keeps_bindAccessor owner arg role).1.2
      refine Table.contains_iff.2 ?_
      show owner ∈ (p.bindAccessor owner arg role).2.types.keys
      rw [hkeys]
      exact Table.contains_iff.1 hd

theorem enters_addProperty (hp : p.Enters) (owner : TypeId) (name : String) (propertyType : TypeArg)
    (getter setter : Option AccessorArg) : EndsEntered (addProperty owner name propertyType getter setter) p := by
  unfold addProperty
  refine (reads_require owner).ends_bind (fun _ => hp) fun _ howner => ?_
  refine (reads_type propertyType).ends_bind (fun _ => hp) fun t _ => ?_
  refine (enters_accessor hp owner getter .getter).bind (fun _ _ h => h.1) ?_
  rintro getter q ⟨hq, hkeep⟩
  refine (enters_accessor hq owner setter .setter).bind (fun _ _ h => h.1) ?_
  rintro setter r ⟨hr, hkeep'⟩
  simp only [ends_modify_bind, ends_pure]
  refine enters_declaration hr (m := Member.property owner name t)
    (hkeep' (hkeep (defines_of_run_require howner))) (fun d kind => ?_) fun h => by cases h
  cases kind with
  | property => exact List.map_append
  | _ => rfl

end Build

theorem BuildStep.enters_after {p : Program} (hp : p.Enters) (step : BuildStep) : (step.after p).Enters := by
  change Ends step.perform p fun _ after => after.Enters
  cases step with
  | type arg base interfaces isPublic => exact Ends.forget (Build.enters_addType hp arg base interfaces isPublic)
  | field owner name fieldType isStatic => exact Ends.forget (Build.enters_addField hp owner name fieldType isStatic)
  | method owner new => exact Ends.forget (Build.enters_addMethod hp owner new)
  | property owner name propertyType getter setter =>
    exact Ends.forget (Build.enters_addProperty hp owner name propertyType getter setter)
  | operands => exact hp.congr (fun _ _ => rfl) rfl

namespace Program

variable {p : Program}

/-- **The table of members holds what is declared last**, whether steps have failed or not. -/
theorem Built.enters (hp : p.Built) : p.Enters := by
  induction hp with
  | new name => exact enters_new name
  | step _ step ih => exact step.enters_after ih

/-- Of a method, the table holds what a look-up in the definition of its type finds. -/
theorem Enters.find?_members (hp : p.Enters) {m : Member} (hk : m.kind = .method) :
    p.members.find? m.toSignature = (p.type? m.owner).bind (·.definition? m) := by
  rw [hp.last, lastDeclared?, hk]
  cases hd : p.type? m.owner with
  | none =>
    unfold declarations
    rw [hd]
    rfl
  | some d =>
    have hdistinct := hp.distinct m.owner
    rw [declarations_eq hd] at hdistinct ⊢
    ext found
    rw [find?_reverse_eq_some_iff hdistinct, ← find?_eq_some_iff hdistinct]
    rfl

/-! ## Operands -/

/-- The operand of the one instruction is that of the other, or the definition of what that names. -/
structure Resolves (p : Program) (ins resolved : Instruction) : Prop where
  offset : resolved.offset = ins.offset
  category : resolved.category = ins.category
  mnemonic : resolved.mnemonic = ins.mnemonic
  pushes : resolved.pushes = ins.pushes
  known : ∀ m ∈ ins.member?, ∀ d ∈ p.lastDeclared? m.toSignature, resolved.operand = some (.member d)
  unknown : (∀ m ∈ ins.member?, p.lastDeclared? m.toSignature = none) → resolved.operand = ins.operand

theorem member?_withOperand (ins : Instruction) (m : Member) : (ins.withOperand (.member m)).member? = some m := rfl

theorem Enters.resolves_rebind (hp : p.Enters) (ins : Instruction) : p.Resolves ins (p.rebind ins) := by
  unfold rebind
  cases hm : ins.member? with
  | none => exact ⟨rfl, rfl, rfl, rfl, by simp [hm], fun _ => rfl⟩
  | some m =>
    rw [Option.bind_some, hp.last]
    cases hd : p.lastDeclared? m.toSignature with
    | none => exact ⟨rfl, rfl, rfl, rfl, by simp [hm, hd], fun _ => rfl⟩
    | some d =>
      refine ⟨rfl, rfl, rfl, rfl, ?_, fun h => ?_⟩
      · rintro m' h d' h'
        obtain rfl : m = m' := by rwa [hm, Option.mem_some_iff] at h
        rw [hd, Option.mem_some_iff] at h'
        rw [h']
        rfl
      · have hnone := h m (by rw [hm]; rfl)
        rw [hd] at hnone
        cases hnone

theorem member?_rebind (ins : Instruction) :
    (p.rebind ins).member? = ins.member?.map fun m => (p.members.find? m.toSignature).getD m := by
  unfold rebind
  cases hm : ins.member? with
  | none => exact hm
  | some m =>
    cases hd : p.members.find? m.toSignature with
    | none => simp [hm, hd]
    | some d => simp [hd, member?_withOperand]

theorem Enters.rebind_rebind (hp : p.Enters) (ins : Instruction) : p.rebind (p.rebind ins) = p.rebind ins := by
  cases hm : ins.member?.bind fun m => p.members.find? m.toSignature with
  | none =>
    have hsame : p.rebind ins = ins := by rw [rebind, hm]
    rw [hsame, hsame]
  | some d =>
    obtain ⟨m, -, hd⟩ := Option.bind_eq_some_iff.1 hm
    have hsame : p.rebind ins = ins.withOperand (.member d) := by rw [rebind, hm]
    have hfound : p.members.find? d.toSignature = some d := by
      rw [hp.last] at hd
      rw [toSignature_of_lastDeclared? hd, hp.last, hd]
    rw [hsame, rebind, member?_withOperand, Option.bind_some, hfound]
    rfl

theorem Enters.resolveOperands_resolveOperands (hp : p.Enters) :
    p.resolveOperands.resolveOperands = p.resolveOperands := by
  have hentry : ∀ entry : Signature × Body,
      (entry.1, { entry.2 with instructions := (entry.2.instructions.map p.rebind).map p.rebind }) =
        (entry.1, { entry.2 with instructions := entry.2.instructions.map p.rebind }) := by
    intro entry
    rw [List.map_map, show p.rebind ∘ p.rebind = p.rebind from funext hp.rebind_rebind]
  have hbodies : ((p.bodies.entries.map fun entry =>
      (entry.1, { entry.2 with instructions := entry.2.instructions.map p.rebind })).map fun entry =>
      (entry.1, { entry.2 with instructions := entry.2.instructions.map p.rebind })) =
        p.bodies.entries.map fun entry =>
          (entry.1, { entry.2 with instructions := entry.2.instructions.map p.rebind }) := by
    rw [List.map_map]
    exact List.map_congr_left fun entry _ => hentry entry
  exact congrArg (fun entries => { p with bodies := ⟨entries⟩ }) hbodies

/-- The members that instructions of the program refer to. -/
def operands (p : Program) : Set Member :=
  {m | ∃ key b, p.bodies.find? key = some b ∧ ∃ ins ∈ b.instructions, ins.member? = some m}

/-- An operand is replaced by what its signature tells, so operands that agree go on to agree. -/
theorem Enters.injOn_operands (hp : p.Enters) (h : Set.InjOn Member.toSignature p.operands) :
    Set.InjOn Member.toSignature p.resolveOperands.operands := by
  have hfrom : ∀ m ∈ p.resolveOperands.operands, ∃ m' ∈ p.operands, m'.toSignature = m.toSignature ∧
      m = (p.members.find? m'.toSignature).getD m' := by
    rintro m ⟨key, b, hb, ins, hins, hm⟩
    obtain ⟨b', hb', rfl⟩ := Option.map_eq_some_iff.1 ((find?_resolveOperands key).symm.trans hb)
    obtain ⟨ins', hins', rfl⟩ := List.mem_map.1 hins
    obtain ⟨m', hm', rfl⟩ := Option.map_eq_some_iff.1 ((member?_rebind ins').symm.trans hm)
    refine ⟨m', ⟨key, b', hb', ins', hins', hm'⟩, ?_, rfl⟩
    cases hd : p.members.find? m'.toSignature with
    | none => rfl
    | some d => exact (toSignature_of_lastDeclared? (hp.last _ ▸ hd)).symm
  intro m hm other hother hsame
  obtain ⟨m', hm', hsig, rfl⟩ := hfrom m hm
  obtain ⟨other', hother', hsig', rfl⟩ := hfrom other hother
  rw [h hm' hother' (hsig.trans (hsame.trans hsig'.symm))]

end Program

end StubClosure
