import Mathlib.Data.List.Nodup
import StubClosure.Proofs.Program.Change

/-!
# Consistent programs

A program keeps the same facts in several places. A nested type is defined, and listed with the type around it; a method stands in its type's definition, in the table of members and, if it has a body, there as well. `Consistent` says that these places agree. A step that fails can put them at odds (a type may be listed and not defined), but steps that succeed keep them in agreement, so a program that comes about by such steps alone is consistent (`CleanlyBuilt.consistent`). Each kind of step is taken apart into the small changes that it makes.
-/

namespace StubClosure

open Step

namespace Program

/-- The methods that a type declares. -/
def methodsOf (p : Program) (t : TypeId) : List Member := ((p.type? t).map TypeDef.methods).getD []

/-- What is executed of each body, under the signature of its method. -/
def code (p : Program) : List (Signature × List Instruction × List TypeId) :=
  p.bodies.entries.map fun entry => (entry.1, entry.2.instructions, entry.2.locals)

/-- Each nested type is listed once, with the type around it, and nothing else is listed. -/
structure ListsNested (p : Program) : Prop where
  around : ∀ t outer, p.defines t = true → t.outer? = some outer →
    p.defines outer = true ∧ (p.nestedOf outer).count t = 1
  nested : ∀ outer t, t ∈ p.nestedOf outer → p.defines t = true ∧ t.outer? = some outer

/-- The places in which a program keeps one fact agree. -/
structure Consistent (p : Program) : Prop extends ListsNested p where
  owned : ∀ t, ∀ m ∈ p.methodsOf t, m.owner = t ∧ m.kind = .method
  distinct : ∀ t, ((p.methodsOf t).map (·.toSignature)).Nodup
  entered : ∀ t, ∀ m ∈ p.methodsOf t, p.members.find? m.toSignature = some m
  bodied : ∀ t, ∀ m ∈ p.methodsOf t, ∀ b, p.body? m = some b → b.method = m
  declared : ∀ key b, p.bodies.find? key = some b → ∃ m ∈ p.methodsOf key.owner, m.toSignature = key

/-- The program comes about by steps of building none of which fails. -/
inductive CleanlyBuilt : Program → Prop where
  | new (name : String) : CleanlyBuilt { name }
  | step {p : Program} (hp : CleanlyBuilt p) (step : BuildStep) (h : step.outcome p = .ok ()) :
    CleanlyBuilt (step.after p)

theorem CleanlyBuilt.built {p : Program} (hp : p.CleanlyBuilt) : p.Built := by
  induction hp with
  | new name => exact .new name
  | step _ step _ ih => exact ih.step step

theorem consistent_new (name : String) : Consistent { name } where
  around := by
    intro t outer h
    cases h
  nested := by
    intro outer t h
    cases h
  owned := by
    intro t m h
    cases h
  distinct := by
    intro t
    exact List.nodup_nil
  entered := by
    intro t m h
    cases h
  bodied := by
    intro t m h
    cases h
  declared := by
    intro key b h
    cases h

/-! ## What is listed with a type -/

section
variable {p q : Program} {t owner : TypeId}

theorem methodsOf_eq {d : TypeDef} (h : p.type? t = some d) : p.methodsOf t = d.methods := by
  simp [methodsOf, h]

theorem methodsOf_of_not_defines (h : p.defines t = false) : p.methodsOf t = [] := by
  unfold methodsOf
  rw [show p.type? t = none from Option.not_isSome_iff_eq_none.1 (Bool.eq_false_iff.1 h)]
  rfl

theorem nestedOf_of_not_defines (h : p.defines t = false) : p.nestedOf t = [] := by
  unfold nestedOf
  rw [show p.type? t = none from Option.not_isSome_iff_eq_none.1 (Bool.eq_false_iff.1 h)]
  rfl

theorem nestedOf_modifyType {change : TypeDef → TypeDef} (hc : ∀ d, (change d).nested = d.nested) :
    (p.modifyType owner change).nestedOf t = p.nestedOf t := by
  unfold nestedOf
  rw [type?_modifyType]
  split
  next he =>
    rw [he, Option.map_map, show TypeDef.nested ∘ change = TypeDef.nested from funext hc]
  · rfl

theorem methodsOf_modifyType {change : TypeDef → TypeDef} (hc : ∀ d, (change d).methods = d.methods) :
    (p.modifyType owner change).methodsOf t = p.methodsOf t := by
  unfold methodsOf
  rw [type?_modifyType]
  split
  next he =>
    rw [he, Option.map_map, show TypeDef.methods ∘ change = TypeDef.methods from funext hc]
  · rfl

theorem methodsOf_modifyType_self {change : TypeDef → TypeDef} (edit : List Member → List Member)
    (hc : ∀ d, (change d).methods = edit d.methods) (hd : p.defines owner = true) :
    (p.modifyType owner change).methodsOf t = if t = owner then edit (p.methodsOf owner) else p.methodsOf t := by
  obtain ⟨d, hd⟩ := exists_type?_of_defines hd
  split
  next he =>
    rw [he, methodsOf_eq hd, ← hc d]
    apply methodsOf_eq
    rw [type?_modifyType, if_pos rfl, hd]
    rfl
  next he =>
    unfold methodsOf
    rw [type?_modifyType, if_neg he]

end

/-! ## The small changes -/

section
variable {p q : Program} {t owner outer : TypeId} {m : Member}

theorem ListsNested.modifyType (hp : p.ListsNested) (owner : TypeId) {change : TypeDef → TypeDef}
    (hc : ∀ d, (change d).nested = d.nested) : (p.modifyType owner change).ListsNested where
  around := by
    intro t outer hd ho
    rw [defines_modifyType] at hd ⊢
    rw [nestedOf_modifyType hc]
    exact hp.around t outer hd ho
  nested := by
    intro outer t h
    rw [nestedOf_modifyType hc] at h
    rw [defines_modifyType]
    exact hp.nested outer t h

theorem ListsNested.addType (hp : p.ListsNested) (hnew : p.defines t = false)
    (ho : ∀ outer, t.outer? = some outer → p.defines outer = true)
    (hdef : ∀ other, q.defines other = true ↔ other = t ∨ p.defines other = true)
    (hn : ∀ other, q.nestedOf other = if t.outer? = some other then p.nestedOf other ++ [t] else p.nestedOf other) :
    q.ListsNested where
  around := by
    intro other outer hd hoo
    rw [hdef, hn]
    rcases (hdef other).1 hd with rfl | hd
    · -- it was not listed before, for what is listed is defined
      have hnot : other ∉ p.nestedOf outer := by
        intro hmem
        rw [(hp.nested outer other hmem).1] at hnew
        cases hnew
      refine ⟨.inr (ho outer hoo), ?_⟩
      rw [if_pos hoo, List.count_append, List.count_eq_zero.2 hnot, List.count_singleton_self]
    · obtain ⟨hdo, hcount⟩ := hp.around other outer hd hoo
      have hne : t ≠ other := by
        rintro rfl
        rw [hnew] at hd
        cases hd
      refine ⟨.inr hdo, ?_⟩
      split
      · rw [List.count_append, hcount, List.count_eq_zero.2 (by simpa using hne.symm)]
      · exact hcount
  nested := by
    intro outer other h
    rw [hdef]
    rw [hn] at h
    split at h
    next hto =>
      rcases List.mem_append.1 h with h | h
      · exact (hp.nested outer other h).imp .inr id
      · obtain rfl := List.mem_singleton.1 h
        exact ⟨.inl rfl, hto⟩
    · exact (hp.nested outer other h).imp .inr id

theorem Consistent.of_methods (hp : p.Consistent) (hq : q.ListsNested) (hm : ∀ t, q.methodsOf t = p.methodsOf t)
    (hent : ∀ s : Signature, s.kind = .method → q.members.find? s = p.members.find? s) (hb : q.bodies = p.bodies) :
    q.Consistent := by
  refine ⟨hq, ?_, ?_, ?_, ?_, ?_⟩
  · intro t
    rw [hm]
    exact hp.owned t
  · intro t
    rw [hm]
    exact hp.distinct t
  · intro t m hmem
    rw [hm] at hmem
    rw [hent _ (hp.owned t m hmem).2]
    exact hp.entered t m hmem
  · intro t m hmem b h
    rw [hm] at hmem
    apply hp.bodied t m hmem b
    rwa [body?, hb] at h
  · intro key b h
    rw [hm]
    rw [hb] at h
    exact hp.declared key b h

/-- A field or property may be entered, and the definition of its type changed, but for nested types and methods. -/
theorem Consistent.enter (hp : p.Consistent) {change : TypeDef → TypeDef} (hn : ∀ d, (change d).nested = d.nested)
    (hm : ∀ d, (change d).methods = d.methods) {m : Member} (hk : m.kind ≠ .method) :
    ((p.modifyType owner change).enter m).Consistent := by
  have hlists := hp.toListsNested.modifyType owner hn
  refine hp.of_methods ⟨hlists.around, hlists.nested⟩ (fun t => methodsOf_modifyType hm) ?_ rfl
  intro s hs
  refine (Table.find?_insert p.members m.toSignature m s).trans (if_neg ?_)
  rintro rfl
  exact hk hs

theorem nestedOf_define {d : TypeDef} (hnew : p.defines t = false) (hd : d.nested = []) (other : TypeId) :
    (p.define t d).nestedOf other = p.nestedOf other := by
  by_cases he : other = t
  · rw [he, nestedOf_of_not_defines hnew, ← hd]
    apply nestedOf_eq
    rw [type?_define, if_pos rfl]
  · unfold nestedOf
    rw [type?_define, if_neg he]

theorem methodsOf_define {d : TypeDef} (hnew : p.defines t = false) (hd : d.methods = []) (other : TypeId) :
    (p.define t d).methodsOf other = p.methodsOf other := by
  by_cases he : other = t
  · rw [he, methodsOf_of_not_defines hnew, ← hd]
    apply methodsOf_eq
    rw [type?_define, if_pos rfl]
  · unfold methodsOf
    rw [type?_define, if_neg he]

theorem Consistent.define (hp : p.Consistent) (hnew : p.defines t = false) (ho : t.outer? = none) {d : TypeDef}
    (hn : d.nested = []) (hm : d.methods = []) : (p.define t d).Consistent := by
  refine hp.of_methods (hp.addType hnew ?_ (defines_define_iff d) ?_) (methodsOf_define hnew hm) (fun _ _ => rfl) rfl
  · intro outer h
    cases ho.symm.trans h
  · intro other
    rw [nestedOf_define hnew hn, if_neg (by simp [ho])]

theorem Consistent.defineInner (hp : p.Consistent) (hnew : p.defines t = false) (ho : t.outer? = some outer)
    (hdo : p.defines outer = true) {d : TypeDef} (hn : d.nested = []) (hm : d.methods = []) :
    ((p.listNested outer t).define t d).Consistent := by
  have hnew' : (p.listNested outer t).defines t = false := (defines_listNested outer t t).trans hnew
  refine hp.of_methods (hp.addType hnew ?_ ?_ ?_) ?_ (fun _ _ => rfl) rfl
  · intro other h
    obtain rfl := Option.some.inj (ho.symm.trans h)
    exact hdo
  · intro other
    rw [defines_define_iff, defines_listNested]
  · intro other
    rw [nestedOf_define hnew' hn, ho]
    split
    next he =>
      obtain rfl := Option.some.inj he
      exact nestedOf_listNested hdo
    next hne =>
      unfold nestedOf
      rw [listNested, type?_modifyType, if_neg fun he => hne (congrArg some he.symm)]
  · intro other
    rw [methodsOf_define hnew' hm]
    exact methodsOf_modifyType fun _ => rfl

theorem methodsOf_declare (hd : p.defines owner = true) (m : Member) (t : TypeId) :
    (p.declare owner m).methodsOf t = if t = owner then p.methodsOf owner ++ [m] else p.methodsOf t :=
  methodsOf_modifyType_self (t := t) (· ++ [m]) (fun _ => rfl) hd

theorem mem_methodsOf_declare (hd : p.defines owner = true) {other : Member} :
    other ∈ (p.declare owner m).methodsOf t ↔ other ∈ p.methodsOf t ∨ t = owner ∧ other = m := by
  rw [methodsOf_declare hd]
  split
  next he =>
    rw [List.mem_append, List.mem_singleton, he]
    simp
  next he => simp [he]

theorem listsNested_declare (hp : p.ListsNested) : (p.declare owner m).ListsNested := by
  have hlists : (p.modifyType owner fun d => { d with methods := d.methods ++ [m] }).ListsNested :=
    hp.modifyType owner fun _ => rfl
  exact ⟨hlists.around, hlists.nested⟩

theorem Consistent.ne_of_new (hp : p.Consistent) (hnew : p.members.contains m.toSignature = false) {other : Member}
    (h : other ∈ p.methodsOf t) : other.toSignature ≠ m.toSignature := by
  intro he
  have hfound := hp.entered t other h
  rw [he] at hfound
  have hold : p.members.contains m.toSignature = true := congrArg Option.isSome hfound
  rw [hnew] at hold
  cases hold

theorem Consistent.declare (hp : p.Consistent) (hd : p.defines owner = true) (ho : m.owner = owner)
    (hk : m.kind = .method) (hnew : p.members.contains m.toSignature = false) : (p.declare owner m).Consistent := by
  refine ⟨listsNested_declare hp.toListsNested, ?_, ?_, ?_, ?_, ?_⟩
  · intro t other h
    rcases (mem_methodsOf_declare hd).1 h with h | ⟨rfl, rfl⟩
    · exact hp.owned t other h
    · exact ⟨ho, hk⟩
  · intro t
    rw [methodsOf_declare hd]
    split
    · rw [List.map_append, List.map_singleton, List.nodup_append]
      refine ⟨hp.distinct owner, by simp, ?_⟩
      rintro s hs _ hm rfl
      obtain ⟨other, hother, rfl⟩ := List.mem_map.1 hs
      exact hp.ne_of_new hnew hother (List.mem_singleton.1 hm)
    · exact hp.distinct t
  · intro t other h
    rw [show (p.declare owner m).members = p.members.insert m.toSignature m from rfl, Table.find?_insert]
    rcases (mem_methodsOf_declare hd).1 h with h | ⟨-, rfl⟩
    · rw [if_neg (hp.ne_of_new hnew h)]
      exact hp.entered t other h
    · rw [if_pos rfl]
  · intro t other h b hb
    rcases (mem_methodsOf_declare hd).1 h with h | ⟨rfl, rfl⟩
    · exact hp.bodied t other h b hb
    · obtain ⟨old, hold, he⟩ := hp.declared other.toSignature b hb
      exact absurd he (hp.ne_of_new hnew hold)
  · intro key b hb
    obtain ⟨other, h, he⟩ := hp.declared key b hb
    exact ⟨other, (mem_methodsOf_declare hd).2 (.inl h), he⟩

theorem Consistent.setBody (hp : p.Consistent) {b : Body} (hb : b.method ∈ p.methodsOf owner) :
    (p.setBody b).Consistent := by
  refine ⟨⟨hp.around, hp.nested⟩, hp.owned, hp.distinct, hp.entered, ?_, ?_⟩
  · intro t other h b' hb'
    rw [body?, find?_setBody] at hb'
    split at hb'
    next he =>
      obtain rfl := Option.some.inj hb'
      -- both are what the table of members holds for the signature
      have hother := hp.entered t other h
      rw [he, hp.entered owner b.method hb] at hother
      exact Option.some.inj hother
    · exact hp.bodied t other h b' hb'
  · intro key b' hb'
    rw [find?_setBody] at hb'
    split at hb'
    next he =>
      refine ⟨b.method, ?_, he.symm⟩
      rw [he, (hp.owned owner b.method hb).1]
      exact hb
    · exact hp.declared key b' hb'

theorem map_toSignature_set {methods : List Member} {place : Nat} (hm : methods[place]? = some m) (role : Role) :
    (methods.set place (m.withRole role)).map (·.toSignature) = methods.map (·.toSignature) := by
  apply List.ext_getElem?
  intro i
  rw [List.map_set, List.getElem?_set]
  split
  next he =>
    have hlt : place < methods.length := (List.getElem?_eq_some_iff.1 hm).1
    rw [← he, if_pos (by simpa using hlt), List.getElem?_map, hm]
    rfl
  · rfl

theorem mem_set_of_nodup {methods : List Member} (hn : (methods.map (·.toSignature)).Nodup) {place : Nat}
    (hm : methods[place]? = some m) {bound other : Member} (h : other ∈ methods.set place bound) :
    other = bound ∨ other ∈ methods ∧ other.toSignature ≠ m.toSignature := by
  obtain ⟨i, hi⟩ := List.mem_iff_getElem?.1 h
  by_cases he : place = i
  · subst he
    rw [List.getElem?_set_self (List.getElem?_eq_some_iff.1 hm).1] at hi
    exact .inl (Option.some.inj hi).symm
  · rw [List.getElem?_set_ne he] at hi
    refine .inr ⟨List.mem_of_getElem? hi, fun hs => he ?_⟩
    have hlt : place < methods.length := (List.getElem?_eq_some_iff.1 hm).1
    apply (List.getElem?_inj (by simpa using hlt) hn).1
    rw [List.getElem?_map, List.getElem?_map, hi, hm]
    exact congrArg some hs.symm

section
variable {d : TypeDef} {place : Nat} (hd : p.type? owner = some d) (hm : d.methods[place]? = some m) (role : Role)
include hd

theorem methodsOf_setMethod (place : Nat) (bound : Member) (t : TypeId) :
    (p.setMethod owner place bound).methodsOf t =
      if t = owner then (p.methodsOf owner).set place bound else p.methodsOf t :=
  methodsOf_modifyType_self (t := t) (·.set place bound) (fun _ => rfl) (defines_of_type? hd)

include hm

theorem map_toSignature_setMethod (t : TypeId) :
    ((p.setMethod owner place (m.withRole role)).methodsOf t).map (·.toSignature) =
      (p.methodsOf t).map (·.toSignature) := by
  rw [← methodsOf_eq hd] at hm
  rw [methodsOf_setMethod hd]
  split
  next he => rw [he, map_toSignature_set hm]
  · rfl

theorem Consistent.mem_methodsOf_setMethod (hp : p.Consistent) {role : Role} {other : Member}
    (h : other ∈ (p.setMethod owner place (m.withRole role)).methodsOf t) :
    t = owner ∧ other = m.withRole role ∨ other ∈ p.methodsOf t ∧ other.toSignature ≠ m.toSignature := by
  rw [← methodsOf_eq hd] at hm
  rw [methodsOf_setMethod hd] at h
  split at h
  next he =>
    rcases mem_set_of_nodup (hp.distinct owner) hm h with h | ⟨h, hne⟩
    · exact .inl ⟨he, h⟩
    · exact .inr ⟨he ▸ h, hne⟩
  next hne =>
    refine .inr ⟨h, fun hs => hne ?_⟩
    rw [← (hp.owned t other h).1, ← (hp.owned owner m (List.mem_of_getElem? hm)).1, hs]

/-- A method is put in the place of one that differs from it in the role alone. -/
theorem Consistent.setMethod (hp : p.Consistent) : (p.setMethod owner place (m.withRole role)).Consistent := by
  have hlists : (p.modifyType owner fun d => { d with methods := d.methods.set place (m.withRole role) }).ListsNested :=
    hp.toListsNested.modifyType owner fun _ => rfl
  refine ⟨⟨hlists.around, hlists.nested⟩, ?_, ?_, ?_, ?_, ?_⟩
  · intro t other h
    rcases hp.mem_methodsOf_setMethod hd hm h with ⟨rfl, rfl⟩ | ⟨h, -⟩
    · exact hp.owned t m (methodsOf_eq hd ▸ List.mem_of_getElem? hm)
    · exact hp.owned t other h
  · intro t
    rw [map_toSignature_setMethod hd hm]
    exact hp.distinct t
  · intro t other h
    rw [show (p.setMethod owner place (m.withRole role)).members =
      p.members.insert m.toSignature (m.withRole role) from rfl, Table.find?_insert]
    rcases hp.mem_methodsOf_setMethod hd hm h with ⟨-, rfl⟩ | ⟨h, hne⟩
    · exact if_pos rfl
    · rw [if_neg hne]
      exact hp.entered t other h
  · intro t other h b hb
    rw [body?, find?_bodies_setMethod, Member.toSignature_withRole] at hb
    rcases hp.mem_methodsOf_setMethod hd hm h with ⟨-, rfl⟩ | ⟨h, hne⟩
    · rw [if_pos (Member.toSignature_withRole m role)] at hb
      obtain ⟨b', -, rfl⟩ := Option.map_eq_some_iff.1 hb
      rfl
    · rw [if_neg hne] at hb
      exact hp.bodied t other h b hb
  · intro key b hb
    have hold : ∃ b', p.bodies.find? key = some b' := by
      rw [find?_bodies_setMethod] at hb
      split at hb
      next he =>
        obtain ⟨b', hb', -⟩ := Option.map_eq_some_iff.1 hb
        exact ⟨b', he ▸ hb'⟩
      · exact ⟨b, hb⟩
    obtain ⟨b', hb'⟩ := hold
    obtain ⟨other, h, he⟩ := hp.declared key b' hb'
    have hkey : key ∈ ((p.setMethod owner place (m.withRole role)).methodsOf key.owner).map (·.toSignature) := by
      rw [map_toSignature_setMethod hd hm]
      exact List.mem_map.2 ⟨other, h, he⟩
    exact List.mem_map.1 hkey

end

theorem Consistent.resolveOperands (hp : p.Consistent) : p.resolveOperands.Consistent := by
  refine ⟨⟨hp.around, hp.nested⟩, hp.owned, hp.distinct, hp.entered, ?_, ?_⟩
  · intro t m h b hb
    obtain ⟨b', hb', rfl⟩ := Option.map_eq_some_iff.1 ((find?_resolveOperands m.toSignature).symm.trans hb)
    exact hp.bodied t m h b' hb'
  · intro key b hb
    obtain ⟨b', hb', -⟩ := Option.map_eq_some_iff.1 ((find?_resolveOperands key).symm.trans hb)
    exact hp.declared key b' hb'

theorem code_setMethod (owner : TypeId) (place : Nat) (m : Member) : (p.setMethod owner place m).code = p.code :=
  Table.map_modify (fun b : Body => (b.instructions, b.locals)) (fun b => { b with method := m }) (fun _ => rfl)
    p.bodies m.toSignature

end

end Program

/-! ## Every step -/

namespace Build

variable {p : Program}

/-- If the work succeeds, it leaves a consistent program. -/
abbrev EndsConsistent {α : Type} (work : Build α) (p : Program) : Prop :=
  Ends work p fun outcome after => ∀ a, outcome = .ok a → after.Consistent

theorem endsConsistent_forget {α : Type} {work : Build α} (h : EndsConsistent work p) :
    EndsConsistent (do let _ ← work) p := by
  apply Ends.forget
  refine h.mono fun outcome after hafter u hu => ?_
  cases outcome with
  | error e => cases hu
  | ok a => exact hafter a rfl

theorem consistent_addType (hp : p.Consistent) (arg : TypeArg) (base : Option TypeArg) (interfaces : List TypeArg)
    (isPublic : Bool) : EndsConsistent (addType arg base interfaces isPublic) p := by
  unfold EndsConsistent Ends
  rcases run_addType_cases p arg base interfaces isPublic with
    ⟨e, hrun⟩ | ⟨t, outer, hadds, hrun⟩ | ⟨t, -, hnew, ho, hrun⟩ <;> rw [hrun]
  · intro a ha
    cases ha
  · rcases run_defineType_cases t base interfaces isPublic with ⟨-, e, hdefine⟩ | ⟨-, found, others, hdefine⟩ <;>
      rw [hdefine] <;> intro a ha
    · cases ha
    · exact hp.defineInner hadds.isNew hadds.isInner hadds.around rfl rfl
  · rcases run_defineType_cases t base interfaces isPublic with ⟨-, e, hdefine⟩ | ⟨-, found, others, hdefine⟩ <;>
      rw [hdefine] <;> intro a ha
    · cases ha
    · exact hp.define hnew ho rfl rfl

theorem consistent_addField (hp : p.Consistent) (owner : TypeId) (name : String) (fieldType : TypeArg)
    (isStatic : Bool) : EndsConsistent (addField owner name fieldType isStatic) p := by
  unfold addField
  apply (reads_require owner).ends_bind (fun _ _ _ => hp)
  intro _ _
  apply (reads_type fieldType).ends_bind (fun _ _ _ => hp)
  intro t _
  simp only [ends_modify_bind, ends_pure]
  intro _ _
  apply hp.enter
  · exact fun _ => rfl
  · exact fun _ => rfl
  · simp [Member.field]

theorem consistent_addMethod (hp : p.Consistent) (owner : TypeId) (new : NewMethod) :
    EndsConsistent (addMethod owner new) p := by
  unfold EndsConsistent Ends
  rcases run_addMethod_cases p owner new with ⟨e, hrun⟩ | ⟨m, hadds, hnew, hrun⟩ <;> rw [hrun]
  · intro a ha
    cases ha
  · have hkind : m.kind = .method := by
      obtain ⟨params, returns, -, -, rfl⟩ := hadds.makes
      rfl
    have hdeclared := hp.declare hadds.owned hadds.makes.owner_eq hkind hnew
    rcases run_giveBody_cases m new with ⟨-, e, hgive⟩ | ⟨-, hgive⟩
    · rw [hgive]
      intro a ha
      cases ha
    · obtain ⟨q, hgive, rfl | ⟨instructions, locals, -, rfl⟩⟩ := hgive (p.declare owner m) <;> rw [hgive] <;> intro _ _
      · exact hdeclared
      · have hmem : m ∈ (p.declare owner m).methodsOf owner :=
          (Program.mem_methodsOf_declare hadds.owned).2 (.inr ⟨rfl, rfl⟩)
        exact hdeclared.setBody hmem

theorem consistent_accessor (hp : p.Consistent) (owner : TypeId) (arg : Option AccessorArg) (role : Role) :
    Ends (accessor owner arg role) p fun _ after => after.Consistent ∧ after.code = p.code := by
  cases arg with
  | none => exact ⟨hp, rfl⟩
  | some arg =>
    show (p.bindAccessor owner arg role).2.Consistent ∧ (p.bindAccessor owner arg role).2.code = p.code
    rw [Program.bindAccessor_eq]
    cases hfound : (p.type? owner).bind (·.accessor? arg) with
    | none => exact ⟨hp, rfl⟩
    | some found =>
      obtain ⟨d, hd, ha⟩ := Option.bind_eq_some_iff.1 hfound
      exact ⟨hp.setMethod hd (TypeDef.getElem?_of_accessor? ha) role, Program.code_setMethod _ _ _⟩

theorem consistent_addProperty (hp : p.Consistent) (owner : TypeId) (name : String) (propertyType : TypeArg)
    (getter setter : Option AccessorArg) : Ends (addProperty owner name propertyType getter setter) p
      fun _ after => after.Consistent ∧ after.code = p.code := by
  unfold addProperty
  apply (reads_require owner).ends_bind (fun _ => ⟨hp, rfl⟩)
  intro _ _
  apply (reads_type propertyType).ends_bind (fun _ => ⟨hp, rfl⟩)
  intro t _
  apply (consistent_accessor hp owner getter .getter).bind (fun _ _ h => h)
  rintro getter q ⟨hq, hcode⟩
  apply (consistent_accessor hq owner setter .setter).bind (fun _ _ h => ⟨h.1, h.2.trans hcode⟩)
  rintro setter r ⟨hr, hcode'⟩
  simp only [ends_modify_bind, ends_pure]
  refine ⟨?_, hcode'.trans hcode⟩
  apply hr.enter
  · exact fun _ => rfl
  · exact fun _ => rfl
  · simp [Member.property]

end Build

namespace BuildStep

variable {p : Program}

theorem consistent_after (hp : p.Consistent) {step : BuildStep} (h : step.outcome p = .ok ()) :
    (step.after p).Consistent := by
  have hends : Build.EndsConsistent step.perform p := by
    cases step with
    | type arg base interfaces isPublic =>
      exact Build.endsConsistent_forget (Build.consistent_addType hp arg base interfaces isPublic)
    | field owner name fieldType isStatic =>
      exact Build.endsConsistent_forget (Build.consistent_addField hp owner name fieldType isStatic)
    | method owner new => exact Build.endsConsistent_forget (Build.consistent_addMethod hp owner new)
    | property owner name propertyType getter setter =>
      have hends := Build.consistent_addProperty hp owner name propertyType getter setter
      exact Build.endsConsistent_forget (hends.mono fun _ _ h _ _ => h.1)
    | operands => exact fun _ _ => hp.resolveOperands
  exact hends () h

theorem code_after_property (hp : p.Consistent) (owner : TypeId) (name : String) (propertyType : TypeArg)
    (getter setter : Option AccessorArg) : ((property owner name propertyType getter setter).after p).code = p.code := by
  have hends : Ends (property owner name propertyType getter setter).perform p fun _ after => after.code = p.code :=
    Ends.forget ((Build.consistent_addProperty hp owner name propertyType getter setter).mono fun _ _ h => h.2)
  exact hends

end BuildStep

namespace Program

theorem CleanlyBuilt.keeps {p : Program} (hp : p.CleanlyBuilt) : p.Consistent := by
  induction hp with
  | new name => exact consistent_new name
  | step _ step h ih => exact BuildStep.consistent_after ih h

/-- **Programs built without a failure are consistent.** Every definition stands under its own identity. Each nested type has the type around it defined and is listed there once, and nothing else is listed. The methods of a type are its own and have distinct signatures; for each of them the definition, the table of members and the body hold the same method, with the same role and flag; and every body is that of a declared method. Adding a property, which binds its accessors, leaves what the bodies execute exactly as it was. -/
theorem CleanlyBuilt.consistent {p : Program} (hp : p.CleanlyBuilt) :
    (∀ t d, p.type? t = some d → d.id = t) ∧ p.Consistent ∧
      ∀ owner name propertyType getter setter,
        ((BuildStep.property owner name propertyType getter setter).after p).code = p.code := by
  refine ⟨fun t d hd => (hp.built.coherent.type t d hd).id_eq, hp.keeps, ?_⟩
  intro owner name propertyType getter setter
  exact BuildStep.code_after_property hp.keeps owner name propertyType getter setter

end Program

namespace Zoo

/-- A type in `Dog`. -/
def kennel : TypeId := .inner dog "" "Kennel" 0

/-- `Foo.Make` becomes the getter of a property. -/
def naming : BuildStep := .property foo "Name" (.id dog) (some (.name "Make")) none

/-- The zoo with a `Kennel` in `Dog`. -/
def withKennel : Program := (BuildStep.type (.id kennel) none [] true).after program

theorem cleanlyBuilt : program.CleanlyBuilt := by
  apply Program.CleanlyBuilt.step _ _ (by decide)
  apply Program.CleanlyBuilt.step _ _ (by decide)
  apply Program.CleanlyBuilt.step _ _ (by decide)
  apply Program.CleanlyBuilt.step _ _ (by decide)
  apply Program.CleanlyBuilt.step _ _ (by decide)
  apply Program.CleanlyBuilt.step _ _ (by decide)
  exact Program.CleanlyBuilt.new "zoo"

theorem cleanlyBuilt_withKennel : withKennel.CleanlyBuilt := cleanlyBuilt.step _ (by decide)

end Zoo

/-- In the zoo, a `Kennel` is listed once, and `Foo.Make` is a getter wherever it is kept, with the body that it had. -/
theorem Program.CleanlyBuilt.consistent_zoo :
    Zoo.withKennel.CleanlyBuilt ∧ (Zoo.withKennel.nestedOf Zoo.dog).count Zoo.kennel = 1 ∧
    (Zoo.naming.after Zoo.withKennel).CleanlyBuilt ∧ (Zoo.naming.after Zoo.withKennel).Consistent ∧
    (Zoo.naming.after Zoo.withKennel).methodsOf Zoo.foo = [Zoo.make.method.withRole .getter] ∧
    (Zoo.naming.after Zoo.withKennel).code = Zoo.withKennel.code := by
  have hnamed : (Zoo.naming.after Zoo.withKennel).CleanlyBuilt := Zoo.cleanlyBuilt_withKennel.step _ (by decide)
  obtain ⟨-, hconsistent, hcode⟩ := Program.CleanlyBuilt.consistent Zoo.cleanlyBuilt_withKennel
  obtain ⟨-, hnamed', -⟩ := Program.CleanlyBuilt.consistent hnamed
  refine ⟨Zoo.cleanlyBuilt_withKennel, ?_, hnamed, hnamed', by decide, hcode _ _ _ _ _⟩
  exact (hconsistent.around Zoo.kennel Zoo.dog (by decide) rfl).2

end StubClosure
