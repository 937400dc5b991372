import StubClosure.Proofs.Listing.Names
import StubClosure.Proofs.Program.Commuting

/-!
# Listings in another order

The top-level types of a listing may change places. If their names have no slash in them, then each is declared and filled in without a look at the others, so the steps that are asked for at one type may be taken before or after those of another (`free_typeOffers`, `free_fillOffers`). Two declarations of one type fail in either order. Where a declaration stands matters for reports only: no step depends on it. So a listing loads if and only if it loads in any other order, and what is loaded is the same but for the order of its tables (`sameOn_of_load`).
-/

namespace StubClosure

/-- The outermost of the types around a type. -/
def TypeId.root : TypeId → TypeId
  | .top space name arity => .top space name arity
  | .inner outer .. => outer.root

namespace Listing

open Program

variable {file : Option String} {p q : Program}

/-! ## Steps apart from their places -/

section
variable {ε ε' α β : Type}

theorem toOption_bind (x : Except ε α) (next : α → Except ε β) :
    (x >>= next).toOption = x.toOption.bind fun a => (next a).toOption := by
  cases x <;> rfl

theorem toOption_mapError (f : ε → ε') (x : Except ε α) : (x.mapError f).toOption = x.toOption := by
  cases x <;> rfl

theorem toOption_mapM (f : α → Except ε β) (as : List α) :
    (as.mapM f).toOption = as.mapM fun a => (f a).toOption := by
  induction as with
  | nil => rfl
  | cons a rest ih =>
    rw [List.mapM_cons, List.mapM_cons, toOption_bind, ← ih]
    refine Option.bind_congr fun b _ => ?_
    rw [toOption_bind]
    rfl

theorem toOption_optionMapM (f : α → Except ε β) (a : Option α) :
    (a.mapM f).toOption = a.mapM fun a => (f a).toOption := by
  cases a with
  | none => rfl
  | some a =>
    rw [optionMapM_some, toOption_bind]
    show _ = some <$> (f a).toOption
    cases f a <;> rfl

end

/-- The step that a call makes, if it comes to one. -/
def Call.offer (c : Call) : Option BuildStep := c.step.toOption

theorem Call.offer_eq_some_iff {c : Call} {step : BuildStep} : c.offer = some step ↔ c.step = .ok step := by
  unfold offer
  cases c.step with
  | error e => exact ⟨by rintro ⟨⟩, by rintro ⟨⟩⟩
  | ok found =>
    show some found = some step ↔ Except.ok found = Except.ok step
    rw [Option.some.injEq, Except.ok.injEq]

theorem toOption_namedAt {α : Type} (position : Position) (named : Except TypeNameError α) :
    (namedAt file position named).toOption = named.toOption := by
  unfold namedAt located orFault
  rw [toOption_mapError, toOption_mapError]

theorem offer_headCall (outer : Option TypeId) (h : TypeHead) :
    (headCall file outer h).offer = (headCall none outer { h with position := {} }).offer := by
  unfold headCall Call.offer
  simp only [toOption_bind, toOption_namedAt, toOption_optionMapM, toOption_mapM]

theorem offer_fieldCall (owner : TypeId) (f : FieldDecl) :
    (fieldCall file owner f).offer = (fieldCall none owner { f with position := {} }).offer := by
  unfold fieldCall Call.offer
  simp only [toOption_bind, toOption_namedAt]

theorem offer_propertyCall (owner : TypeId) (d : PropertyDecl) :
    (propertyCall file owner d).offer = (propertyCall none owner { d with position := {} }).offer := by
  unfold propertyCall Call.offer
  simp only [toOption_bind, toOption_namedAt]
  rfl

theorem toOption_instructionOf (i : InstructionDecl) :
    (instructionOf file i).toOption = (instructionOf none i.bare).toOption := by
  unfold instructionOf located
  rw [toOption_mapError, toOption_mapError]
  rfl

theorem offer_methodCall (owner : TypeId) (m : MethodDecl) :
    (methodCall file owner m).offer = (methodCall none owner m.bare).offer := by
  have hlocals : localNames m.bare = localNames m := by
    unfold localNames MethodDecl.bare
    cases m.body <;> rfl
  have hbody : (m.bare.body.mapM fun body : BodyDecl => body.instructions.mapM (instructionOf none)).toOption =
      (m.body.mapM fun body : BodyDecl => body.instructions.mapM (instructionOf file)).toOption := by
    unfold MethodDecl.bare
    simp only [toOption_optionMapM, toOption_mapM]
    cases m.body with
    | none => rfl
    | some b =>
      show some <$> (b.instructions.map InstructionDecl.bare).mapM _ = some <$> b.instructions.mapM _
      rw [List.mapM_map]
      simp only [@toOption_instructionOf file, Function.comp_def]
  unfold methodCall Call.offer
  simp only [toOption_bind, toOption_namedAt, hlocals, hbody]
  rfl

mutual

theorem offers_typeCalls (outer : Option TypeId) (h : TypeHead) (members : List Decl) :
    (typeCalls file outer h members).map Call.offer =
      (typeCalls none outer { h with position := {} } (bareMembers members)).map Call.offer := by
  rw [typeCalls, typeCalls, List.map_cons, List.map_cons, offer_headCall]
  cases declaredId outer h.name with
  | error e => rfl
  | ok t => rw [offers_innerCalls t members]
termination_by (sizeOf members, 1)

theorem offers_innerCalls (owner : TypeId) (members : List Decl) :
    (innerCalls file owner members).map Call.offer =
      (innerCalls none owner (bareMembers members)).map Call.offer := by
  match members with
  | [] => rw [bareMembers, innerCalls, innerCalls]
  | .type h inner :: rest =>
    rw [bareMembers, Decl.bare, innerCalls, innerCalls, List.map_append, List.map_append,
      offers_typeCalls (some owner) h inner, offers_innerCalls owner rest]
  | .field _ :: rest =>
    rw [bareMembers, Decl.bare, innerCalls, innerCalls]
    exact offers_innerCalls owner rest
  | .property _ :: rest =>
    rw [bareMembers, Decl.bare, innerCalls, innerCalls]
    exact offers_innerCalls owner rest
  | .method _ :: rest =>
    rw [bareMembers, Decl.bare, innerCalls, innerCalls]
    exact offers_innerCalls owner rest
termination_by (sizeOf members, 0)

end

theorem offers_propertyCalls (owner : TypeId) (members : List Decl) :
    (propertyCalls file owner members).map Call.offer =
      (propertyCalls none owner (bareMembers members)).map Call.offer := by
  induction members with
  | nil => rfl
  | cons d rest ih =>
    cases d with
    | property d =>
      rw [bareMembers, Decl.bare, propertyCalls, propertyCalls, List.map_cons, List.map_cons, offer_propertyCall, ih]
    | field _ => exact ih
    | method _ => exact ih
    | type _ _ => exact ih

mutual

theorem offers_fillCalls (outer : Option TypeId) (h : TypeHead) (members : List Decl) :
    (fillCalls file outer h members).map Call.offer =
      (fillCalls none outer { h with position := {} } (bareMembers members)).map Call.offer := by
  rw [fillCalls, fillCalls]
  cases declaredId outer h.name with
  | error e => rfl
  | ok t =>
    dsimp only
    rw [List.map_append, List.map_append, offers_memberCalls t members, offers_propertyCalls]
termination_by (sizeOf members, 1)

theorem offers_memberCalls (owner : TypeId) (members : List Decl) :
    (memberCalls file owner members).map Call.offer =
      (memberCalls none owner (bareMembers members)).map Call.offer := by
  match members with
  | [] => rw [bareMembers, memberCalls, memberCalls]
  | .field f :: rest =>
    rw [bareMembers, Decl.bare, memberCalls, memberCalls, List.map_cons, List.map_cons, offer_fieldCall,
      offers_memberCalls owner rest]
  | .method m :: rest =>
    rw [bareMembers, Decl.bare, memberCalls, memberCalls, List.map_cons, List.map_cons, offer_methodCall,
      offers_memberCalls owner rest]
  | .type h inner :: rest =>
    rw [bareMembers, Decl.bare, memberCalls, memberCalls, List.map_append, List.map_append,
      offers_fillCalls (some owner) h inner, offers_memberCalls owner rest]
  | .property _ :: rest =>
    rw [bareMembers, Decl.bare, memberCalls, memberCalls]
    exact offers_memberCalls owner rest
termination_by (sizeOf members, 0)

end

/-- The steps that declare a type and those inside it. -/
def typeOffers (t : TypeDecl) : Offers := (typeCalls none none t.head t.members).map Call.offer

/-- The steps that fill in a type and those inside it. -/
def fillOffers (t : TypeDecl) : Offers := (fillCalls none none t.head t.members).map Call.offer

/-- The steps that load a listing, up to the resolution of operands. -/
def offers (types : List TypeDecl) : Offers := types.flatMap typeOffers ++ types.flatMap fillOffers

theorem map_offer_calls (types : List TypeDecl) :
    (calls file types).map Call.offer = offers (types.map TypeDecl.bare) := by
  have htype : ∀ t : TypeDecl, (typeCalls file none t.head t.members).map Call.offer = typeOffers t.bare :=
    fun t => offers_typeCalls none t.head t.members
  have hfill : ∀ t : TypeDecl, (fillCalls file none t.head t.members).map Call.offer = fillOffers t.bare :=
    fun t => offers_fillCalls none t.head t.members
  unfold calls offers
  simp only [List.map_append, List.map_flatMap, List.flatMap_map, htype, hfill]

theorem toOption_make (c : Call) : (c.make file p).toOption = c.offer.bind (·.next? p) := by
  unfold Call.make Call.offer
  rw [toOption_bind]
  cases c.step with
  | error e => rfl
  | ok step =>
    show (build file c.position p step.perform >>= _).toOption = step.next? p
    unfold build BuildStep.next? BuildStep.outcome BuildStep.after
    rw [show ∀ work : Build Unit, ExceptT.run work p = work.run.run p from fun _ => rfl]
    rcases step.perform.run.run p with ⟨e | a, after⟩ <;> rfl

theorem toOption_makeAll (list : List Call) :
    (makeAll file list p).toOption = takeAll? (list.map Call.offer) p := by
  induction list generalizing p with
  | nil => rfl
  | cons c rest ih =>
    rw [makeAll_cons, toOption_bind, toOption_make, List.map_cons, takeAll?_cons]
    exact Option.bind_congr fun q _ => ih

theorem toOption_elaborate (name : String) (types : List TypeDecl) : (elaborate file name types).toOption =
    (takeAll? (offers (types.map TypeDecl.bare)) { name }).map resolveOperands := by
  rw [elaborate_eq, ← @map_offer_calls file, ← toOption_makeAll]
  cases makeAll file (calls file types) { name } <;> rfl

/-- Places have no part in a program that can be built. -/
theorem elaborate_congr {file' : Option String} {name : String} {types types' : List TypeDecl} {p : Program}
    (h : elaborate file name types = .ok p) (htypes : types'.map TypeDecl.bare = types.map TypeDecl.bare) :
    elaborate file' name types' = .ok p := by
  have hoption : (elaborate file' name types').toOption = (elaborate file name types).toOption := by
    rw [toOption_elaborate, toOption_elaborate, htypes]
  rw [h] at hoption
  cases hmade : elaborate file' name types' with
  | ok q =>
    rw [hmade] at hoption
    exact congrArg Except.ok (Option.some.inj hoption)
  | error e =>
    rw [hmade] at hoption
    cases hoption

/-! ## Types that look at themselves alone -/

/-- The declared type and those inside it. -/
def TypeDecl.within (t : TypeDecl) : Set TypeId := {id | declaredId none t.head.name = .ok id.root}

theorem TypeDecl.closed_within (t : TypeDecl) : Closed t.within where
  inside := by
    intro outer simple id ho hn
    obtain ⟨name, arity, rfl, -⟩ := TypeId.nest_spec hn
    exact ho
  around := by
    rintro id hid outer ho
    cases id with
    | top => cases ho
    | inner other space name arity =>
      obtain rfl := Option.some.inj ho
      exact hid

/-- The type is declared under a name without a slash. -/
def TypeDecl.IsSlashless (t : TypeDecl) : Prop := '/' ∉ t.head.name.toList

instance (t : TypeDecl) : Decidable t.IsSlashless := inferInstanceAs (Decidable (_ ∉ _))

theorem TypeDecl.IsSlashless.mem_within {t : TypeDecl} (ht : t.IsSlashless) {id : TypeId}
    (h : declaredId none t.head.name = .ok id) : id ∈ t.within := by
  have houter := TypeId.outer?_of_parse ht h
  cases id with
  | top => exact h
  | inner => cases houter

theorem offersWithin_map {within : Set TypeId} {list : List Call} (h : ∀ c ∈ list, c.Within within) :
    Offers.Within within (list.map Call.offer) := by
  intro step hstep
  obtain ⟨c, hc, hoffer⟩ := List.mem_map.1 hstep
  exact h c hc step (Call.offer_eq_some_iff.1 hoffer)

section
variable {t other : TypeDecl} (ht : t.IsSlashless) (ho : other.IsSlashless)
include ht

theorem within_typeOffers : Offers.Within t.within (typeOffers t) :=
  offersWithin_map (within_typeCalls t.closed_within fun _ h => ht.mem_within h)

theorem within_fillOffers : Offers.Within t.within (fillOffers t) :=
  offersWithin_map (within_fillCalls t.closed_within fun _ h => ht.mem_within h)

end

/-- The types are not declared under one identity. -/
def Apart (t other : TypeDecl) : Prop :=
  ∀ id, declaredId none t.head.name = .ok id → declaredId none other.head.name ≠ .ok id

theorem Apart.within_subset {t other : TypeDecl} (h : Apart t other) : t.within ⊆ other.withinᶜ :=
  fun id hid ho => h id.root hid ho

theorem exists_of_offer_headCall {h : TypeHead} {id : TypeId} (hid : declaredId none h.name = .ok id)
    {step : BuildStep} (hs : (headCall file none h).offer = some step) :
    ∃ base interfaces isPublic, step = .type (.id id) base interfaces isPublic := by
  obtain ⟨t, ht, hs⟩ := exists_of_bind_eq_ok (Call.offer_eq_some_iff.1 hs)
  obtain ⟨base, -, hs⟩ := exists_of_bind_eq_ok hs
  obtain ⟨interfaces, -, hs⟩ := exists_of_bind_eq_ok hs
  obtain rfl := Except.ok.inj (hid.symm.trans (eq_of_namedAt ht))
  cases hs
  exact ⟨_, _, _, rfl⟩

theorem defines_of_takeAll?_typeOffers {t : TypeDecl} {id : TypeId} (hid : declaredId none t.head.name = .ok id)
    (h : takeAll? (typeOffers t) p = some q) : p.defines id = false ∧ q.defines id = true := by
  unfold typeOffers at h
  rw [typeCalls, List.map_cons, takeAll?_cons] at h
  obtain ⟨next, hnext, hrest⟩ := Option.bind_eq_some_iff.1 h
  obtain ⟨step, hoffer, hnext⟩ := Option.bind_eq_some_iff.1 hnext
  obtain ⟨base, interfaces, isPublic, rfl⟩ := exists_of_offer_headCall hid hoffer
  obtain ⟨hnew, hnow⟩ := defines_of_next?_type hnext
  exact ⟨hnew, defines_takeAll? hnow hrest⟩

/-- One type cannot be declared twice, so the declarations of a program that was loaded are apart. -/
theorem pairwise_apart {types : List TypeDecl} (h : takeAll? (types.flatMap typeOffers) p = some q) :
    types.Pairwise Apart := by
  induction types generalizing p with
  | nil => exact .nil
  | cons t rest ih =>
    rw [List.flatMap_cons, takeAll?_append] at h
    obtain ⟨next, hnext, hrest⟩ := Option.bind_eq_some_iff.1 h
    refine List.pairwise_cons.2 ⟨?_, ih hrest⟩
    intro other ho id hid hother
    obtain ⟨before, after, rfl⟩ := List.append_of_mem ho
    rw [List.flatMap_append, List.flatMap_cons, takeAll?_append] at hrest
    obtain ⟨between, hbefore, hrest⟩ := Option.bind_eq_some_iff.1 hrest
    rw [takeAll?_append] at hrest
    obtain ⟨last, hlast, -⟩ := Option.bind_eq_some_iff.1 hrest
    have hthere := defines_takeAll? (defines_of_takeAll?_typeOffers hid hnext).2 hbefore
    have hnew := (defines_of_takeAll?_typeOffers hother hlast).1
    cases hthere.symm.trans hnew

/-- The declarations of two types may change places. Those of one type fail in either order. -/
theorem free_typeOffers {t other : TypeDecl} (ht : t.IsSlashless) (ho : other.IsSlashless) :
    Free (typeOffers t) (typeOffers other) := by
  by_cases hapart : Apart t other
  · exact free_of_disjoint (within_typeOffers ht) (within_typeOffers ho) hapart.within_subset
  · have hfail : ∀ (first second : TypeDecl) (p : Program), ¬ Apart first second →
        takeAll? (typeOffers first ++ typeOffers second) p = none := by
      intro first second p hnot
      by_contra hsome
      obtain ⟨q, hq⟩ := Option.ne_none_iff_exists'.1 hsome
      apply hnot
      have hpair : [first, second].Pairwise Apart := pairwise_apart (p := p) (q := q) (by simpa using hq)
      exact (List.pairwise_cons.1 hpair).1 second List.mem_cons_self
    intro p _
    rw [hfail t other p hapart, hfail other t p fun h => hapart fun id hid ho => h id ho hid]
    exact .none

theorem free_fillOffers {t other : TypeDecl} (ht : t.IsSlashless) (ho : other.IsSlashless) (h : Apart t other) :
    Free (fillOffers t) (fillOffers other) :=
  free_of_disjoint (within_fillOffers ht) (within_fillOffers ho) h.within_subset

/-! ## Another order -/

/-- The steps of a listing come to the same in any order of its types. -/
theorem relOn_offers {types types' : List TypeDecl} (hperm : types.Perm types') (ht : ∀ t ∈ types, t.IsSlashless)
    (hp : p.Coherent) : RelOn Set.univ (takeAll? (offers types) p) (takeAll? (offers types') p) := by
  have htype : ∀ t ∈ types, Offers.Within Set.univ (typeOffers t) :=
    fun t h => (within_typeOffers (ht t h)).mono (Set.subset_univ _)
  have hfill : ∀ t ∈ types, Offers.Within Set.univ (fillOffers t) :=
    fun t h => (within_fillOffers (ht t h)).mono (Set.subset_univ _)
  have hflat : ∀ list : List TypeDecl, (∀ t ∈ list, t ∈ types) → Offers.Within Set.univ (list.flatMap typeOffers) := by
    intro list hlist step hstep
    obtain ⟨t, hmem, hstep⟩ := List.mem_flatMap.1 hstep
    exact htype t (hlist t hmem) step hstep
  have hfree : types.Pairwise fun t other => Free (typeOffers t) (typeOffers other) :=
    List.pairwise_of_forall_mem_list fun t h other ho => free_typeOffers (ht t h) (ht other ho)
  unfold offers
  rw [takeAll?_append, takeAll?_append]
  apply relOn_bind (relOn_takeAll?_perm hperm htype hfree hp hp (sameOn_refl _ p))
  intro q q' hq hq' hsame
  refine relOn_takeAll?_perm hperm hfill ?_ (sameOn_takeAll? hp (hflat types fun _ h => h) hq).2
    (sameOn_takeAll? hp (hflat types' fun _ h => hperm.mem_iff.2 h) hq').2 hsame
  exact (pairwise_apart hq).imp_of_mem fun h ho hapart => free_fillOffers (ht _ h) (ht _ ho) hapart

/-- **The order of a listing's types does not matter to loading.** A listing loads if and only if it does with its types in another order, and then the two programs define the same, with the same members and bodies. -/
theorem relOn_load {source source' name : String} {types types' : List TypeDecl} (hparse : parse source = .ok types)
    (hparse' : parse source' = .ok types') (hperm : (types'.map TypeDecl.bare).Perm (types.map TypeDecl.bare))
    (ht : ∀ t ∈ types, t.IsSlashless) :
    RelOn Set.univ (load source name file).toOption (load source' name file).toOption := by
  have hbare : ∀ t ∈ types.map TypeDecl.bare, t.IsSlashless := by
    intro t h
    obtain ⟨decl, hdecl, rfl⟩ := List.mem_map.1 h
    exact ht decl hdecl
  have hload : ∀ {source types}, parse source = .ok types →
      (load source name file).toOption = (takeAll? (offers (types.map TypeDecl.bare)) { name }).map resolveOperands := by
    intro source types h
    unfold load
    rw [h]
    exact toOption_elaborate name types
  rw [hload hparse, hload hparse']
  have hrel := relOn_offers hperm.symm hbare (coherent_new name)
  generalize takeAll? (offers (types.map TypeDecl.bare)) { name } = x at hrel ⊢
  generalize takeAll? (offers (types'.map TypeDecl.bare)) { name } = y at hrel ⊢
  cases hrel with
  | none => exact .none
  | some h => exact .some h.resolveOperands

end Listing

end StubClosure
