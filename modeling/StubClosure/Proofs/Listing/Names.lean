import StubClosure.Proofs.Listing.Accepted
import StubClosure.Proofs.Listing.Made
import StubClosure.Proofs.Program.Locality
import StubClosure.Proofs.Program.Naming

/-!
# The names of a listing's types

The calls for a declaration look at the declared type, at those inside it and at the one around it, and at no other (`within_typeCalls`, `within_fillCalls`). So whatever holds of the types that are named in a listing, and is handed on to the types around and inside them, holds of every type that comes to be defined. For one, these are types as names are read: their full names identify them if the names are plain. A listing may declare others, and then two of its types can share a full name, under which the one declared last is found (`names_of_load`).
-/

namespace StubClosure.Listing

variable {file : Option String} {within : Set TypeId}

/-! ## The types that calls look at -/

/-- The step of the call, if there is one, looks at the given types alone. -/
def Call.Within (within : Set TypeId) (c : Call) : Prop := ∀ step, c.step = .ok step → step.Within within

/-- With a type, the types around it and inside it are among the given ones. -/
structure Closed (within : Set TypeId) : Prop where
  inside : Hereditary (· ∈ within)
  around : ∀ t ∈ within, ∀ outer, t.outer? = some outer → outer ∈ within

theorem eq_of_namedAt {α : Type} {position : Position} {named : Except TypeNameError α} {a : α}
    (h : namedAt file position named = .ok a) : named = .ok a :=
  mapError_eq_ok_iff.1 (mapError_eq_ok_iff.1 h)

theorem within_headCall (hc : Closed within) {outer : Option TypeId} {h : TypeHead}
    (ht : ∀ t, declaredId outer h.name = .ok t → t ∈ within) : (headCall file outer h).Within within := by
  intro step hs
  obtain ⟨t, hid, hs⟩ := exists_of_bind_eq_ok hs
  obtain ⟨base, -, hs⟩ := exists_of_bind_eq_ok hs
  obtain ⟨interfaces, -, hs⟩ := exists_of_bind_eq_ok hs
  cases hs
  rintro _ ⟨⟩
  have hin := ht t (eq_of_namedAt hid)
  exact ⟨hin, hc.around t hin⟩

theorem within_fieldCall {owner : TypeId} (ho : owner ∈ within) (f : FieldDecl) :
    (fieldCall file owner f).Within within := by
  intro step hs
  obtain ⟨t, -, hs⟩ := exists_of_bind_eq_ok hs
  cases hs
  exact ho

theorem within_propertyCall {owner : TypeId} (ho : owner ∈ within) (d : PropertyDecl) :
    (propertyCall file owner d).Within within := by
  intro step hs
  obtain ⟨t, -, hs⟩ := exists_of_bind_eq_ok hs
  cases hs
  exact ho

theorem within_methodCall {owner : TypeId} (ho : owner ∈ within) (m : MethodDecl) :
    (methodCall file owner m).Within within := by
  intro step hs
  obtain ⟨params, -, hs⟩ := exists_of_bind_eq_ok hs
  obtain ⟨locals, -, hs⟩ := exists_of_bind_eq_ok hs
  obtain ⟨body, -, hs⟩ := exists_of_bind_eq_ok hs
  obtain ⟨returns, -, hs⟩ := exists_of_bind_eq_ok hs
  cases hs
  exact ho

theorem within_typeCalls (hc : Closed within) {t : TypeDecl}
    (ht : ∀ id, declaredId none t.head.name = .ok id → id ∈ within) :
    ∀ c ∈ typeCalls file none t.head t.members, c.Within within :=
  forall_typeCalls hc.inside (fun _ _ => within_headCall hc) none t.head t.members ht

theorem within_fillCalls (hc : Closed within) {t : TypeDecl}
    (ht : ∀ id, declaredId none t.head.name = .ok id → id ∈ within) :
    ∀ c ∈ fillCalls file none t.head t.members, c.Within within :=
  forall_fillCalls hc.inside (fun _ f ho => within_fieldCall ho f) (fun _ d ho => within_propertyCall ho d)
    none t.head t.members (fun _ m ho _ => within_methodCall ho m) ht

theorem within_calls (hc : Closed within) {types : List TypeDecl}
    (ht : ∀ t ∈ types, ∀ id, declaredId none t.head.name = .ok id → id ∈ within) :
    ∀ c ∈ calls file types, c.Within within := by
  intro c hmem
  unfold calls at hmem
  rcases List.mem_append.1 hmem with hmem | hmem <;> obtain ⟨t, hdecl, hmem⟩ := List.mem_flatMap.1 hmem
  · exact within_typeCalls hc (ht t hdecl) c hmem
  · exact within_fillCalls hc (ht t hdecl) c hmem

theorem mem_of_defines_elaborate (hc : Closed within) {name : String} {types : List TypeDecl} {p : Program}
    (h : elaborate file name types = .ok p)
    (ht : ∀ t ∈ types, ∀ id, declaredId none t.head.name = .ok id → id ∈ within) {t : TypeId}
    (hd : p.defines t = true) : t ∈ within := by
  obtain ⟨steps, hsteps, -, rfl⟩ := exists_steps_of_elaborate h
  have hw : ∀ step ∈ steps, step.Within within := by
    intro step hs
    have hmem : Except.ok step ∈ (calls file types).map (·.step) := by
      rw [hsteps]
      exact List.mem_map_of_mem hs
    obtain ⟨c, hcall, he⟩ := List.mem_map.1 hmem
    exact within_calls hc ht c hcall step he
  rw [Program.build, List.foldl_append] at hd
  exact BuildStep.mem_of_defines_build hw name hd

/-! ## Names -/

theorem exists_elaborate_of_load {source name : String} {p : Program} (h : load source name file = .ok p) :
    ∃ types, parse source = .ok types ∧ elaborate file name types = .ok p := by
  unfold load at h
  split at h
  next types hparse => exact ⟨types, hparse, h⟩
  · cases h

theorem closed_spelled : Closed {t | t.Spelled} where
  inside := fun _ _ _ ho h => ho.nest h
  around := fun _ ht _ ho => ht.outer ho

theorem built_of_load {source name : String} {p : Program} (h : load source name file = .ok p) : p.Built := by
  obtain ⟨types, -, helab⟩ := exists_elaborate_of_load h
  obtain ⟨steps, -, -, rfl⟩ := exists_steps_of_elaborate helab
  exact Program.built_build name _

theorem spelled_of_load {source name : String} {p : Program} (h : load source name file = .ok p) {t : TypeId}
    (hd : p.defines t = true) : t.Spelled := by
  obtain ⟨types, -, helab⟩ := exists_elaborate_of_load h
  apply mem_of_defines_elaborate closed_spelled helab _ hd
  intro decl _ id hid
  exact TypeId.spelled_of_parse hid

/-- **The names of a listing's types.** Of the types that have a name in common, the one declared last is found under it, so every type is found under its own name just if no two of them share one. Types whose names are plain never do. -/
theorem names_of_load {source name : String} {file : Option String} {p : Program}
    (h : load source name file = .ok p) :
    (∀ n, p.findType? n = p.types.values.reverse.find? fun d => d.id.fullName = n) ∧
    ((∀ d ∈ p.types.values, p.findType? d.id.fullName = some d) ↔ p.NamesApart) ∧
    (∀ t other, p.defines t = true → p.defines other = true → t.Plain → other.Plain →
      t.fullName = other.fullName → t = other) ∧
    ((∀ d ∈ p.types.values, d.id.Plain) → ∀ d ∈ p.types.values, p.findType? d.id.fullName = some d) := by
  have hbuilt := built_of_load h
  have hplain : ∀ t other, p.defines t = true → p.defines other = true → t.Plain → other.Plain →
      t.fullName = other.fullName → t = other := by
    intro t other ht ho hp hpo he
    exact TypeId.fullName_inj (spelled_of_load h ht) (spelled_of_load h ho) hp hpo he
  refine ⟨hbuilt.findType?_eq, hbuilt.find_all_iff, hplain, fun hall => ?_⟩
  apply hbuilt.find_all_iff.2
  intro t other ht ho
  obtain ⟨d, hd⟩ := Program.exists_type?_of_defines ht
  obtain ⟨d', hd'⟩ := Program.exists_type?_of_defines ho
  have hid := (hbuilt.coherent.type t d hd).id_eq
  have hid' := (hbuilt.coherent.type other d' hd').id_eq
  refine hplain t other ht ho ?_ ?_
  · rw [← hid]
    exact hall d (hbuilt.mem_values_iff.2 (by rw [hid]; exact hd))
  · rw [← hid']
    exact hall d' (hbuilt.mem_values_iff.2 (by rw [hid']; exact hd'))

/-! ## Two types of one name -/

namespace Namesakes

/-- A type with two parameters, and one without any whose name looks the same. -/
def types : List TypeDecl :=
  [{ head := { position := {}, name := "A\x602" } }, { head := { position := {}, name := "A\x602\x600" } }]

def generic : TypeId := .top "" "A" (.small 2)

def lookalike : TypeId := .top "" "A\x602" 0

theorem exists_load : ∃ p, load (text types) "namesakes" none = .ok p ∧ p.defines generic = true ∧
    p.defines lookalike = true ∧ (p.findType? generic.fullName).map TypeDef.id = some lookalike := by
  have hcalls : calls none (placeTypes {} types) = (placeTypes {} types).map fun t => headCall none none t.head := by
    have hgeneric : declaredId none "A\x602" = .ok generic := by decide +kernel
    have hlookalike : declaredId none "A\x602\x600" = .ok lookalike := by decide +kernel
    simp [types, placeTypes, TypeDecl.place, placeMembers, calls, typeCalls, innerCalls, fillCalls, memberCalls,
      propertyCalls, hgeneric, hlookalike]
  exact exists_load_text (by decide +kernel) hcalls (by decide +kernel)

end Namesakes

/-- The full name of a type may lead to another type. -/
theorem names_of_load_namesakes : ∃ p, load (text Namesakes.types) "namesakes" none = .ok p ∧
    p.defines Namesakes.generic = true ∧ p.defines Namesakes.lookalike = true ∧
    (p.findType? Namesakes.generic.fullName).map TypeDef.id = some Namesakes.lookalike ∧
    ¬ ∀ d ∈ p.types.values, p.findType? d.id.fullName = some d := by
  obtain ⟨p, hl, hgeneric, hlookalike, hfind⟩ := Namesakes.exists_load
  refine ⟨p, hl, hgeneric, hlookalike, hfind, fun hall => ?_⟩
  have happart := (names_of_load hl).2.1.1 hall
  have hne : Namesakes.generic ≠ Namesakes.lookalike := by decide
  exact hne (happart Namesakes.generic Namesakes.lookalike hgeneric hlookalike (by decide))

end StubClosure.Listing
