import StubClosure.Program.Build
import StubClosure.Proofs.Step

/-!
# Coherent programs

What the closure relies on when it asks a program about its types. A definition is found under its own identity; its methods and properties are its own, and the slots of its properties hold methods that it declares; types are listed as nested exactly in the type around them; and a body is found under its method. Every step of building keeps a program coherent, whether it fails or not.
-/

namespace StubClosure

namespace TypeDef

/-- The method of a signature is declared here. -/
def Declares (d : TypeDef) (s : Signature) : Prop := ∃ m ∈ d.methods, m.toSignature = s

/-- The definition belongs under an identity. -/
structure Coherent (t : TypeId) (d : TypeDef) : Prop where
  id_eq : d.id = t
  owner_method : ∀ m ∈ d.methods, m.owner = t
  owner_property : ∀ row ∈ d.properties, row.ref.owner = t
  getter_declared : ∀ row ∈ d.properties, ∀ m ∈ row.getter, d.Declares m.toSignature
  setter_declared : ∀ row ∈ d.properties, ∀ m ∈ row.setter, d.Declares m.toSignature
  outer_nested : ∀ inner ∈ d.nested, inner.outer? = some t

end TypeDef

namespace Program

/-- The type's definition declares the method of a signature. -/
def Declares (p : Program) (t : TypeId) (s : Signature) : Prop := ∃ d, p.type? t = some d ∧ d.Declares s

/-- What holds of a program whatever has been done to build it. -/
structure Coherent (p : Program) : Prop where
  type : ∀ t d, p.type? t = some d → d.Coherent t
  nested : ∀ t outer, p.defines t = true → t.outer? = some outer → p.defines outer = true ∧ t ∈ p.nestedOf outer
  body : ∀ key b, p.bodies.find? key = some b → b.method.toSignature = key

theorem coherent_new (name : String) : Coherent { name } := by
  refine ⟨?_, ?_, ?_⟩
  · intro t d h
    cases h
  · intro t outer h
    cases h
  · intro key b h
    cases h

/-! ## The small changes -/

section
variable {p : Program}

theorem type?_modifyType (t : TypeId) (change : TypeDef → TypeDef) (other : TypeId) :
    (p.modifyType t change).type? other = if other = t then (p.type? t).map change else p.type? other :=
  Table.find?_modify p.types t change other

theorem defines_modifyType (t : TypeId) (change : TypeDef → TypeDef) (other : TypeId) :
    (p.modifyType t change).defines other = p.defines other := by
  unfold defines
  rw [Bool.eq_iff_iff, Table.contains_iff, Table.contains_iff]
  exact iff_of_eq (congrArg (other ∈ ·) (Table.keys_modify p.types t change))

theorem exists_type?_of_defines {t : TypeId} (h : p.defines t = true) : ∃ d, p.type? t = some d :=
  Table.exists_find?_of_mem (Table.contains_iff.1 h)

theorem defines_of_type? {t : TypeId} {d : TypeDef} (h : p.type? t = some d) : p.defines t = true :=
  Table.contains_iff.2 (Table.mem_keys_of_find? h)

theorem defines_of_mem_nestedOf {t inner : TypeId} (h : inner ∈ p.nestedOf t) : p.defines t = true := by
  unfold nestedOf at h
  cases hd : p.type? t with
  | none => simp [hd] at h
  | some d => exact defines_of_type? hd

theorem nestedOf_eq {t : TypeId} {d : TypeDef} (h : p.type? t = some d) : p.nestedOf t = d.nested := by
  simp [nestedOf, h]

theorem Coherent.modifyType (hp : p.Coherent) {t : TypeId} {change : TypeDef → TypeDef}
    (hc : ∀ d, p.type? t = some d → d.Coherent t → (change d).Coherent t)
    (hn : ∀ d, d.nested ⊆ (change d).nested) : (p.modifyType t change).Coherent := by
  refine ⟨?_, ?_, hp.body⟩
  · intro other d h
    rw [type?_modifyType] at h
    split at h
    · next he =>
      obtain ⟨d', hd', rfl⟩ := Option.map_eq_some_iff.1 h
      rw [he]
      exact hc d' hd' (hp.type t d' hd')
    · exact hp.type other d h
  · intro inner outer hd ho
    rw [defines_modifyType] at hd ⊢
    obtain ⟨hdo, hmem⟩ := hp.nested inner outer hd ho
    refine ⟨hdo, ?_⟩
    obtain ⟨d, hd⟩ := exists_type?_of_defines hdo
    rw [nestedOf_eq hd] at hmem
    by_cases he : outer = t
    · subst he
      rw [nestedOf_eq (d := change d) (by rw [type?_modifyType, if_pos rfl, hd]; rfl)]
      exact hn d hmem
    · rw [nestedOf_eq (d := d) (by rw [type?_modifyType, if_neg he, hd])]
      exact hmem

theorem Coherent.enter (hp : p.Coherent) (m : Member) : (p.enter m).Coherent := ⟨hp.type, hp.nested, hp.body⟩

theorem Coherent.setBody (hp : p.Coherent) (b : Body) : (p.setBody b).Coherent := by
  refine ⟨hp.type, hp.nested, ?_⟩
  intro key b' h
  rw [show (p.setBody b).bodies = p.bodies.insert b.method.toSignature b from rfl, Table.find?_insert] at h
  split at h
  · next he =>
    obtain rfl := Option.some.inj h
    exact he.symm
  · exact hp.body key b' h

theorem Coherent.insertType (hp : p.Coherent) {t : TypeId} {d : TypeDef} (names : Table String TypeId)
    (hnew : p.defines t = false) (ho : ∀ outer, t.outer? = some outer → p.defines outer = true ∧ t ∈ p.nestedOf outer)
    (hd : d.Coherent t) : Coherent { p with types := p.types.insert t d, names } := by
  have hdef : ∀ other, p.defines other = true → other ≠ t := by
    rintro other h rfl
    rw [hnew] at h
    cases h
  have htype : ∀ other, other ≠ t →
      Program.type? { p with types := p.types.insert t d, names } other = p.type? other := by
    intro other h
    exact (Table.find?_insert p.types t d other).trans (if_neg h)
  have hkeep : ∀ inner outer, p.defines outer = true ∧ inner ∈ p.nestedOf outer →
      Program.defines { p with types := p.types.insert t d, names } outer = true ∧
        inner ∈ Program.nestedOf { p with types := p.types.insert t d, names } outer := by
    rintro inner outer ⟨h, hmem⟩
    refine ⟨Table.contains_iff.2 (Table.mem_keys_insert.2 (.inr (Table.contains_iff.1 h))), ?_⟩
    unfold nestedOf at hmem ⊢
    rwa [htype outer (hdef outer h)]
  refine ⟨?_, ?_, hp.body⟩
  · intro other d' h
    by_cases he : other = t
    · subst he
      obtain rfl : d = d' := by
        have := (Table.find?_insert p.types other d other).symm.trans h
        simpa using this
      exact hd
    · exact hp.type other d' ((htype other he).symm.trans h)
  · intro inner outer h hio
    rcases Table.mem_keys_insert.1 (Table.contains_iff.1 h) with rfl | h
    · exact hkeep inner outer (ho outer hio)
    · exact hkeep inner outer (hp.nested inner outer (Table.contains_iff.2 h) hio)

end

end Program

end StubClosure
