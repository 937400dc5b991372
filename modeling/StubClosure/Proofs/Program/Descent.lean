import Mathlib.Data.List.Nodup
import Mathlib.Order.Defs.Unbundled
import StubClosure.Proofs.Program.Consistent
import StubClosure.Proofs.Program.Nesting

/-!
# The descent into nested types

`Program.withNested` goes from a type to the types that are listed with it, and on from these. That it ends, and which types it comes by, is shown for every coherent program beside the notions of nesting; where each nested type is listed once (`ListsNested`), it also comes by every type once, and by each before those inside it. The reason is that the types around a type form a chain: two types that directly lie in a third have nothing in common (`TypeId.eq_of_lies_in`).
-/

namespace StubClosure

namespace TypeId

/-- Of the types that lie directly in one type, only one can be around another type or be it. -/
theorem eq_of_lies_in {t a b other : TypeId} (ha : a.outer? = some t) (hb : b.outer? = some t)
    (hoa : other = a ∨ other.isNestedIn a = true) (hob : other = b ∨ other.isNestedIn b = true) : a = b := by
  have hat := isNestedIn_outer ha
  have hbt := isNestedIn_outer hb
  -- one of the two cannot lie in the other, for it lies directly in a type that is around both
  have happ : ∀ {x y : TypeId}, x.outer? = some t → y.isNestedIn t = true → ¬ x.isNestedIn y = true := by
    intro x y hx hyt hxy
    rcases (isNestedIn_iff_of_outer? hx).1 hxy with rfl | hty
    · exact not_isNestedIn_self t hyt
    · exact not_isNestedIn_self t (isNestedIn_trans hty hyt)
  induction other with
  | top =>
    rcases hoa with rfl | hoa
    · rcases hob with h | hob
      · exact h
      · cases hob
    · cases hoa
  | inner outer space name arity ih =>
    rcases hoa with rfl | hoa <;> rcases hob with hob | hob
    · exact hob
    · exact absurd hob (happ ha hbt)
    · exact absurd (hob ▸ hoa) (happ hb hat)
    · rw [isNestedIn_iff_of_outer? rfl] at hoa hob
      exact ih hoa hob

theorem isStrictOrder_isNestedIn : IsStrictOrder TypeId fun inner outer => inner.isNestedIn outer = true where
  irrefl := not_isNestedIn_self
  trans _ _ _ := isNestedIn_trans

end TypeId

namespace Program

variable {p : Program}

theorem ListsNested.nodup_nestedOf (hp : p.ListsNested) (t : TypeId) : (p.nestedOf t).Nodup := by
  rw [List.nodup_iff_count_le_one]
  intro inner
  by_cases hmem : inner ∈ p.nestedOf t
  · obtain ⟨hd, ho⟩ := hp.nested t inner hmem
    exact Nat.le_of_eq (hp.around inner t hd ho).2
  · rw [List.count_eq_zero.2 hmem]
    exact Nat.zero_le 1

theorem Coherent.not_mem_withNested_of_ne (hp : p.Coherent) {t a b : TypeId} (ha : a ∈ p.nestedOf t)
    (hb : b ∈ p.nestedOf t) (hne : a ≠ b) {other : TypeId} (hoa : other ∈ p.withNested a) :
    other ∉ p.withNested b := by
  intro hob
  apply hne
  exact TypeId.eq_of_lies_in (hp.outer?_of_mem_nestedOf ha) (hp.outer?_of_mem_nestedOf hb)
    (hp.isNestedIn_of_mem_withNested hoa) (hp.isNestedIn_of_mem_withNested hob)

theorem Coherent.isNestedIn_of_mem_flatMap (hp : p.Coherent) {t other : TypeId}
    (h : other ∈ (p.nestedOf t).flatMap p.withNested) : other.isNestedIn t = true := by
  obtain ⟨inner, hi, ho⟩ := List.mem_flatMap.1 h
  have hit := TypeId.isNestedIn_outer (hp.outer?_of_mem_nestedOf hi)
  rcases hp.isNestedIn_of_mem_withNested ho with rfl | ho
  · exact hit
  · exact TypeId.isNestedIn_trans ho hit

/-- **The descent comes by no type twice.** -/
theorem Coherent.nodup_withNested (hp : p.Coherent) (hl : p.ListsNested) (t : TypeId) : (p.withNested t).Nodup := by
  induction t using hp.wellFounded_nested.induction with
  | _ t ih =>
    rw [hp.withNested_eq, List.nodup_cons, List.nodup_flatMap]
    refine ⟨?_, ih, ?_⟩
    · intro hmem
      exact TypeId.not_isNestedIn_self t (hp.isNestedIn_of_mem_flatMap hmem)
    · refine (hl.nodup_nestedOf t).imp_of_mem ?_
      intro a b ha hb hne other hoa hob
      exact hp.not_mem_withNested_of_ne ha hb hne hoa hob

/-- **The descent comes by a type before it comes by those inside it.** -/
theorem Coherent.pairwise_withNested (hp : p.Coherent) (hl : p.ListsNested) (t : TypeId) :
    (p.withNested t).Pairwise fun earlier later => ¬ earlier.isNestedIn later = true := by
  induction t using hp.wellFounded_nested.induction with
  | _ t ih =>
    rw [hp.withNested_eq, List.pairwise_cons, List.pairwise_flatMap]
    refine ⟨?_, ih, ?_⟩
    · intro other hmem ht
      exact TypeId.not_isNestedIn_self t (TypeId.isNestedIn_trans ht (hp.isNestedIn_of_mem_flatMap hmem))
    · refine (hl.nodup_nestedOf t).imp_of_mem ?_
      intro a b ha hb hne earlier he later hlater hnested
      -- the type would lie in both of them
      have hab : earlier = b ∨ earlier.isNestedIn b = true := by
        rcases hp.isNestedIn_of_mem_withNested hlater with rfl | hlater
        · exact .inr hnested
        · exact .inr (TypeId.isNestedIn_trans hnested hlater)
      exact hne (TypeId.eq_of_lies_in (hp.outer?_of_mem_nestedOf ha) (hp.outer?_of_mem_nestedOf hb)
        (hp.isNestedIn_of_mem_withNested he) hab)

theorem Coherent.defines_of_mem_withNested (hp : p.Coherent) (hl : p.ListsNested) {t other : TypeId}
    (hd : p.defines t = true) (h : other ∈ p.withNested t) : p.defines other = true := by
  induction t using hp.wellFounded_nested.induction with
  | _ t ih =>
    rw [hp.withNested_eq, List.mem_cons, List.mem_flatMap] at h
    rcases h with rfl | ⟨inner, hi, h⟩
    · exact hd
    · exact ih inner hi (hl.nested t inner hi).1 h

/-- There is one way only to descend into nested types: the recursion has no other solution. -/
theorem Coherent.eq_withNested_iff (hp : p.Coherent) (descent : TypeId → List TypeId) :
    (∀ t, descent t = t :: (p.nestedOf t).flatMap descent) ↔ descent = p.withNested := by
  constructor
  · intro h
    funext t
    induction t using hp.wellFounded_nested.induction with
    | _ t ih =>
      rw [h, hp.withNested_eq, List.flatMap_def, List.flatMap_def, List.map_congr_left ih]
  · rintro rfl
    exact hp.withNested_eq

end Program

end StubClosure
