import StubClosure.Proofs.Program.Coherent

/-!
# Nesting

Two notions of nesting meet here. An identity tells which types are around it (`TypeId.isNestedIn`), and a program lists for each type those directly inside it (`Program.nestedOf`), which `Program.withNested` follows downwards to a bounded depth. In a coherent program the bound is never felt: `withNested_eq` is the recursion without it, which ends because a descent passes through ever fewer defined types (`wellFounded_nested`), and `mem_withNested_iff` says that the two notions agree on defined types.
-/

namespace StubClosure

namespace TypeId

theorem outer?_eq_some {t outer : TypeId} (h : t.outer? = some outer) :
    ∃ space name arity, t = .inner outer space name arity := by
  cases t with
  | top => cases h
  | inner o space name arity =>
    obtain rfl : o = outer := Option.some.inj h
    exact ⟨space, name, arity, rfl⟩

theorem isNestedIn_iff_of_outer? {t outer other : TypeId} (h : t.outer? = some outer) :
    t.isNestedIn other = true ↔ outer = other ∨ outer.isNestedIn other = true := by
  obtain ⟨space, name, arity, rfl⟩ := outer?_eq_some h
  simp [isNestedIn]

theorem isNestedIn_outer {t outer : TypeId} (h : t.outer? = some outer) : t.isNestedIn outer = true :=
  (isNestedIn_iff_of_outer? h).2 (.inl rfl)

theorem isNestedIn_trans {a b c : TypeId} (hab : a.isNestedIn b = true) (hbc : b.isNestedIn c = true) :
    a.isNestedIn c = true := by
  induction a with
  | top => cases hab
  | inner outer space name arity ih =>
    rw [isNestedIn_iff_of_outer? rfl] at hab ⊢
    rcases hab with rfl | hab
    · exact .inr hbc
    · exact .inr (ih hab)

theorem sizeOf_lt_of_isNestedIn {a b : TypeId} (h : a.isNestedIn b = true) : sizeOf b < sizeOf a := by
  induction a with
  | top => cases h
  | inner outer space name arity ih =>
    rw [isNestedIn_iff_of_outer? rfl] at h
    rw [inner.sizeOf_spec]
    rcases h with rfl | h
    · omega
    · have := ih h
      omega

theorem not_isNestedIn_self (t : TypeId) : ¬ t.isNestedIn t = true :=
  fun h => Nat.lt_irrefl _ (sizeOf_lt_of_isNestedIn h)

end TypeId

namespace Program

variable {p : Program}

/-- The number of defined types on the way down from a type, itself included: a bound on the depth of the descent. -/
def height (p : Program) (t : TypeId) : Nat :=
  if p.defines t then p.types.keys.countP (·.isNestedIn t) + 1 else 0

theorem height_le (p : Program) (t : TypeId) : p.height t ≤ p.types.size + 1 := by
  unfold height
  split
  · have := List.countP_le_length (p := (·.isNestedIn t)) (l := p.types.keys)
    rw [Table.length_keys] at this
    omega
  · omega

/-- Of the types inside a nested type at least that type itself is missing. -/
theorem countP_isNestedIn_lt {keys : List TypeId} {t inner : TypeId} (hmem : inner ∈ keys)
    (h : inner.isNestedIn t = true) : keys.countP (·.isNestedIn inner) < keys.countP (·.isNestedIn t) := by
  have hle : ∀ rest : List TypeId, rest.countP (·.isNestedIn inner) ≤ rest.countP (·.isNestedIn t) :=
    fun rest => List.countP_mono_left fun other _ ho => TypeId.isNestedIn_trans ho h
  induction keys with
  | nil => cases hmem
  | cons key rest ih =>
    rw [List.countP_cons, List.countP_cons]
    rcases List.mem_cons.1 hmem with rfl | hmem
    · have hself : inner.isNestedIn inner = false := by simpa using TypeId.not_isNestedIn_self inner
      have := hle rest
      rw [if_neg (by simp [hself]), if_pos h]
      omega
    · have := ih hmem
      by_cases hk : key.isNestedIn inner = true
      · rw [if_pos hk, if_pos (TypeId.isNestedIn_trans hk h)]
        omega
      · rw [if_neg hk]
        omega

theorem Coherent.outer?_of_mem_nestedOf (hp : p.Coherent) {t inner : TypeId} (h : inner ∈ p.nestedOf t) :
    inner.outer? = some t := by
  obtain ⟨d, hd⟩ := exists_type?_of_defines (defines_of_mem_nestedOf h)
  rw [nestedOf_eq hd] at h
  exact (hp.type t d hd).outer_nested inner h

theorem Coherent.height_lt (hp : p.Coherent) {t inner : TypeId} (h : inner ∈ p.nestedOf t) :
    p.height inner < p.height t := by
  have ho := TypeId.isNestedIn_outer (hp.outer?_of_mem_nestedOf h)
  unfold height
  rw [if_pos (defines_of_mem_nestedOf h)]
  split
  next hd =>
    have := countP_isNestedIn_lt (Table.contains_iff.1 hd) ho
    omega
  · omega

/-- **The descent into nested types ends.** -/
theorem Coherent.wellFounded_nested (hp : p.Coherent) : WellFounded fun inner t => inner ∈ p.nestedOf t :=
  Subrelation.wf hp.height_lt (measure p.height).wf

/-- The bound on the depth may be any that the type's height does not exceed. -/
theorem Coherent.nestedWithin_eq (hp : p.Coherent) {t : TypeId} {n m : Nat} (hn : p.height t ≤ n)
    (hm : p.height t ≤ m) : p.nestedWithin n t = p.nestedWithin m t := by
  induction t using hp.wellFounded_nested.induction generalizing n m with
  | _ t ih =>
    by_cases hd : p.height t = 0
    · have hnone : p.nestedOf t = [] := by
        refine List.eq_nil_iff_forall_not_mem.2 fun inner h => ?_
        have := hp.height_lt h
        omega
      cases n <;> cases m <;> simp [nestedWithin, hnone]
    · obtain ⟨n, rfl⟩ := Nat.exists_eq_succ_of_ne_zero (show n ≠ 0 by omega)
      obtain ⟨m, rfl⟩ := Nat.exists_eq_succ_of_ne_zero (show m ≠ 0 by omega)
      rw [nestedWithin, nestedWithin, List.cons.injEq]
      refine ⟨rfl, ?_⟩
      rw [List.flatMap_def, List.flatMap_def]
      refine congrArg List.flatten (List.map_congr_left fun inner h => ?_)
      have := hp.height_lt h
      exact ih inner h (by omega) (by omega)

/-- **The recursion that `withNested` stands for**, without a bound. -/
theorem Coherent.withNested_eq (hp : p.Coherent) (t : TypeId) :
    p.withNested t = t :: (p.nestedOf t).flatMap p.withNested := by
  show t :: (p.nestedOf t).flatMap (p.nestedWithin p.types.size) = _
  rw [List.flatMap_def, List.flatMap_def]
  refine congrArg (t :: List.flatten ·) (List.map_congr_left fun inner h => ?_)
  have hlt := hp.height_lt h
  have := p.height_le t
  exact hp.nestedWithin_eq (by omega) (by omega)

/-! ## What the descent comes by -/

theorem Coherent.isNestedIn_of_mem_withNested (hp : p.Coherent) {t other : TypeId} (h : other ∈ p.withNested t) :
    other = t ∨ other.isNestedIn t = true := by
  induction t using hp.wellFounded_nested.induction with
  | _ t ih =>
    rw [hp.withNested_eq, List.mem_cons, List.mem_flatMap] at h
    rcases h with rfl | ⟨inner, hi, h⟩
    · exact .inl rfl
    · have hit := TypeId.isNestedIn_outer (hp.outer?_of_mem_nestedOf hi)
      rcases ih inner hi h with rfl | h
      · exact .inr hit
      · exact .inr (TypeId.isNestedIn_trans h hit)

theorem Coherent.mem_withNested_of_mem_nestedOf (hp : p.Coherent) {t outer inner : TypeId}
    (ho : outer ∈ p.withNested t) (hi : inner ∈ p.nestedOf outer) : inner ∈ p.withNested t := by
  induction t using hp.wellFounded_nested.induction with
  | _ t ih =>
    rw [hp.withNested_eq, List.mem_cons, List.mem_flatMap] at ho ⊢
    rcases ho with rfl | ⟨next, hn, ho⟩
    · refine .inr ⟨inner, hi, ?_⟩
      rw [hp.withNested_eq]
      exact List.mem_cons_self
    · exact .inr ⟨next, hn, ih next hn ho⟩

theorem Coherent.mem_withNested_iff (hp : p.Coherent) {t other : TypeId} (hd : p.defines other = true) :
    other ∈ p.withNested t ↔ other = t ∨ other.isNestedIn t = true := by
  refine ⟨hp.isNestedIn_of_mem_withNested, ?_⟩
  rintro (rfl | h)
  · rw [hp.withNested_eq]
    exact List.mem_cons_self
  · -- the type around the other one is defined and lists it, and is met itself
    induction other with
    | top => cases h
    | inner outer space name arity ih =>
      obtain ⟨hdo, hmem⟩ := hp.nested _ outer hd rfl
      rw [TypeId.isNestedIn_iff_of_outer? rfl] at h
      refine hp.mem_withNested_of_mem_nestedOf ?_ hmem
      rcases h with rfl | h
      · rw [hp.withNested_eq]
        exact List.mem_cons_self
      · exact ih hdo h

end Program

end StubClosure
