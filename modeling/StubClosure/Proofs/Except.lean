/-!
# Values that may fail

When a value that may fail is put together from others that may fail, one after the other, it is there if they all are, and the first failure is that of the whole.
-/

namespace StubClosure

variable {ε ε' α β : Type}

theorem exists_of_bind_eq_ok {x : Except ε α} {next : α → Except ε β} {b : β} (h : x >>= next = .ok b) :
    ∃ a, x = .ok a ∧ next a = .ok b := by
  cases x with
  | error e => cases h
  | ok a => exact ⟨a, rfl, h⟩

theorem exists_of_map_eq_ok {x : Except ε α} {f : α → β} {b : β} (h : x.map f = .ok b) : ∃ a, x = .ok a ∧ f a = b := by
  cases x with
  | error e => cases h
  | ok a => exact ⟨a, rfl, Except.ok.inj h⟩

theorem mapError_eq_ok_iff {x : Except ε α} {f : ε → ε'} {a : α} : x.mapError f = .ok a ↔ x = .ok a := by
  cases x with
  | error e => exact ⟨by rintro ⟨⟩, by rintro ⟨⟩⟩
  | ok b =>
    show Except.ok b = Except.ok a ↔ Except.ok b = Except.ok a
    rw [Except.ok.injEq, Except.ok.injEq]

theorem mapError_eq_error_iff {x : Except ε α} {f : ε → ε'} {e : ε'} :
    x.mapError f = .error e ↔ ∃ e', x = .error e' ∧ f e' = e := by
  cases x with
  | error e' =>
    constructor
    · rintro ⟨⟩
      exact ⟨e', rfl, rfl⟩
    · rintro ⟨_, ⟨⟩, rfl⟩
      rfl
  | ok b => exact ⟨by rintro ⟨⟩, by rintro ⟨_, ⟨⟩, -⟩⟩

theorem bind_eq_error_iff {x : Except ε α} {next : α → Except ε β} {e : ε} :
    x >>= next = .error e ↔ x = .error e ∨ ∃ a, x = .ok a ∧ next a = .error e := by
  cases x with
  | error e' => simp [bind, Except.bind]
  | ok a => simp [bind, Except.bind]

/-! ## Over lists -/

theorem optionMapM_some {f : α → Except ε β} (a : α) :
    (some a).mapM f = f a >>= fun b => pure (some b) := by
  show some <$> f a = _
  rcases f a with e | b <;> rfl

theorem mapM_eq_ok_of_forall {f : α → Except ε β} (g : α → β) {as : List α} (h : ∀ a ∈ as, f a = .ok (g a)) :
    as.mapM f = .ok (as.map g) := by
  induction as with
  | nil => rfl
  | cons a rest ih =>
    rw [List.forall_mem_cons] at h
    rw [List.mapM_cons, h.1, ih h.2]
    rfl

theorem exists_of_mem_mapM {f : α → Except ε β} {as : List α} {bs : List β}
    (h : as.mapM f = .ok bs) {b : β} (hb : b ∈ bs) : ∃ a ∈ as, f a = .ok b := by
  induction as generalizing bs with
  | nil =>
    cases h
    cases hb
  | cons a rest ih =>
    rw [List.mapM_cons] at h
    obtain ⟨first, hfirst, h⟩ := exists_of_bind_eq_ok h
    obtain ⟨others, hothers, h⟩ := exists_of_bind_eq_ok h
    cases h
    rcases List.mem_cons.1 hb with rfl | hb
    · exact ⟨a, List.mem_cons_self, hfirst⟩
    · obtain ⟨a', ha, h⟩ := ih hothers hb
      exact ⟨a', List.mem_cons_of_mem _ ha, h⟩

theorem mapM_eq_ok_iff {f : α → Except ε β} {as : List α} :
    (∃ bs, as.mapM f = .ok bs) ↔ ∀ a ∈ as, ∃ b, f a = .ok b := by
  induction as with
  | nil => simp [pure, Except.pure]
  | cons a rest ih =>
    rw [List.mapM_cons, List.forall_mem_cons, ← ih]
    constructor
    · rintro ⟨bs, h⟩
      obtain ⟨b, hb, h⟩ := exists_of_bind_eq_ok h
      obtain ⟨others, hothers, -⟩ := exists_of_bind_eq_ok h
      exact ⟨⟨b, hb⟩, others, hothers⟩
    · rintro ⟨⟨b, hb⟩, others, hothers⟩
      exact ⟨b :: others, by rw [hb, hothers]; rfl⟩

theorem mapM_eq_error_iff {f : α → Except ε β} {as : List α} {e : ε} : as.mapM f = .error e ↔
    ∃ good bad rest, as = good ++ bad :: rest ∧ (∀ a ∈ good, ∃ b, f a = .ok b) ∧ f bad = .error e := by
  induction as with
  | nil =>
    constructor
    · rintro ⟨⟩
    · rintro ⟨good, bad, rest, h, -⟩
      cases good <;> cases h
  | cons a as ih =>
    rw [List.mapM_cons, bind_eq_error_iff]
    constructor
    · rintro (h | ⟨b, hb, h⟩)
      · exact ⟨[], a, as, rfl, by simp, h⟩
      · rcases bind_eq_error_iff.1 h with h | ⟨bs, -, ⟨⟩⟩
        obtain ⟨good, bad, rest, rfl, hgood, hbad⟩ := ih.1 h
        refine ⟨a :: good, bad, rest, rfl, ?_, hbad⟩
        rw [List.forall_mem_cons]
        exact ⟨⟨b, hb⟩, hgood⟩
    · rintro ⟨good, bad, rest, h, hgood, hbad⟩
      cases good with
      | nil =>
        obtain ⟨rfl, rfl⟩ := List.cons.inj h
        exact .inl hbad
      | cons first good =>
        obtain ⟨rfl, rfl⟩ := List.cons.inj h
        rw [List.forall_mem_cons] at hgood
        obtain ⟨b, hb⟩ := hgood.1
        refine .inr ⟨b, hb, bind_eq_error_iff.2 (.inl (ih.2 ⟨good, bad, rest, rfl, hgood.2, hbad⟩))⟩

theorem exists_of_mapM_of_mem {f : α → Except ε β} {as : List α} {bs : List β}
    (h : as.mapM f = .ok bs) {a : α} (ha : a ∈ as) : ∃ b ∈ bs, f a = .ok b := by
  induction as generalizing bs with
  | nil => cases ha
  | cons first rest ih =>
    rw [List.mapM_cons] at h
    obtain ⟨b, hb, h⟩ := exists_of_bind_eq_ok h
    obtain ⟨others, hothers, h⟩ := exists_of_bind_eq_ok h
    cases h
    rcases List.mem_cons.1 ha with rfl | ha
    · exact ⟨b, List.mem_cons_self, hb⟩
    · obtain ⟨b', hb', hf⟩ := ih hothers ha
      exact ⟨b', List.mem_cons_of_mem _ hb', hf⟩

theorem map_of_mapM {γ : Type} {f : α → Except ε β} {g : β → γ} {g' : α → γ} {as : List α} {bs : List β}
    (h : as.mapM f = .ok bs) (hg : ∀ a b, f a = .ok b → g b = g' a) : bs.map g = as.map g' := by
  induction as generalizing bs with
  | nil =>
    cases h
    rfl
  | cons a rest ih =>
    rw [List.mapM_cons] at h
    obtain ⟨b, hb, h⟩ := exists_of_bind_eq_ok h
    obtain ⟨others, hothers, h⟩ := exists_of_bind_eq_ok h
    cases h
    rw [List.map_cons, List.map_cons, hg a b hb, ih hothers]

theorem mapM_of_mapM {γ : Type} {f : α → Except ε β} {g : α → Except ε' γ} {view : β → γ} {as : List α} {bs : List β}
    (h : as.mapM f = .ok bs) (hg : ∀ a b, f a = .ok b → g a = .ok (view b)) : as.mapM g = .ok (bs.map view) := by
  induction as generalizing bs with
  | nil =>
    cases h
    rfl
  | cons a rest ih =>
    rw [List.mapM_cons] at h
    obtain ⟨b, hb, h⟩ := exists_of_bind_eq_ok h
    obtain ⟨others, hothers, h⟩ := exists_of_bind_eq_ok h
    cases h
    rw [List.mapM_cons, hg a b hb, ih hothers]
    rfl

end StubClosure
