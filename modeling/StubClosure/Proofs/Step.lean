/-!
# Steps that may fail

Building a program, changing a stub set and running a closure are all steps of one kind: from a state they come to a value or an error, and in either case to a state after it. `Ends work s post` says of a step from the state `s` what it comes to. The rules below take a step apart into those that it is made of, so a proof follows the text of the step.
-/

namespace StubClosure.Step

variable {ε σ α β : Type}

/-- From the state, the step comes to an outcome and a state after it of which `post` holds. -/
def Ends (work : ExceptT ε (StateM σ) α) (s : σ) (post : Except ε α → σ → Prop) : Prop :=
  post (work.run.run s).1 (work.run.run s).2

theorem run_bind (work : ExceptT ε (StateM σ) α) (next : α → ExceptT ε (StateM σ) β) (s : σ) :
    (work >>= next).run.run s =
      match work.run.run s with
      | (.ok a, after) => (next a).run.run after
      | (.error e, after) => (.error e, after) := by
  simp only [ExceptT.run_bind, StateT.run_bind]
  rcases work.run.run s with ⟨_ | _, _⟩ <;> rfl

theorem run_get_bind (next : σ → ExceptT ε (StateM σ) β) (s : σ) :
    (get >>= next).run.run s = (next s).run.run s := rfl

theorem run_modify_bind (change : σ → σ) (next : PUnit → ExceptT ε (StateM σ) β) (s : σ) :
    (modify change >>= next).run.run s = (next ⟨⟩).run.run (change s) := rfl

section
variable {work : ExceptT ε (StateM σ) α} {next : α → ExceptT ε (StateM σ) β} {s after : σ}

theorem run_bind_of_ok {a : α} (h : work.run.run s = (.ok a, after)) :
    (work >>= next).run.run s = (next a).run.run after := by
  rw [run_bind, h]

theorem run_bind_of_error {e : ε} (h : work.run.run s = (.error e, after)) :
    (work >>= next).run.run s = (.error e, after) := by
  rw [run_bind, h]

theorem exists_of_run_bind {b : β} (h : (work >>= next).run.run s = (.ok b, after)) :
    ∃ a between, work.run.run s = (.ok a, between) ∧ (next a).run.run between = (.ok b, after) := by
  rw [run_bind] at h
  rcases hw : work.run.run s with ⟨e | a, between⟩
  · rw [hw] at h
    cases h
  · rw [hw] at h
    exact ⟨a, between, rfl, h⟩

end

section
variable {next : α → ExceptT ε (StateM σ) β} {s : σ} {post : Except ε β → σ → Prop}

theorem Ends.of_run {work : ExceptT ε (StateM σ) α} {post : Except ε α → σ → Prop} (h : Ends work s post)
    {outcome : Except ε α} {after : σ} (hr : work.run.run s = (outcome, after)) : post outcome after := by
  unfold Ends at h
  rwa [hr] at h

theorem Ends.mono {work : ExceptT ε (StateM σ) α} {pre post : Except ε α → σ → Prop} (h : Ends work s pre)
    (hp : ∀ outcome after, pre outcome after → post outcome after) : Ends work s post :=
  hp _ _ h

theorem Ends.bind {work : ExceptT ε (StateM σ) α} {between : Except ε α → σ → Prop} (hw : Ends work s between)
    (he : ∀ e after, between (.error e) after → post (.error e) after)
    (hn : ∀ a after, between (.ok a) after → Ends (next a) after post) : Ends (work >>= next) s post := by
  unfold Ends at hw ⊢
  rw [run_bind]
  rcases hr : work.run.run s with ⟨e | a, after⟩ <;> rw [hr] at hw
  · exact he e after hw
  · exact hn a after hw

/-- A step that is known to come to a value may be passed over. -/
theorem Ends.bind_of_run {work : ExceptT ε (StateM σ) α} {a : α} {after : σ} (h : work.run.run s = (.ok a, after))
    (hn : Ends (next a) after post) : Ends (work >>= next) s post := by
  unfold Ends at hn ⊢
  rwa [run_bind_of_ok h]

@[simp] theorem ends_pure {a : α} {post : Except ε α → σ → Prop} :
    Ends (pure a) s post ↔ post (.ok a) s := Iff.rfl

@[simp] theorem ends_get_bind {next : σ → ExceptT ε (StateM σ) β} :
    Ends (get >>= next) s post ↔ Ends (next s) s post := Iff.rfl

@[simp] theorem ends_modify_bind {change : σ → σ} {next : PUnit → ExceptT ε (StateM σ) β} :
    Ends (modify change >>= next) s post ↔ Ends (next ⟨⟩) (change s) post := Iff.rfl

end

/-! ## Steps whose value is not wanted -/

theorem run_forget (work : ExceptT ε (StateM σ) α) (s : σ) :
    (do let _ ← work : ExceptT ε (StateM σ) Unit).run.run s =
      ((work.run.run s).1.map fun _ => (), (work.run.run s).2) := by
  rw [run_bind]
  rcases work.run.run s with ⟨e | a, after⟩ <;> rfl

theorem Ends.forget {work : ExceptT ε (StateM σ) α} {s : σ} {post : Except ε Unit → σ → Prop}
    (h : Ends work s fun outcome after => post (outcome.map fun _ => ()) after) : Ends (do let _ ← work) s post := by
  unfold Ends
  rw [run_forget]
  exact h

/-! ## Steps that only look -/

/-- The step leaves the state as it is, whatever it comes to. -/
def Reads (work : ExceptT ε (StateM σ) α) : Prop := ∀ s, (work.run.run s).2 = s

theorem reads_pure (a : α) : Reads (pure a : ExceptT ε (StateM σ) α) := fun _ => rfl

theorem reads_throw (e : ε) : Reads (throw e : ExceptT ε (StateM σ) α) := fun _ => rfl

theorem reads_get : Reads (get : ExceptT ε (StateM σ) σ) := fun _ => rfl

theorem Reads.bind {work : ExceptT ε (StateM σ) α} {next : α → ExceptT ε (StateM σ) β} (hw : Reads work)
    (hn : ∀ a, Reads (next a)) : Reads (work >>= next) := by
  intro s
  have h := hw s
  rw [run_bind]
  rcases hr : work.run.run s with ⟨_ | a, after⟩ <;> rw [hr] at h
  · exact h
  · obtain rfl : after = s := h
    exact hn a after

theorem Reads.mapM {f : α → ExceptT ε (StateM σ) β} (h : ∀ a, Reads (f a)) (as : List α) :
    Reads (as.mapM f) := by
  induction as with
  | nil => exact reads_pure []
  | cons a rest ih =>
    rw [List.mapM_cons]
    exact (h a).bind fun b => ih.bind fun bs => reads_pure (b :: bs)

/-- A step that only looks may be passed over, as long as its errors are allowed. -/
theorem Reads.ends_bind {work : ExceptT ε (StateM σ) α} {next : α → ExceptT ε (StateM σ) β} {s : σ}
    {post : Except ε β → σ → Prop} (hw : Reads work) (he : ∀ e, post (.error e) s)
    (hn : ∀ a, work.run.run s = (.ok a, s) → Ends (next a) s post) : Ends (work >>= next) s post := by
  have h := hw s
  unfold Ends at hn ⊢
  rw [run_bind]
  rcases hr : work.run.run s with ⟨e | a, after⟩ <;> rw [hr] at h <;> obtain rfl : after = s := h
  · exact he e
  · exact hn a hr

end StubClosure.Step
