import StubClosure.Proofs.Closure.LeastFixedPoint

/-!
# Passes for new members

On demand a run goes on when its last pass added members and no key. That changes nothing but the list of passes: the two loops make the same passes as long as keys are added, and a pass after that finds everything done (`runPass_again`).
-/

namespace StubClosure.Closure

variable {p : Program} {sources : List TypeId}

/-- What passes for new members add to the list: a pass that adds nothing, if the last one added members. -/
def idle (index : Nat) (last : PassSummary) (stubs : StubSet) : List PassSummary :=
  if last.newMembers = 0 then [] else [{ index, newTypes := [], newMembers := 0, snapshot := stubs.entries }]

/-- The loop with passes for new members follows the loop without them. -/
theorem Passes.repass {options : ClosureOptions} (demanding : ClosureOptions) (ho : options.repassOnNewMembers = false)
    (hd : demanding.repassOnNewMembers = true) {index : Nat} {run after : Run} {passes : List PassSummary}
    {ended : Option ClosureError} (h : Passes p options sources index run passes ended after) :
    ∃ extra last, after.Resembles last ∧ Passes p demanding sources index run (passes ++ extra) ended last ∧
      (ended = none → ∃ summary, passes.getLast? = some summary ∧
        extra = idle (index + passes.length) summary after.stubs) := by
  induction h with
  | @fail index run after e h =>
    exact ⟨[], after, after.resembles_refl, .fail h, by rintro ⟨⟩⟩
  | @last index run after summary h hrep =>
    have hnew : summary.newTypes = [] := not_not.1 (not_or.1 hrep).1
    by_cases hm : summary.newMembers = 0
    · have hstop : ¬ Repeats demanding summary := by simp [Repeats, hnew, hm]
      exact ⟨[], after, after.resembles_refl, .last h hstop, fun _ => ⟨summary, rfl, by simp [idle, hm]⟩⟩
    · have hgo : Repeats demanding summary := .inr ⟨hd, hm⟩
      obtain ⟨last, hlast, hr⟩ := runPass_again h hnew (index + 1) (resembles_noted summary after)
      have hstop : ¬ Repeats demanding
          { index := index + 1, newTypes := [], newMembers := 0, snapshot := after.stubs.entries } := by
        simp [Repeats]
      exact ⟨_, last, hr, .more h hgo (.last hlast hstop), fun _ => ⟨summary, rfl, by simp [idle, hm]⟩⟩
  | @more index run mid after summary rest ended h hrep hrest ih =>
    have hgo : Repeats demanding summary := .inl (hrep.resolve_right fun h => by simp [ho] at h)
    obtain ⟨extra, last, hr, hloop, hend⟩ := ih
    refine ⟨extra, last, hr, .more h hgo hloop, fun he => ?_⟩
    obtain ⟨final, hfinal, rfl⟩ := hend he
    refine ⟨final, by rw [List.getLast?_cons, hfinal]; rfl, ?_⟩
    rw [List.length_cons, show index + 1 + rest.length = index + (rest.length + 1) by omega]

theorem of_run_resolveNames {names : List String} {types : List TypeId} {run after : Run}
    (h : (resolveNames p names).run.run run = (.ok types, after)) : ∀ name ∈ names, p.findType? name ≠ none := by
  induction names generalizing types run after with
  | nil => simp
  | cons name rest ih =>
    unfold resolveNames at h
    cases hf : p.findType? name with
    | none =>
      rw [hf] at h
      cases h
    | some d =>
      rw [hf] at h
      obtain ⟨others, between, hrest, -⟩ := Step.exists_of_run_bind h
      rintro other (_ | ⟨_, ho⟩)
      · rw [hf]
        exact Option.some_ne_none d
      · exact ih hrest other ho

theorem run_of_unresolved {names : List String} {options : ClosureOptions} {session : Session} {e : ClosureError}
    {after : Run} (h : (resolveSources p names).run.run { session } = (.error e, after)) :
    run p names options session = (.error e, after.session) := by
  unfold run closing
  rw [Step.run_bind_of_error h]

/-- **Passes for new members never change the answer.** With them and without them a run fails alike, or comes to the same sources, stubs, origins and diagnostics; and the list of passes is the same but for one at the end that adds nothing, which is made exactly if the last pass without them added a member. -/
theorem run_repass {p : Program} (hp : p.Built) (names : List String) (sink : Sink) :
    match run p names {} { sink }, run p names { repassOnNewMembers := true } { sink } with
    | (.error e, session), (.error e', session') =>
      e' = e ∧ session'.sink.diagnostics = session.sink.diagnostics
    | (.ok r, _), (.ok r', _) =>
      r'.sources = r.sources ∧ r'.stubs = r.stubs ∧ r'.origins = r.origins ∧ r'.diagnostics = r.diagnostics ∧
        ∃ summary, r.passes.getLast? = some summary ∧
          r'.passes = r.passes ++ idle (r.passes.length + 1) summary r.stubs
    | _, _ => False := by
  have hf : (Session.mk sink {}).memory.Faithful p := Memory.faithful_empty p
  rcases hresolve : (resolveSources p names).run.run { session := { sink } } with ⟨e | sources, mid⟩
  · rw [run_of_unresolved hresolve, run_of_unresolved hresolve]
    exact ⟨rfl, rfl⟩
  · have hn : ∀ name ∈ names, p.findType? name ≠ none := by
      obtain ⟨types, between, htypes, -⟩ := Step.exists_of_run_bind hresolve
      exact of_run_resolveNames htypes
    obtain ⟨sources', hsources, -⟩ := run_resolveSources hn { session := { sink } }
    obtain ⟨passes, ended, after, hloop, hrun⟩ := exists_passes_of_sources hp.coherent {} rfl hf hsources
    obtain ⟨passes', ended', after', hloop', hrun'⟩ :=
      exists_passes_of_sources hp.coherent { repassOnNewMembers := true } rfl hf hsources
    obtain ⟨extra, last, hr, hfollow, hend⟩ :=
      hloop.repass { repassOnNewMembers := true } rfl rfl
    obtain ⟨rfl, rfl, rfl⟩ := hloop'.unique hfollow
    rw [hrun, hrun']
    cases ended' with
    | some e =>
      exact ⟨rfl, hr.session.diagnostics⟩
    | none =>
      obtain ⟨summary, hlast, rfl⟩ := hend rfl
      refine ⟨rfl, congrArg StubSet.freeze hr.stubs, hr.origins, hr.session.diagnostics, summary, hlast, ?_⟩
      show passes ++ _ = passes ++ _
      rw [Nat.add_comm]
      rfl

/-- In the zoo, both runs come to a result, with the same stubs and at most one pass more. -/
theorem run_repass_zoo : Zoo.program.Built ∧
    ∃ r r', (run Zoo.program ["Foo"] {} { sink := {} }).1 = .ok r ∧
      (run Zoo.program ["Foo"] { repassOnNewMembers := true } { sink := {} }).1 = .ok r' ∧
      r'.stubs = r.stubs ∧ r'.passes.length ≤ r.passes.length + 1 := by
  have hn : ∀ name ∈ ["Foo"], Zoo.program.findType? name ≠ none := by decide
  have hsame := run_repass Zoo.built ["Foo"] {}
  have hcases := fun options hg => run_cases Zoo.built hn options hg {}
  rw [namedTypes_zoo] at hcases
  obtain ⟨-, sources, passes, after, -, hrun, -⟩ := (hcases {} rfl).resolve_left
    fun ⟨_, h, _⟩ => h.not_reportable (reportable_zoo _)
  obtain ⟨-, sources', passes', after', -, hrun', -⟩ :=
    (hcases { repassOnNewMembers := true } rfl).resolve_left
      fun ⟨_, h, _⟩ => h.not_reportable (reportable_zoo _)
  rcases h : run Zoo.program ["Foo"] {} { sink := {} } with ⟨outcome, session⟩
  rcases h' : run Zoo.program ["Foo"] { repassOnNewMembers := true } { sink := {} } with ⟨outcome', session'⟩
  rw [h] at hrun hsame
  rw [h'] at hrun' hsame
  dsimp only at hrun hrun'
  subst hrun hrun'
  obtain ⟨-, hstubs, -, -, summary, -, hpasses⟩ := hsame
  refine ⟨Zoo.built, _, _, rfl, rfl, hstubs, ?_⟩
  rw [hpasses, List.length_append]
  unfold idle
  split <;> simp

end StubClosure.Closure
