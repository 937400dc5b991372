import StubClosure.Proofs.Program.Built
import StubClosure.Proofs.Closure.Loop

/-!
# The stub types are a least fixed point

Pass by pass, the keys of the stubs go through the iterates of `wanting` from the empty set, and the loop ends when they come to stand still: at the least set of types that is closed under what leaking calls ask for. A run has no result only if some leaking call with respect to that set is mute.
-/

namespace StubClosure.Closure

variable {p : Program} {options : ClosureOptions} {sources : List TypeId}

theorem iterate_subset_succ (wants : Set TypeId →o Set TypeId) (n : Nat) : wants^[n] ∅ ⊆ wants^[n + 1] ∅ :=
  wants.monotone.monotone_iterate_of_le_map (Set.empty_subset _) (Nat.le_succ n)

theorem iterate_subset_lfp (wants : Set TypeId →o Set TypeId) (n : Nat) : wants^[n] ∅ ⊆ wants.lfp := by
  induction n with
  | zero => exact Set.empty_subset _
  | succ n ih =>
    rw [Function.iterate_succ_apply']
    exact wants.map_le_lfp ih

/-- An iterate at which nothing more is wanted is the least fixed point. -/
theorem eq_lfp_of_iterate {wants : Set TypeId →o Set TypeId} {n : Nat} {known : Set TypeId}
    (hn : known = wants^[n] ∅) (hk : wants known ⊆ known) : known = wants.lfp := by
  refine Set.Subset.antisymm ?_ (wants.lfp_le hk)
  rw [hn]
  exact iterate_subset_lfp wants n

/-- A pass takes the keys from one iterate to the next. -/
theorem Passed.keySet_eq {index : Nat} {run after : Run} {summary : PassSummary}
    (h : Passed p sources index run summary after) {n : Nat}
    (hn : keySet run = (wanting p {t | t ∈ sources})^[n] ∅) :
    keySet after = (wanting p {t | t ∈ sources})^[n + 1] ∅ := by
  have hstep := iterate_subset_succ (wanting p {t | t ∈ sources}) n
  rw [Function.iterate_succ_apply', ← hn] at hstep ⊢
  ext t
  have hnew := h.newTypes t
  have hkeys : t ∈ keySet after ↔ t ∈ keySet run ∨ t ∈ summary.newTypes := by
    show t ∈ after.stubs.entries.keys ↔ _
    rw [h.keys, List.mem_append]
    rfl
  constructor
  · intro ht
    rcases hkeys.1 ht with ht | ht
    · exact hstep ht
    · exact (hnew.1 ht).1
  · intro ht
    by_cases hk : t ∈ keySet run
    · exact hkeys.2 (.inl hk)
    · exact hkeys.2 (.inr (hnew.2 ⟨ht, hk⟩))

theorem Passed.wanting_subset {index : Nat} {run after : Run} {summary : PassSummary}
    (h : Passed p sources index run summary after) (hnew : summary.newTypes = []) :
    keySet after = keySet run ∧ wanting p {t | t ∈ sources} (keySet run) ⊆ keySet run := by
  constructor
  · rw [keySet, h.keys, hnew, List.append_nil]
    rfl
  · intro t ht
    by_contra hk
    have := (h.newTypes t).2 ⟨ht, hk⟩
    rw [hnew] at this
    cases this

/-- What the loop goes through, from an iterate on. -/
structure Iterated (p : Program) (sources : List TypeId) (n : Nat) (passes : List PassSummary) (after : Run) : Prop where
  snapshots : ∀ i summary, passes[i]? = some summary →
    {t | t ∈ summary.snapshot.keys} = (wanting p {t | t ∈ sources})^[n + i + 1] ∅
  keys : keySet after = (wanting p {t | t ∈ sources})^[n + passes.length] ∅

theorem Passes.iterated (hp : p.Coherent) {index : Nat} {run after : Run} {passes : List PassSummary}
    {ended : Option ClosureError} (h : Passes p options sources index run passes ended after)
    (hr : Sound p sources run) {n : Nat} (hn : keySet run = (wanting p {t | t ∈ sources})^[n] ∅) :
    Iterated p sources n passes after := by
  induction h generalizing n with
  | @fail index run after e h =>
    obtain ⟨-, hs⟩ := hr.failed hp h
    have hkeys : keySet after = keySet run := congrArg (fun stubs : StubSet => {t | t ∈ stubs.entries.keys}) hs
    exact ⟨by simp, hkeys.trans hn⟩
  | @last index run after summary h =>
    have hpassed := hr.passed hp h
    refine ⟨?_, hpassed.keySet_eq hn⟩
    intro i other hi
    obtain ⟨rfl, rfl⟩ : i = 0 ∧ summary = other := by simpa [List.getElem?_singleton] using hi
    rw [hpassed.snapshot]
    exact hpassed.keySet_eq hn
  | @more index run mid after summary rest ended h hrep hrest ih =>
    have hpassed := hr.passed hp h
    have hiter := ih (hpassed.sound.noted summary) (hpassed.keySet_eq hn)
    refine ⟨?_, ?_⟩
    · intro i other hi
      cases i with
      | zero =>
        obtain rfl := Option.some.inj hi
        rw [hpassed.snapshot]
        exact hpassed.keySet_eq hn
      | succ i =>
        rw [show n + (i + 1) + 1 = n + 1 + i + 1 by omega]
        exact hiter.snapshots i other hi
    · rw [hiter.keys, List.length_cons, show n + 1 + rest.length = n + (rest.length + 1) by omega]

/-- What holds when the loop has come to an end of its own: nothing more is wanted, and what is wanted has its members. -/
structure Settled (p : Program) (sources : List TypeId) (after : Run) : Prop where
  sound : Sound p sources after
  closed : wanting p {t | t ∈ sources} (keySet after) ⊆ keySet after
  filled : ∀ t ∈ wanting p {t | t ∈ sources} (keySet after), ∀ s,
    Exposed p {t | t ∈ sources} (keySet after) t s → s ∈ (membersAt after.stubs.entries t).keys
  reportable : Reportable p {t | t ∈ sources} (keySet after)

/-- The end of the loop: either it settles, or a call is mute that leaks with respect to the keys then known. -/
theorem Passes.ended_cases (hp : p.Coherent) {index : Nat} {run after : Run} {passes : List PassSummary}
    {ended : Option ClosureError} (h : Passes p options sources index run passes ended after)
    (hr : Sound p sources run) : (ended = none ∧ Settled p sources after) ∨
      ∃ e, ended = some e ∧ Muted p {t | t ∈ sources} (keySet after) e := by
  induction h with
  | @fail index run after e h =>
    obtain ⟨hmuted, hs⟩ := hr.failed hp h
    refine .inr ⟨e, rfl, ?_⟩
    rwa [keySet, hs]
  | @last index run after summary h hrep =>
    have hpassed := hr.passed hp h
    obtain ⟨hkeys, hclosed⟩ := hpassed.wanting_subset (not_not.1 (not_or.1 hrep).1)
    refine .inl ⟨rfl, hpassed.sound, ?_, ?_, ?_⟩
    · rwa [hkeys]
    · rw [hkeys]
      exact hpassed.filled
    · rw [hkeys]
      exact hpassed.reportable
  | @more index run mid after summary rest ended h hrep hrest ih =>
    have hpassed := hr.passed hp h
    exact ih (hpassed.sound.noted summary)

/-- A run is its loop of passes. It fails on a mute call that leaks with respect to the least fixed point, or the loop settles there. -/
theorem run_passes_cases {p : Program} (hp : p.Built) {names : List String}
    (hn : ∀ name ∈ names, p.findType? name ≠ none) (options : ClosureOptions) (hg : options.generateAll = false)
    (sink : Sink) : ∃ sources passes ended after, {t | t ∈ sources} = namedTypes p names ∧
      (resolveSources p names).run.run { session := { sink } } = (.ok sources, { session := { sink } }) ∧
      Passes p options sources 1 (start sources { sink }) passes ended after ∧
      (run p names options { sink }).1 = ending ended (result sources passes after) ∧
      ((∃ e, Muted p (namedTypes p names) (wanting p (namedTypes p names)).lfp e ∧ ended = some e) ∨
        (Reportable p (namedTypes p names) (wanting p (namedTypes p names)).lfp ∧ ended = none ∧
          Settled p sources after ∧ Iterated p sources 0 passes after ∧
            keySet after = (wanting p (namedTypes p names)).lfp)) := by
  obtain ⟨sources, hsources, hset⟩ := run_resolveSources hn { session := { sink } }
  have hsound := sound_start sources { sink } (Memory.faithful_empty p)
  obtain ⟨passes, ended, after, hloop, hrun⟩ :=
    exists_passes_of_sources hp.coherent options hg (Memory.faithful_empty p) hsources
  refine ⟨sources, passes, ended, after, hset, hsources, hloop, congrArg Prod.fst hrun, ?_⟩
  have hiter := hloop.iterated hp.coherent hsound (n := 0) (keySet_start sources _)
  have hkeys := hiter.keys
  rcases hloop.ended_cases hp.coherent hsound with ⟨rfl, hsettled⟩ | ⟨e, rfl, hmuted⟩
  · have hlfp := eq_lfp_of_iterate hkeys hsettled.closed
    have hreport := hsettled.reportable
    rw [hlfp] at hreport
    rw [hset] at hreport hlfp
    exact .inr ⟨hreport, rfl, hsettled, hiter, hlfp⟩
  · rw [hkeys, hset] at hmuted
    exact .inl ⟨e, hmuted.mono (iterate_subset_lfp _ _), rfl⟩

theorem run_cases {p : Program} (hp : p.Built) {names : List String} (hn : ∀ name ∈ names, p.findType? name ≠ none)
    (options : ClosureOptions) (hg : options.generateAll = false) (sink : Sink) :
    (∃ e, Muted p (namedTypes p names) (wanting p (namedTypes p names)).lfp e ∧
      (run p names options { sink }).1 = .error e) ∨
    (Reportable p (namedTypes p names) (wanting p (namedTypes p names)).lfp ∧ ∃ sources passes after,
      {t | t ∈ sources} = namedTypes p names ∧ (run p names options { sink }).1 = .ok (result sources passes after) ∧
        Settled p sources after ∧ Iterated p sources 0 passes after ∧
          keySet after = (wanting p (namedTypes p names)).lfp) := by
  obtain ⟨sources, passes, ended, after, hset, -, -, hrun, ⟨e, hmuted, rfl⟩ | ⟨hreport, rfl, hrest⟩⟩ :=
    run_passes_cases hp hn options hg sink
  · exact .inl ⟨e, hmuted, hrun⟩
  · exact .inr ⟨hreport, sources, passes, after, hset, hrun, hrest⟩

/-- **The stub types are a least fixed point.** A run with default options comes to a result exactly if no call is mute that leaks with respect to the least fixed point of what is wanted. The keys after each pass are then the next iterate from the empty set, and the keys in the end are that fixed point. -/
theorem run_keys_eq_lfp {p : Program} (hp : p.Built) {names : List String}
    (hn : ∀ name ∈ names, p.findType? name ≠ none) (sink : Sink) :
    let wants := wanting p (namedTypes p names)
    let outcome := (run p names {} { sink }).1
    (¬ Reportable p (namedTypes p names) wants.lfp →
      ∃ e, Muted p (namedTypes p names) wants.lfp e ∧ outcome = .error e) ∧
    (Reportable p (namedTypes p names) wants.lfp → ∃ r, outcome = .ok r ∧
      {t | t ∈ r.sources} = namedTypes p names ∧
      (∀ i summary, r.passes[i]? = some summary → {t | t ∈ summary.snapshot.keys} = wants^[i + 1] ∅) ∧
      {t | t ∈ r.stubs.entries.keys} = wants^[r.passes.length] ∅ ∧
      wants {t | t ∈ r.stubs.entries.keys} = {t | t ∈ r.stubs.entries.keys} ∧
      ∀ known, wants known ⊆ known → {t | t ∈ r.stubs.entries.keys} ⊆ known) := by
  intro wants outcome
  rcases run_cases hp hn {} rfl sink with
    ⟨e, hmuted, hfail⟩ | ⟨hreport, sources, passes, after, hset, hok, -, ⟨hsnap, hkeys⟩, hlfp⟩
  · exact ⟨fun _ => ⟨e, hmuted, hfail⟩, fun hreport => absurd hreport hmuted.not_reportable⟩
  · rw [hset] at hsnap hkeys
    simp only [Nat.zero_add] at hsnap hkeys
    refine ⟨fun h => absurd hreport h, fun _ => ⟨result sources passes after, hok, hset, hsnap, hkeys, ?_, ?_⟩⟩
    · show wants (keySet after) = keySet after
      rw [hlfp]
      exact wants.map_lfp
    · intro known hknown
      show keySet after ⊆ known
      rw [hlfp]
      exact wants.lfp_le hknown

/-- In the zoo, an animal and a dog need stubs. -/
theorem run_keys_zoo : (∀ name ∈ ["Foo"], Zoo.program.findType? name ≠ none) ∧
    ∃ r, (run Zoo.program ["Foo"] {} { sink := {} }).1 = .ok r ∧
      {t | t ∈ r.stubs.entries.keys} = {Zoo.animal, Zoo.dog} := by
  have hn : ∀ name ∈ ["Foo"], Zoo.program.findType? name ≠ none := by decide
  have hrun := (run_keys_eq_lfp Zoo.built hn {}).2
  rw [namedTypes_zoo] at hrun
  obtain ⟨r, hok, -, -, -, hclosed, -⟩ := hrun (reportable_zoo _)
  refine ⟨hn, r, hok, ?_⟩
  rw [← hclosed, wanting_zoo]

end StubClosure.Closure
