import StubClosure.Batch
import StubClosure.Proofs.Closure.Accounting
import StubClosure.Proofs.Closure.Sources

/-!
# Jobs, pass by pass

A job on its own is one run. A worker of a pool takes it up, resolves its names, and then makes one pass after the other; between two passes others may do theirs. `Task` is what a job is between two such steps, and `Due` says how many of them are left before the job is what it comes to on its own. The sink that a job writes to belongs to the batch and not to the engine that does the work, so it is handed over at each step.
-/

namespace StubClosure

open Closure

/-- Every name of a source type is known. -/
def Job.IsKnown (job : Job) : Prop := ∀ name ∈ job.sourceNames, job.program.Knows name

/-- The run of the job comes upon a call that it has to report and cannot. -/
def Job.Breaks (options : ClosureOptions) (job : Job) : Prop :=
  options.generateAll = false ∧ job.IsKnown ∧
    ¬ Reportable job.program (namedTypes job.program job.sourceNames)
      (wanting job.program (namedTypes job.program job.sourceNames)).lfp

namespace Batch

variable {options : ClosureOptions} {job : Job}

/-! ## What a job comes to -/

/-- A job fails on a name, or breaks off, or has a result. -/
theorem runJob_cases (hp : job.program.Built) (options : ClosureOptions) :
    (¬ job.IsKnown ∧ ∃ name, (runJob options job).result = .error (.unresolved name)) ∨
    (job.Breaks options ∧ ∃ cause, (runJob options job).result = .error (.receiver cause)) ∨
    (job.IsKnown ∧ ¬ job.Breaks options ∧ ∃ r, (runJob options job).result = .ok r) := by
  by_cases hknown : job.IsKnown
  · have hn : ∀ name ∈ job.sourceNames, job.program.findType? name ≠ none :=
      fun name h => hp.indexed.findType?_ne_none_iff.2 (hknown name h)
    by_cases hb : job.Breaks options
    · obtain ⟨hg, -, hmute⟩ := hb
      rcases run_cases hp hn options hg {} with ⟨_, ⟨c, -, cause, -, rfl⟩, hfail⟩ | ⟨hreport, -⟩
      · exact .inr (.inl ⟨⟨hg, hknown, hmute⟩, cause, hfail⟩)
      · exact absurd hreport hmute
    · refine .inr (.inr ⟨hknown, hb, (exists_ok_iff hp hn options {}).2 ?_⟩)
      by_contra hno
      rw [not_or, Bool.not_eq_true] at hno
      exact hb ⟨hno.1, hknown, hno.2⟩
  · obtain ⟨name, hmem, hno⟩ : ∃ name ∈ job.sourceNames, ¬ job.program.Knows name := by
      simpa only [Job.IsKnown, not_forall, exists_prop] using hknown
    have hn : job.program.findType? name = none := not_not.1 fun h => hno (hp.indexed.findType?_ne_none_iff.1 h)
    obtain ⟨first, -, -, hfail⟩ := exists_run_unresolved hmem hn options {}
    exact .inl ⟨hknown, first, hfail⟩

theorem breakdown?_ne_none_iff (hp : job.program.Built) :
    breakdown? (runJob options job) ≠ none ↔ job.Breaks options := by
  unfold breakdown?
  rcases runJob_cases hp options with ⟨hno, name, h⟩ | ⟨hb, cause, h⟩ | ⟨-, hb, r, h⟩
  · rw [h]
    exact ⟨fun hne => absurd rfl hne, fun hb => absurd hb.2.1 hno⟩
  · rw [h]
    exact ⟨fun _ => hb, fun _ => Option.some_ne_none _⟩
  · rw [h]
    exact ⟨fun hne => absurd rfl hne, fun h => absurd h hb⟩

theorem result_of_breakdown? {outcome : JobOutcome} {e : ClosureError} (h : breakdown? outcome = some e) :
    outcome.result = .error e := by
  unfold breakdown? at h
  split at h
  · cases h
  · cases h
  · next hresult => exact hresult.trans (congrArg Except.error (Option.some.inj h))

/-- What the jobs of a batch come to on their own. -/
def outcomes (options : ClosureOptions) (jobs : List (String × Job)) : List (String × JobOutcome) :=
  jobs.map fun job => (job.1, runJob options job.2)

section
variable {jobs : List (String × Job)} {name : String}

theorem run_eq_outcomes {workers : Option Int} (hw : ∀ n ∈ workers, 0 ≤ n) :
    run jobs options workers =
      match jobs.findSome? fun job => breakdown? (runJob options job.2) with
      | some error => .error (.broken error)
      | none => .ok (outcomes options jobs) := by
  have hworkers : workers.any (· < 0) = false := by
    cases workers with
    | none => rfl
    | some n => simpa using hw n rfl
  unfold run
  rw [hworkers, Bool.and_false, if_neg Bool.false_ne_true]
  dsimp only
  rw [List.findSome?_map]
  rfl

theorem run_of_whole {workers : Option Int} (hw : ∀ n ∈ workers, 0 ≤ n)
    (h : ∀ job ∈ jobs, breakdown? (runJob options job.2) = none) :
    run jobs options workers = .ok (outcomes options jobs) := by
  rw [run_eq_outcomes hw, List.findSome?_eq_none_iff.2 h]

theorem run_of_broken {workers : Option Int} (hw : ∀ n ∈ workers, 0 ≤ n) (hjob : (name, job) ∈ jobs)
    (h : breakdown? (runJob options job) ≠ none) :
    ∃ e, run jobs options workers = .error (.broken e) ∧ ∃ job ∈ jobs, breakdown? (runJob options job.2) = some e := by
  cases hfirst : jobs.findSome? fun job => breakdown? (runJob options job.2) with
  | none => exact absurd (List.findSome?_eq_none_iff.1 hfirst _ hjob) h
  | some e =>
    refine ⟨e, ?_, List.exists_of_findSome?_eq_some hfirst⟩
    rw [run_eq_outcomes hw, hfirst]

theorem results_cons (name : String) (outcome : JobOutcome) (rest : List (String × JobOutcome)) :
    results ((name, outcome) :: rest) = match outcome.result with
      | .ok r => (name, r) :: results rest
      | .error _ => results rest := by
  unfold results
  rw [List.filterMap_cons]
  dsimp only
  cases outcome.result <;> rfl

theorem failures_cons (name : String) (outcome : JobOutcome) (rest : List (String × JobOutcome)) :
    failures ((name, outcome) :: rest) = match outcome.result with
      | .ok _ => failures rest
      | .error e => (name, e) :: failures rest := by
  unfold failures
  rw [List.filterMap_cons]
  dsimp only
  cases outcome.result <;> rfl

theorem mem_outcomes {outcome : JobOutcome} :
    (name, outcome) ∈ outcomes options jobs ↔ ∃ job, (name, job) ∈ jobs ∧ runJob options job = outcome := by
  simp [outcomes]

theorem mem_results {r : ClosureResult} :
    (name, r) ∈ results (outcomes options jobs) ↔ ∃ job, (name, job) ∈ jobs ∧ (runJob options job).result = .ok r := by
  unfold results
  rw [List.mem_filterMap]
  constructor
  · rintro ⟨⟨_, outcome⟩, hmem, hr⟩
    obtain ⟨result, hresult, hpair⟩ := Option.map_eq_some_iff.1 hr
    cases hpair
    obtain ⟨job, hjob, rfl⟩ := mem_outcomes.1 hmem
    refine ⟨job, hjob, ?_⟩
    cases h : (runJob options job).result with
    | ok r =>
      rw [h] at hresult
      exact congrArg Except.ok (Option.some.inj hresult)
    | error e =>
      rw [h] at hresult
      cases hresult
  · rintro ⟨job, hjob, hr⟩
    refine ⟨(name, runJob options job), mem_outcomes.2 ⟨job, hjob, rfl⟩, ?_⟩
    dsimp only
    rw [hr]
    rfl

theorem mem_failures {e : ClosureError} :
    (name, e) ∈ failures (outcomes options jobs) ↔
      ∃ job, (name, job) ∈ jobs ∧ (runJob options job).result = .error e := by
  unfold failures
  rw [List.mem_filterMap]
  constructor
  · rintro ⟨⟨_, outcome⟩, hmem, he⟩
    obtain ⟨job, hjob, rfl⟩ := mem_outcomes.1 hmem
    dsimp only at he
    cases h : (runJob options job).result with
    | ok r =>
      rw [h] at he
      cases he
    | error e =>
      rw [h] at he
      cases he
      exact ⟨job, hjob, h⟩
  · rintro ⟨job, hjob, he⟩
    refine ⟨(name, runJob options job), mem_outcomes.2 ⟨job, hjob, rfl⟩, ?_⟩
    dsimp only
    rw [he]

end

/-! ## Steps of a job -/

/-- What an engine holds between two passes. -/
structure Engine where
  sources : List TypeId
  made : List PassSummary
  memory : Memory
  stubs : StubSet
  origins : Table TypeId TypeId

namespace Engine

/-- The run that the engine is in, with the sink that it writes to. -/
def resume (engine : Engine) (sink : Sink) : Run where
  session := { sink, memory := engine.memory }
  stubs := engine.stubs
  origins := engine.origins

/-- The engine of a run. -/
def ofRun (sources : List TypeId) (made : List PassSummary) (run : Run) : Engine where
  sources := sources
  made := made
  memory := run.session.memory
  stubs := run.stubs
  origins := run.origins

theorem resume_ofRun (sources : List TypeId) (made : List PassSummary) (run : Run) :
    (ofRun sources made run).resume run.session.sink = run := rfl

end Engine

/-- A job in the hands of a pool: not taken up, between two passes, ended, or ended and accounted for. -/
inductive Task where
  | waiting
  | running (engine : Engine)
  | ended (result : Except ClosureError ClosureResult)
  | collected

def Task.isRunning : Task → Bool
  | .running _ => true
  | _ => false

instance (options : ClosureOptions) (summary : PassSummary) : Decidable (Repeats options summary) :=
  inferInstanceAs (Decidable (_ ∨ _))

/-- Takes up a job: its names are resolved. -/
def takeUp (job : Job) (sink : Sink) : Task × Sink :=
  match (resolveSources job.program job.sourceNames).run.run { session := { sink } } with
  | (.error e, after) => (.ended (.error e), after.session.sink)
  | (.ok sources, after) => (.running (.ofRun sources [] (start sources after.session)), after.session.sink)

/-- Makes one pass. -/
def Engine.pass (p : Program) (options : ClosureOptions) (engine : Engine) (sink : Sink) : Task × Sink :=
  let work :=
    if options.generateAll then stubEverything p engine.sources
    else runPass p engine.sources (engine.made.length + 1)
  match work.run.run (engine.resume sink) with
  | (.error e, after) => (.ended (.error e), after.session.sink)
  | (.ok summary, after) =>
    let made := engine.made ++ [summary]
    if options.generateAll = false ∧ Repeats options summary then
      (.running (.ofRun engine.sources made (noted summary after)), (noted summary after).session.sink)
    else (.ended (.ok (result engine.sources made after)), after.session.sink)

/-- The next step of a job that has not ended. -/
def Task.advance? (options : ClosureOptions) (job : Job) (sink : Sink) : Task → Option (Task × Sink)
  | .waiting => some (takeUp job sink)
  | .running engine => some (engine.pass job.program options sink)
  | .ended _ | .collected => none

/-- The task, with what is in its sink, is a number of steps away from its end, and comes to the outcome. -/
inductive Due (options : ClosureOptions) (job : Job) (outcome : JobOutcome) : Task → Sink → Nat → Prop where
  | step {task task' : Task} {sink sink' : Sink} {left : Nat} (h : task.advance? options job sink = some (task', sink'))
      (hdue : Due options job outcome task' sink' left) : Due options job outcome task sink (left + 1)
  | ended : Due options job outcome (.ended outcome.result) outcome.sink 0

theorem Due.advance {outcome : JobOutcome} {task task' : Task} {sink sink' : Sink} {left : Nat}
    (hdue : Due options job outcome task sink left) (h : task.advance? options job sink = some (task', sink')) :
    ∃ rest, left = rest + 1 ∧ Due options job outcome task' sink' rest := by
  cases hdue with
  | step h' hdue =>
    cases h'.symm.trans h
    exact ⟨_, rfl, hdue⟩
  | ended => cases h

/-! ## The steps of a job come to what the job comes to -/

section
variable {sources : List TypeId} {made : List PassSummary} {run after : Run} {summary : PassSummary}

theorem pass_of_error {e : ClosureError} (hg : options.generateAll = false)
    (h : (runPass job.program sources (made.length + 1)).run.run run = (.error e, after)) :
    (Engine.ofRun sources made run).pass job.program options run.session.sink =
      (.ended (.error e), after.session.sink) := by
  unfold Engine.pass
  rw [Engine.resume_ofRun, if_neg (Bool.eq_false_iff.1 hg)]
  dsimp only [Engine.ofRun]
  rw [h]

theorem pass_of_repeats (hg : options.generateAll = false)
    (h : (runPass job.program sources (made.length + 1)).run.run run = (.ok summary, after))
    (hr : Repeats options summary) :
    (Engine.ofRun sources made run).pass job.program options run.session.sink =
      (.running (.ofRun sources (made ++ [summary]) (noted summary after)), (noted summary after).session.sink) := by
  unfold Engine.pass
  rw [Engine.resume_ofRun, if_neg (Bool.eq_false_iff.1 hg)]
  dsimp only [Engine.ofRun]
  rw [h]
  dsimp only
  rw [if_pos ⟨hg, hr⟩]

theorem pass_of_not_repeats (hg : options.generateAll = false)
    (h : (runPass job.program sources (made.length + 1)).run.run run = (.ok summary, after))
    (hr : ¬ Repeats options summary) :
    (Engine.ofRun sources made run).pass job.program options run.session.sink =
      (.ended (.ok (result sources (made ++ [summary]) after)), after.session.sink) := by
  unfold Engine.pass
  rw [Engine.resume_ofRun, if_neg (Bool.eq_false_iff.1 hg)]
  dsimp only [Engine.ofRun]
  rw [h]
  dsimp only
  rw [if_neg fun hboth => hr hboth.2]

theorem pass_of_generateAll (hg : options.generateAll = true) {outcome : Except ClosureError PassSummary}
    (h : (stubEverything job.program sources).run.run run = (outcome, after)) :
    (Engine.ofRun sources made run).pass job.program options run.session.sink =
      (.ended (outcome.map fun summary => result sources (made ++ [summary]) after), after.session.sink) := by
  unfold Engine.pass
  rw [Engine.resume_ofRun, if_pos hg]
  dsimp only [Engine.ofRun]
  rw [h]
  cases outcome with
  | error e => rfl
  | ok summary =>
    dsimp only
    rw [if_neg fun hboth => Bool.noConfusion (hg.symm.trans hboth.1)]
    rfl

/-- The passes of the loop are those that an engine makes one at a time. -/
theorem exists_due_of_passes (hg : options.generateAll = false) {index : Nat} {passes : List PassSummary}
    {ended : Option ClosureError} (h : Passes job.program options sources index run passes ended after)
    {made : List PassSummary} (hindex : index = made.length + 1) :
    ∃ left, Due options job { result := ending ended (result sources (made ++ passes) after), sink := after.session.sink }
      (.running (.ofRun sources made run)) run.session.sink left := by
  induction h generalizing made with
  | fail h =>
    subst hindex
    exact ⟨_, .step (congrArg some (pass_of_error hg h)) .ended⟩
  | last h hr =>
    subst hindex
    exact ⟨_, .step (congrArg some (pass_of_not_repeats hg h hr)) .ended⟩
  | @more index run mid after summary rest ended h hr hrest ih =>
    subst hindex
    obtain ⟨left, hdue⟩ := @ih (made ++ [summary]) (by rw [List.length_append, List.length_singleton])
    rw [List.append_assoc, List.singleton_append] at hdue
    exact ⟨_, .step (congrArg some (pass_of_repeats hg h hr)) hdue⟩

end

/-- **A job taken step by step comes to what it comes to on its own.** -/
theorem exists_due (hp : job.program.Coherent) (options : ClosureOptions) :
    ∃ left, Due options job (runJob options job) .waiting {} left := by
  rcases hs : (resolveSources job.program job.sourceNames).run.run {} with ⟨e | sources, after⟩
  · have htake : takeUp job {} = (.ended (.error e), after.session.sink) := by
      unfold takeUp
      rw [show ({ session := { sink := {} } } : Run) = {} from rfl, hs]
    have hjob : runJob options job = { result := .error e, sink := after.session.sink } := by
      unfold runJob
      rw [run_of_unresolved hs]
    rw [hjob]
    exact ⟨_, .step (congrArg some htake) .ended⟩
  · obtain ⟨rfl, -⟩ := of_run_resolveSources hs
    have htake : takeUp job {} = (.running (.ofRun sources [] (start sources {})), {}) := by
      unfold takeUp
      rw [show ({ session := { sink := {} } } : Run) = {} from rfl, hs]
    suffices hdue : ∃ left, Due options job (runJob options job) (.running (.ofRun sources [] (start sources {}))) {} left by
      obtain ⟨left, hdue⟩ := hdue
      exact ⟨_, .step (congrArg some htake) hdue⟩
    cases hg : options.generateAll with
    | false =>
      obtain ⟨passes, ended, last, hloop, hrun⟩ :=
        exists_passes_of_sources hp options hg (Memory.faithful_empty job.program) hs
      have hjob : runJob options job = { result := ending ended (result sources passes last), sink := last.session.sink } := by
        unfold runJob
        rw [hrun]
      rw [hjob]
      exact exists_due_of_passes hg hloop (show 1 = ([] : List PassSummary).length + 1 from rfl)
    | true =>
      rcases hone : (stubEverything job.program sources).run.run (start sources {}) with ⟨outcome, last⟩
      have hpasses : (passes job.program options sources).run.run (start sources {}) =
          (outcome.map fun summary => [summary], last) := by
        unfold passes
        rw [if_pos hg, Step.run_bind, hone]
        cases outcome <;> rfl
      have hjob : runJob options job =
          { result := outcome.map fun summary => result sources ([] ++ [summary]) last, sink := last.session.sink } := by
        unfold runJob
        cases outcome with
        | error e => rw [Closure.run_eq hs (show _ = (ending (some e) [], last) from hpasses)]; rfl
        | ok summary => rw [Closure.run_eq hs (show _ = (ending none [summary], last) from hpasses)]; rfl
      rw [hjob]
      exact ⟨_, .step (congrArg some (pass_of_generateAll hg hone)) .ended⟩

end Batch

end StubClosure
