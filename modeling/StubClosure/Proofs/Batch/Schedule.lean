import StubClosure.Proofs.Batch.Engine

/-!
# Batches, in any order

A batch hands its jobs to a pool of workers. The pool takes the jobs up in their order, as many at a time as there are workers; the passes of those that are under way come in any order, and so do the ends of jobs, which are accounted for one by one. `Moves` is one such step and `Reaches` a row of them. A job that breaks off ends the accounting, though not the work of the other jobs.

The model makes one job after the other and has no pool. That this is the same is due to what the jobs do not share: a step of one leaves the task of every other where it is, and its sink as it was (`Stands`). So however the steps are mixed, each job is on its way to what it comes to on its own.
-/

namespace StubClosure.Batch

/-- The number of workers. If it is left open there are at most four, and not more than jobs. -/
def capacity (jobs : List (String × Job)) : Option Int → Nat
  | none => min 4 jobs.length
  | some workers => if workers = 0 then min 4 jobs.length else workers.toNat

/-- A batch under way: its tasks and sinks, what has been accounted for, and the error that has ended the accounting. -/
structure Pool where
  tasks : Table String Task
  sinks : Table String Sink
  results : Table String ClosureResult := {}
  failures : Table String ClosureError := {}
  raised : Option ClosureError := none

namespace Pool

/-- All jobs wait, and their sinks are empty. -/
def start (jobs : List (String × Job)) : Pool where
  tasks := ⟨jobs.map fun job => (job.1, .waiting)⟩
  sinks := ⟨jobs.map fun job => (job.1, {})⟩

/-- The number of workers that are at work. -/
def busy (jobs : List (String × Job)) (pool : Pool) : Nat :=
  jobs.countP fun job => (pool.tasks.find? job.1).any Task.isRunning

/-- A step of one job. -/
def put (pool : Pool) (name : String) (task : Task) (sink : Sink) : Pool :=
  { pool with tasks := pool.tasks.insert name task, sinks := pool.sinks.insert name sink }

/-- Accounts for a job that has ended. What is no failure of the job alone is raised. -/
def collect (pool : Pool) (name : String) (result : Except ClosureError ClosureResult) : Pool :=
  let pool := { pool with tasks := pool.tasks.insert name .collected }
  match result with
  | .ok r => { pool with results := pool.results.insert name r }
  | .error (.unresolved source) => { pool with failures := pool.failures.insert name (.unresolved source) }
  | .error e => { pool with raised := some e }

end Pool

/-- One step of a batch: a worker that is free takes up the first job that waits; a job that is under way makes a pass; or a job that has ended is accounted for, unless an error was raised before. -/
inductive Moves (jobs : List (String × Job)) (options : ClosureOptions) (capacity : Nat) (pool : Pool) : Pool → Prop where
  | takeUp {before after : List (String × Job)} {name : String} {job : Job} {task : Task} {sink sink' : Sink}
      (hjob : jobs = before ++ (name, job) :: after) (hbusy : pool.busy jobs < capacity)
      (hfirst : ∀ other ∈ before, pool.tasks.find? other.1 ≠ some .waiting)
      (ht : pool.tasks.find? name = some .waiting) (hs : pool.sinks.find? name = some sink)
      (h : Batch.takeUp job sink = (task, sink')) : Moves jobs options capacity pool (pool.put name task sink')
  | pass {name : String} {job : Job} {engine : Engine} {task : Task} {sink sink' : Sink} (hjob : (name, job) ∈ jobs)
      (ht : pool.tasks.find? name = some (.running engine)) (hs : pool.sinks.find? name = some sink)
      (h : engine.pass job.program options sink = (task, sink')) :
      Moves jobs options capacity pool (pool.put name task sink')
  | collect {name : String} {job : Job} {result : Except ClosureError ClosureResult} (hjob : (name, job) ∈ jobs)
      (hopen : pool.raised = none) (ht : pool.tasks.find? name = some (.ended result)) :
      Moves jobs options capacity pool (pool.collect name result)

/-- The pools that a batch may get to, by the number of steps. -/
inductive Reaches (jobs : List (String × Job)) (options : ClosureOptions) (capacity : Nat) : Nat → Pool → Prop where
  | start : Reaches jobs options capacity 0 (.start jobs)
  | move {n : Nat} {pool next : Pool} (h : Reaches jobs options capacity n pool)
      (hm : Moves jobs options capacity pool next) : Reaches jobs options capacity (n + 1) next

variable {jobs : List (String × Job)} {options : ClosureOptions} {pool next : Pool} {name : String} {job : Job}

theorem capacity_pos {workers : Option Int} (hjobs : jobs ≠ []) (hw : ∀ n ∈ workers, 0 ≤ n) :
    0 < capacity jobs workers := by
  have hpos := List.length_pos_iff.2 hjobs
  unfold capacity
  cases workers with
  | none => exact lt_min (by omega) hpos
  | some n =>
    have hn := hw n rfl
    dsimp only
    split
    · exact lt_min (by omega) hpos
    · omega

/-! ## What the steps of one job leave alone -/

/-- A reason that the batch keeps as a failure of the job. -/
def failure? : Except ClosureError ClosureResult → Option ClosureError
  | .error (.unresolved source) => some (.unresolved source)
  | _ => none

namespace Pool

theorem find?_tasks_put (pool : Pool) (task : Task) (sink : Sink) (other : String) :
    (pool.put name task sink).tasks.find? other = if other = name then some task else pool.tasks.find? other :=
  Table.find?_insert _ _ _ _

theorem find?_sinks_put (pool : Pool) (task : Task) (sink : Sink) (other : String) :
    (pool.put name task sink).sinks.find? other = if other = name then some sink else pool.sinks.find? other :=
  Table.find?_insert _ _ _ _

theorem find?_tasks_collect (pool : Pool) (result : Except ClosureError ClosureResult) (other : String) :
    (pool.collect name result).tasks.find? other = if other = name then some .collected else pool.tasks.find? other := by
  rcases result with (_ | _ | _ | _) | _ <;> exact Table.find?_insert _ _ _ _

theorem sinks_collect (pool : Pool) (result : Except ClosureError ClosureResult) :
    (pool.collect name result).sinks = pool.sinks := by
  rcases result with (_ | _ | _ | _) | _ <;> rfl

theorem find?_results_collect (pool : Pool) (result : Except ClosureError ClosureResult) (other : String) :
    (pool.collect name result).results.find? other =
      if other = name then result.toOption.or (pool.results.find? name) else pool.results.find? other := by
  rcases result with (_ | _ | _ | _) | _
  case ok => exact Table.find?_insert _ _ _ _
  all_goals
    split
    · next h => rw [h]; rfl
    · rfl

theorem find?_failures_collect (pool : Pool) (result : Except ClosureError ClosureResult) (other : String) :
    (pool.collect name result).failures.find? other =
      if other = name then (failure? result).or (pool.failures.find? name) else pool.failures.find? other := by
  rcases result with (_ | _ | _ | _) | _
  case error.unresolved => exact Table.find?_insert _ _ _ _
  all_goals
    split
    · next h => rw [h]; rfl
    · rfl

theorem raised_collect (pool : Pool) (name : String) (outcome : JobOutcome) :
    (pool.collect name outcome.result).raised = (breakdown? outcome).or pool.raised := by
  unfold breakdown?
  rcases outcome.result with (_ | _ | _ | _) | _ <;> rfl

theorem find?_start {ν : Type} (hnames : (jobs.map (·.1)).Nodup) (hjob : (name, job) ∈ jobs) (value : ν) :
    (Table.mk (jobs.map fun job => (job.1, value))).find? name = some value := by
  refine @Table.find?_of_mem _ _ _ ⟨jobs.map fun job => (job.1, value)⟩ ?_ (name, value) (List.mem_map_of_mem hjob)
  show ((jobs.map fun job => (job.1, value)).map (·.1)).Nodup
  rw [List.map_map]
  exact hnames

/-- Where a job stands: it has a number of steps to go, of which the last is the accounting; before it nothing is on record, and after it what the job comes to on its own. -/
inductive Stands (options : ClosureOptions) (pool : Pool) (name : String) (job : Job) : Nat → Prop where
  | under {task : Task} {sink : Sink} {left : Nat} (ht : pool.tasks.find? name = some task)
      (hs : pool.sinks.find? name = some sink) (hdue : Due options job (runJob options job) task sink left)
      (hr : pool.results.find? name = none) (hf : pool.failures.find? name = none) :
      Stands options pool name job (left + 1)
  | collected (ht : pool.tasks.find? name = some .collected)
      (hs : pool.sinks.find? name = some (runJob options job).sink)
      (hr : pool.results.find? name = (runJob options job).result.toOption)
      (hf : pool.failures.find? name = failure? (runJob options job).result) : Stands options pool name job 0

theorem Stands.congr {left : Nat} (h : pool.Stands options name job left)
    (ht : next.tasks.find? name = pool.tasks.find? name) (hs : next.sinks.find? name = pool.sinks.find? name)
    (hr : next.results.find? name = pool.results.find? name)
    (hf : next.failures.find? name = pool.failures.find? name) : next.Stands options name job left := by
  cases h with
  | under ht' hs' hdue hr' hf' => exact .under (ht.trans ht') (hs.trans hs') hdue (hr.trans hr') (hf.trans hf')
  | collected ht' hs' hr' hf' => exact .collected (ht.trans ht') (hs.trans hs') (hr.trans hr') (hf.trans hf')

theorem Stands.put_of_ne {other : String} {left : Nat} (h : pool.Stands options name job left) (hne : name ≠ other)
    (task : Task) (sink : Sink) : (pool.put other task sink).Stands options name job left := by
  refine h.congr ?_ ?_ rfl rfl
  · rw [find?_tasks_put, if_neg hne]
  · rw [find?_sinks_put, if_neg hne]

theorem Stands.collect_of_ne {other : String} {left : Nat} (h : pool.Stands options name job left) (hne : name ≠ other)
    (result : Except ClosureError ClosureResult) : (pool.collect other result).Stands options name job left := by
  refine h.congr ?_ ?_ ?_ ?_
  · rw [find?_tasks_collect, if_neg hne]
  · rw [sinks_collect]
  · rw [find?_results_collect, if_neg hne]
  · rw [find?_failures_collect, if_neg hne]

theorem Stands.put {left : Nat} {task task' : Task} {sink sink' : Sink} (h : pool.Stands options name job left)
    (ht : pool.tasks.find? name = some task) (hs : pool.sinks.find? name = some sink)
    (hstep : task.advance? options job sink = some (task', sink')) :
    ∃ rest, left = rest + 2 ∧ (pool.put name task' sink').Stands options name job (rest + 1) := by
  cases h with
  | under ht' hs' hdue hr hf =>
    obtain rfl := Option.some.inj (ht'.symm.trans ht)
    obtain rfl := Option.some.inj (hs'.symm.trans hs)
    obtain ⟨rest, rfl, hdue'⟩ := hdue.advance hstep
    refine ⟨rest, rfl, .under ?_ ?_ hdue' hr hf⟩
    · rw [find?_tasks_put, if_pos rfl]
    · rw [find?_sinks_put, if_pos rfl]
  | collected ht' =>
    obtain rfl := Option.some.inj (ht'.symm.trans ht)
    cases hstep

theorem Stands.collect {left : Nat} {result : Except ClosureError ClosureResult}
    (h : pool.Stands options name job left) (ht : pool.tasks.find? name = some (.ended result)) :
    left = 1 ∧ result = (runJob options job).result ∧ (pool.collect name result).Stands options name job 0 := by
  cases h with
  | under ht' hs hdue hr hf =>
    obtain rfl := Option.some.inj (ht'.symm.trans ht)
    cases hdue with
    | step h => cases h
    | ended =>
      refine ⟨rfl, rfl, .collected ?_ ?_ ?_ ?_⟩
      · rw [find?_tasks_collect, if_pos rfl]
      · rw [sinks_collect, hs]
      · rw [find?_results_collect, if_pos rfl, hr, Option.or_none]
      · rw [find?_failures_collect, if_pos rfl, hf, Option.or_none]
  | collected ht' => cases ht.symm.trans ht'

end Pool

/-! ## What a batch keeps -/

/-- The names of the jobs. -/
def names (jobs : List (String × Job)) : Finset String := (jobs.map (·.1)).toFinset

/-- Every job stands where it has so many steps to go; nothing is on record for others; and the error that was raised is that of a job that has been accounted for. -/
structure Keeps (jobs : List (String × Job)) (options : ClosureOptions) (pool : Pool) (left : String → Nat) : Prop where
  stands : ∀ name job, (name, job) ∈ jobs → pool.Stands options name job (left name)
  strangers : ∀ name ∉ names jobs, pool.results.find? name = none ∧ pool.failures.find? name = none
  raised : ∀ e, pool.raised = some e → ∃ job ∈ jobs, breakdown? (runJob options job.2) = some e
  quiet : pool.raised = none → ∀ job ∈ jobs, left job.1 = 0 → breakdown? (runJob options job.2) = none

theorem mem_names (hjob : (name, job) ∈ jobs) : name ∈ names jobs := List.mem_toFinset.2 (List.mem_map_of_mem hjob)

theorem eq_of_mem (hnames : (jobs.map (·.1)).Nodup) {other : Job} (hjob : (name, job) ∈ jobs)
    (hother : (name, other) ∈ jobs) : other = job :=
  (Prod.mk.inj (List.inj_on_of_nodup_map hnames hother hjob rfl)).2

theorem exists_keeps_start (hnames : (jobs.map (·.1)).Nodup) (hp : ∀ job ∈ jobs, job.2.program.Coherent)
    (options : ClosureOptions) : ∃ left, (∀ name, 0 < left name) ∧ Keeps jobs options (.start jobs) left := by
  have hdue : ∀ name, ∃ left, ∀ job, (name, job) ∈ jobs → Due options job (runJob options job) .waiting {} left := by
    intro name
    by_cases h : ∃ job, (name, job) ∈ jobs
    · obtain ⟨job, hjob⟩ := h
      obtain ⟨left, hdue⟩ := exists_due (hp _ hjob) options
      refine ⟨left, fun other hother => ?_⟩
      rw [eq_of_mem hnames hjob hother]
      exact hdue
    · exact ⟨0, fun job hjob => absurd ⟨job, hjob⟩ h⟩
  choose left hleft using hdue
  refine ⟨fun name => left name + 1, fun name => Nat.succ_pos _, fun name job hjob => ?_, ?_, ?_, ?_⟩
  · exact .under (Pool.find?_start hnames hjob _) (Pool.find?_start hnames hjob _) (hleft name job hjob) rfl rfl
  · exact fun name _ => ⟨rfl, rfl⟩
  · rintro e ⟨⟩
  · rintro - job - ⟨⟩

theorem Keeps.put (hnames : (jobs.map (·.1)).Nodup) {left : String → Nat} (h : Keeps jobs options pool left)
    (hjob : (name, job) ∈ jobs) {task task' : Task} {sink sink' : Sink} (ht : pool.tasks.find? name = some task)
    (hs : pool.sinks.find? name = some sink) (hstep : task.advance? options job sink = some (task', sink')) :
    ∃ rest, left name = rest + 1 ∧ Keeps jobs options (pool.put name task' sink') (Function.update left name rest) := by
  obtain ⟨rest, hleft, hstands⟩ := (h.stands name job hjob).put ht hs hstep
  refine ⟨rest + 1, hleft, fun other job' hother => ?_, h.strangers, h.raised, fun hopen job' hjob' hzero => ?_⟩
  · by_cases hne : other = name
    · subst hne
      rw [Function.update_self, eq_of_mem hnames hjob hother]
      exact hstands
    · rw [Function.update_of_ne hne]
      exact (h.stands other job' hother).put_of_ne hne task' sink'
  · by_cases hne : job'.1 = name
    · rw [hne, Function.update_self] at hzero
      exact absurd hzero (Nat.succ_ne_zero rest)
    · rw [Function.update_of_ne hne] at hzero
      exact h.quiet hopen job' hjob' hzero

theorem Keeps.collect (hnames : (jobs.map (·.1)).Nodup) {left : String → Nat} (h : Keeps jobs options pool left)
    (hjob : (name, job) ∈ jobs) (hopen : pool.raised = none) {result : Except ClosureError ClosureResult}
    (ht : pool.tasks.find? name = some (.ended result)) :
    left name = 1 ∧ Keeps jobs options (pool.collect name result) (Function.update left name 0) := by
  obtain ⟨hleft, rfl, hstands⟩ := (h.stands name job hjob).collect ht
  have hraised := pool.raised_collect name (runJob options job)
  rw [hopen, Option.or_none] at hraised
  refine ⟨hleft, fun other job' hother => ?_, fun other hother => ?_, fun e he => ?_, fun hquiet job' hjob' hzero => ?_⟩
  · by_cases hne : other = name
    · subst hne
      rw [Function.update_self, eq_of_mem hnames hjob hother]
      exact hstands
    · rw [Function.update_of_ne hne]
      exact (h.stands other job' hother).collect_of_ne hne _
  · have hne : other ≠ name := fun he => hother (he ▸ mem_names hjob)
    rw [Pool.find?_results_collect, Pool.find?_failures_collect, if_neg hne, if_neg hne]
    exact h.strangers other hother
  · exact ⟨_, hjob, hraised.symm.trans he⟩
  · by_cases hne : job'.1 = name
    · obtain ⟨_, job'⟩ := job'
      obtain rfl : _ = name := hne
      rw [eq_of_mem hnames hjob hjob']
      exact hraised.symm.trans hquiet
    · rw [Function.update_of_ne hne] at hzero
      exact h.quiet hopen job' hjob' hzero

/-- A step of the batch is a step of one job. -/
theorem Keeps.move (hnames : (jobs.map (·.1)).Nodup) {workers : Nat} {left : String → Nat}
    (h : Keeps jobs options pool left) (hm : Moves jobs options workers pool next) :
    ∃ name ∈ names jobs, ∃ rest, left name = rest + 1 ∧ Keeps jobs options next (Function.update left name rest) := by
  cases hm with
  | @takeUp before after name job _ _ _ hjob hbusy hfirst ht hs htake =>
    have hmem : (name, job) ∈ jobs := by
      rw [hjob]
      exact List.mem_append_right before List.mem_cons_self
    exact ⟨name, mem_names hmem, h.put hnames hmem ht hs (congrArg some htake)⟩
  | pass hjob ht hs hpass => exact ⟨_, mem_names hjob, h.put hnames hjob ht hs (congrArg some hpass)⟩
  | collect hjob hopen ht =>
    obtain ⟨hleft, hkeeps⟩ := h.collect hnames hjob hopen ht
    exact ⟨_, mem_names hjob, 0, hleft, hkeeps⟩

/-- The number of steps that are left in all. -/
def remaining (jobs : List (String × Job)) (left : String → Nat) : Nat := ∑ name ∈ names jobs, left name

theorem remaining_update {left : String → Nat} {rest : Nat} (hname : name ∈ names jobs) (h : left name = rest + 1) :
    remaining jobs (Function.update left name rest) + 1 = remaining jobs left := by
  unfold remaining
  rw [Finset.sum_update_of_mem hname, Finset.sum_eq_add_sum_sdiff_singleton_of_mem hname, h]
  omega

theorem Reaches.keeps (hnames : (jobs.map (·.1)).Nodup) {workers n : Nat} {left : String → Nat}
    (hstart : Keeps jobs options (.start jobs) left) (h : Reaches jobs options workers n pool) :
    ∃ left', n + remaining jobs left' = remaining jobs left ∧ Keeps jobs options pool left' := by
  induction h with
  | start => exact ⟨left, Nat.zero_add _, hstart⟩
  | @move n pool next h hm ih =>
    obtain ⟨left', hn, hkeeps⟩ := ih
    obtain ⟨name, hname, rest, hrest, hkeeps'⟩ := hkeeps.move hnames hm
    have hone := remaining_update hname hrest
    exact ⟨_, by omega, hkeeps'⟩

/-! ## Where no step is left -/

/-- No step can be made. -/
def IsStuck (jobs : List (String × Job)) (options : ClosureOptions) (workers : Nat) (pool : Pool) : Prop :=
  ∀ next, ¬ Moves jobs options workers pool next

section
variable {workers : Nat} {left : String → Nat}

theorem Pool.Stands.exists_sink {left : Nat} (h : pool.Stands options name job left) :
    ∃ sink, pool.sinks.find? name = some sink := by
  cases h with
  | under _ hs => exact ⟨_, hs⟩
  | collected _ hs => exact ⟨_, hs⟩

theorem Keeps.not_running (h : Keeps jobs options pool left) (hstuck : IsStuck jobs options workers pool)
    (hjob : (name, job) ∈ jobs) (engine : Engine) : pool.tasks.find? name ≠ some (.running engine) := by
  intro ht
  obtain ⟨sink, hs⟩ := (h.stands name job hjob).exists_sink
  exact hstuck _ (.pass hjob ht hs Prod.mk.eta.symm)

theorem Keeps.not_waiting (h : Keeps jobs options pool left) (hstuck : IsStuck jobs options workers pool)
    (hworkers : 0 < workers) (hjob : (name, job) ∈ jobs) : pool.tasks.find? name ≠ some .waiting := by
  classical
  intro ht
  have hidle : pool.busy jobs = 0 := by
    refine List.countP_eq_zero.2 fun other hother hbusy => ?_
    obtain ⟨task, ht', htask⟩ := (Option.any_eq_true _ _).1 hbusy
    cases task with
    | running engine => exact h.not_running hstuck hother engine ht'
    | waiting | ended | collected => cases htask
  cases hfirst : jobs.find? fun job => pool.tasks.find? job.1 = some .waiting with
  | none => exact List.find?_eq_none.1 hfirst _ hjob (decide_eq_true ht)
  | some first =>
    obtain ⟨hwaiting, before, after, hjobs, hbefore⟩ := List.find?_eq_some_iff_append.1 hfirst
    obtain ⟨sink, hs⟩ := (h.stands first.1 first.2 (List.mem_of_find?_eq_some hfirst)).exists_sink
    refine hstuck _ (.takeUp hjobs (hidle ▸ hworkers) (fun other hother => ?_) (of_decide_eq_true hwaiting) hs
      Prod.mk.eta.symm)
    simpa using hbefore other hother

theorem Keeps.not_ended (hstuck : IsStuck jobs options workers pool) (hopen : pool.raised = none)
    (hjob : (name, job) ∈ jobs) (result : Except ClosureError ClosureResult) :
    pool.tasks.find? name ≠ some (.ended result) :=
  fun ht => hstuck _ (.collect hjob hopen ht)

/-- Where no step is left every job is accounted for, unless an error was raised. -/
theorem Keeps.accounted (h : Keeps jobs options pool left) (hstuck : IsStuck jobs options workers pool)
    (hworkers : 0 < workers) (hopen : pool.raised = none) (hjob : (name, job) ∈ jobs) :
    left name = 0 ∧ pool.Stands options name job 0 := by
  have hstands := h.stands name job hjob
  generalize left name = rest at hstands
  cases hstands with
  | collected ht hs hr hf => exact ⟨rfl, .collected ht hs hr hf⟩
  | @under task sink rest ht hs hdue =>
    cases task with
    | waiting => exact absurd ht (h.not_waiting hstuck hworkers hjob)
    | running engine => exact absurd ht (h.not_running hstuck hjob engine)
    | ended result => exact absurd ht (not_ended hstuck hopen hjob result)
    | collected =>
      cases hdue with
      | step hstep => cases hstep

/-- From every pool, some row of steps goes on to where no step is left. -/
theorem Reaches.exists_stuck (hnames : (jobs.map (·.1)).Nodup) {n : Nat} (h : Reaches jobs options workers n pool)
    (hkeeps : Keeps jobs options pool left) :
    ∃ m last, Reaches jobs options workers m last ∧ IsStuck jobs options workers last := by
  induction hremaining : remaining jobs left generalizing n pool left with
  | zero =>
    refine ⟨n, pool, h, fun next hm => ?_⟩
    obtain ⟨name, hname, rest, hrest, -⟩ := hkeeps.move hnames hm
    have := remaining_update hname hrest
    omega
  | succ k ih =>
    by_cases hstuck : IsStuck jobs options workers pool
    · exact ⟨n, pool, h, hstuck⟩
    · obtain ⟨next, hm⟩ := not_forall_not.1 hstuck
      obtain ⟨name, hname, rest, hrest, hkeeps'⟩ := hkeeps.move hnames hm
      have := remaining_update hname hrest
      exact ih (h.move hm) hkeeps' (by omega)

end

/-- The batch has accounted for every job, with what the job comes to on its own, and for nothing else. -/
structure Pool.Complete (jobs : List (String × Job)) (options : ClosureOptions) (pool : Pool) : Prop where
  result : ∀ name job, (name, job) ∈ jobs → ∀ r,
    pool.results.find? name = some r ↔ (Closure.run job.program job.sourceNames options).1 = .ok r
  failure : ∀ name job, (name, job) ∈ jobs → ∀ e,
    pool.failures.find? name = some e ↔ (Closure.run job.program job.sourceNames options).1 = .error e
  sink : ∀ name job, (name, job) ∈ jobs →
    pool.sinks.find? name = some (Closure.run job.program job.sourceNames options).2.sink
  once : ∀ name ∈ names jobs, (name ∈ pool.results.keys ↔ name ∉ pool.failures.keys)
  failed : ∀ name job, (name, job) ∈ jobs →
    (name ∈ pool.failures.keys ↔ ∃ source ∈ job.sourceNames, ¬ job.program.Knows source)
  named : ∀ name, name ∈ pool.results.keys ∨ name ∈ pool.failures.keys → name ∈ names jobs
  succeeded : pool.failures.keys = [] ↔ ∀ job ∈ jobs, job.2.IsKnown

theorem Pool.Stands.recorded (h : pool.Stands options name job 0) (hp : job.program.Built)
    (hwhole : ¬ job.Breaks options) :
    (¬ job.IsKnown ∧ pool.results.find? name = none ∧
      ∃ e, pool.failures.find? name = some e ∧ (runJob options job).result = .error e) ∨
    (job.IsKnown ∧ pool.failures.find? name = none ∧
      ∃ r, pool.results.find? name = some r ∧ (runJob options job).result = .ok r) := by
  cases h with
  | collected ht hs hr hf =>
    rcases runJob_cases hp options with ⟨hno, source, hfail⟩ | ⟨hb, -⟩ | ⟨hknown, -, r, hok⟩
    · rw [hfail] at hr hf
      exact .inl ⟨hno, hr, _, hf, hfail⟩
    · exact absurd hb hwhole
    · rw [hok] at hr hf
      exact .inr ⟨hknown, hf, r, hr, hok⟩

theorem Keeps.complete {left : String → Nat} (h : Keeps jobs options pool left)
    (hdone : ∀ name job, (name, job) ∈ jobs → pool.Stands options name job 0)
    (hbuilt : ∀ job ∈ jobs, job.2.program.Built) (hwhole : ∀ job ∈ jobs, ¬ job.2.Breaks options) :
    pool.Complete jobs options := by
  have hrecorded := fun name job hjob => (hdone name job hjob).recorded (hbuilt _ hjob) (hwhole _ hjob)
  have hnamed : ∀ name, name ∈ pool.results.keys ∨ name ∈ pool.failures.keys → name ∈ names jobs := by
    intro name hmem
    by_contra hname
    obtain ⟨hr, hf⟩ := h.strangers name hname
    rw [Table.mem_keys_iff, Table.mem_keys_iff, hr, hf] at hmem
    simp at hmem
  have hfailed : ∀ name job, (name, job) ∈ jobs → (name ∈ pool.failures.keys ↔ ¬ job.IsKnown) := by
    intro name job hjob
    rw [Table.mem_keys_iff]
    rcases hrecorded name job hjob with ⟨hno, -, e, hf, -⟩ | ⟨hknown, hf, -⟩
    · simp [hf, hno]
    · simp [hf, hknown]
  refine ⟨fun name job hjob r => ?_, fun name job hjob e => ?_, fun name job hjob => ?_, fun name hname => ?_,
    fun name job hjob => ?_, hnamed, ?_⟩
  · show _ ↔ (runJob options job).result = .ok r
    rcases hrecorded name job hjob with ⟨-, hr, e, -, he⟩ | ⟨-, -, r', hr, hr'⟩
    · simp [hr, he]
    · simp [hr, hr']
  · show _ ↔ (runJob options job).result = .error e
    rcases hrecorded name job hjob with ⟨-, -, e', hf, he⟩ | ⟨-, hf, r, -, hr⟩
    · simp [hf, he]
    · simp [hf, hr]
  · cases hdone name job hjob with
    | collected _ hs => exact hs
  · obtain ⟨⟨_, job⟩, hjob, rfl⟩ := List.mem_map.1 (List.mem_toFinset.1 hname)
    rw [Table.mem_keys_iff, Table.mem_keys_iff]
    rcases hrecorded _ job hjob with ⟨-, hr, e, hf, -⟩ | ⟨-, hf, r, hr, -⟩
    · simp [hr, hf]
    · simp [hr, hf]
  · rw [hfailed name job hjob]
    simp only [Job.IsKnown, not_forall, exists_prop]
  · constructor
    · intro hnone job hjob
      by_contra hno
      have hmem := (hfailed job.1 job.2 hjob).2 hno
      rw [hnone] at hmem
      cases hmem
    · intro hall
      refine List.eq_nil_iff_forall_not_mem.2 fun name hmem => ?_
      obtain ⟨⟨_, job⟩, hjob, rfl⟩ := List.mem_map.1 (List.mem_toFinset.1 (hnamed name (.inr hmem)))
      exact (hfailed _ job hjob).1 hmem (hall _ hjob)

theorem Pool.Complete.same (h : pool.Complete jobs options) :
    (∀ name r, pool.results.find? name = some r ↔ (name, r) ∈ Batch.results (outcomes options jobs)) ∧
      ∀ name e, pool.failures.find? name = some e ↔ (name, e) ∈ Batch.failures (outcomes options jobs) := by
  have hjob : ∀ name, name ∈ names jobs → ∃ job, (name, job) ∈ jobs := by
    intro name hname
    obtain ⟨⟨_, job⟩, hjob, rfl⟩ := List.mem_map.1 (List.mem_toFinset.1 hname)
    exact ⟨job, hjob⟩
  refine ⟨fun name r => ?_, fun name e => ?_⟩
  · rw [mem_results]
    constructor
    · intro hr
      obtain ⟨job, hjob⟩ := hjob name (h.named name (.inl (Table.mem_keys_of_find? hr)))
      exact ⟨job, hjob, (h.result name job hjob r).1 hr⟩
    · rintro ⟨job, hjob, hr⟩
      exact (h.result name job hjob r).2 hr
  · rw [mem_failures]
    constructor
    · intro he
      obtain ⟨job, hjob⟩ := hjob name (h.named name (.inr (Table.mem_keys_of_find? he)))
      exact ⟨job, hjob, (h.failure name job hjob e).1 he⟩
    · rintro ⟨job, hjob, he⟩
      exact (h.failure name job hjob e).2 he

/-- **Batches in any order.** However a batch of jobs on built programs goes, it ends, after a number of steps that does not exceed a bound. If some job breaks off, then an error is raised, of one such job, and the batch of the model breaks off too. If none does, nothing is raised, and the batch has accounted for every job: with a result or a failure, but not both, a failure exactly if some name of a source type is not known, and in each case with what the job comes to on its own, its sink included. The model gives the same results and failures. -/
theorem run_any_order (hnames : (jobs.map (·.1)).Nodup) (hbuilt : ∀ job ∈ jobs, job.2.program.Built)
    (options : ClosureOptions) {workers : Option Int} (hw : ∀ n ∈ workers, 0 ≤ n) :
    (∃ bound, ∀ n pool, Reaches jobs options (capacity jobs workers) n pool → n ≤ bound) ∧
    (∃ n pool, Reaches jobs options (capacity jobs workers) n pool ∧ IsStuck jobs options (capacity jobs workers) pool) ∧
    ∀ n pool, Reaches jobs options (capacity jobs workers) n pool →
      IsStuck jobs options (capacity jobs workers) pool →
        ((∃ job ∈ jobs, job.2.Breaks options) →
          (∃ e, pool.raised = some e ∧ ∃ job ∈ jobs, job.2.Breaks options ∧ (runJob options job.2).result = .error e) ∧
            ∃ e, run jobs options workers = .error (.broken e)) ∧
        ((∀ job ∈ jobs, ¬ job.2.Breaks options) → pool.raised = none ∧ pool.Complete jobs options ∧
          ∃ outcomes, run jobs options workers = .ok outcomes ∧
            (∀ name r, pool.results.find? name = some r ↔ (name, r) ∈ results outcomes) ∧
            ∀ name e, pool.failures.find? name = some e ↔ (name, e) ∈ failures outcomes) := by
  obtain ⟨left, -, hstart⟩ := exists_keeps_start hnames (fun job hjob => (hbuilt job hjob).coherent) options
  have hbreak : ∀ job ∈ jobs, breakdown? (runJob options job.2) ≠ none ↔ job.2.Breaks options :=
    fun job hjob => breakdown?_ne_none_iff (hbuilt job hjob)
  refine ⟨⟨remaining jobs left, fun n pool h => ?_⟩, Reaches.start.exists_stuck hnames hstart,
    fun n pool h hstuck => ?_⟩
  · obtain ⟨left', hn, -⟩ := h.keeps hnames hstart
    omega
  · obtain ⟨left', -, hkeeps⟩ := h.keeps hnames hstart
    have haccounted : pool.raised = none → ∀ name job, (name, job) ∈ jobs →
        left' name = 0 ∧ pool.Stands options name job 0 := fun hopen name job hjob =>
      hkeeps.accounted hstuck (capacity_pos (List.ne_nil_of_mem hjob) hw) hopen hjob
    constructor
    · rintro ⟨⟨name, job⟩, hjob, hb⟩
      have hbroken := (hbreak _ hjob).2 hb
      constructor
      · cases hraised : pool.raised with
        | none => exact absurd (hkeeps.quiet hraised _ hjob (haccounted hraised name job hjob).1) hbroken
        | some e =>
          obtain ⟨other, hother, he⟩ := hkeeps.raised e hraised
          exact ⟨e, rfl, other, hother, (hbreak other hother).1 (he ▸ Option.some_ne_none e), result_of_breakdown? he⟩
      · obtain ⟨e, hrun, -⟩ := run_of_broken hw hjob hbroken
        exact ⟨e, hrun⟩
    · intro hwhole
      have hnone : ∀ job ∈ jobs, breakdown? (runJob options job.2) = none :=
        fun job hjob => not_not.1 fun hne => hwhole job hjob ((hbreak job hjob).1 hne)
      have hopen : pool.raised = none := by
        refine Option.eq_none_iff_forall_ne_some.2 fun e he => ?_
        obtain ⟨job, hjob, hbroken⟩ := hkeeps.raised e he
        cases (hnone job hjob).symm.trans hbroken
      have hcomplete := hkeeps.complete (fun name job hjob => (haccounted hopen name job hjob).2) hbuilt hwhole
      exact ⟨hopen, hcomplete, _, run_of_whole hw hnone, hcomplete.same⟩

/-- Three jobs on the zoo, of which the last asks for a type that is not there. -/
def zooJobs : List (String × Job) :=
  [("first", ⟨Zoo.program, ["Foo"]⟩), ("second", ⟨Zoo.program, ["Foo"]⟩), ("third", ⟨Zoo.program, ["Foo", "Bar"]⟩)]

theorem not_breaks_zoo : ∀ job ∈ zooJobs, ¬ job.2.Breaks {} := by
  have hfoo : ¬ Job.Breaks {} ⟨Zoo.program, ["Foo"]⟩ := by
    rintro ⟨-, -, hmute⟩
    refine hmute ?_
    rw [Closure.namedTypes_zoo]
    exact Closure.reportable_zoo _
  have hbar : ¬ Job.Breaks {} ⟨Zoo.program, ["Foo", "Bar"]⟩ := by
    rintro ⟨-, hknown, -⟩
    exact Zoo.built.indexed.findType?_ne_none_iff.2 (hknown "Bar" (by simp)) (by decide)
  simp only [zooJobs, List.forall_mem_cons, List.not_mem_nil, false_implies, implies_true, and_true]
  exact ⟨hfoo, hfoo, hbar⟩

/-- Two workers on three jobs in the zoo come to the same two results and one failure, in whatever order. -/
theorem run_any_order_zoo : (zooJobs.map (·.1)).Nodup ∧ (∀ job ∈ zooJobs, job.2.program.Built) ∧
    ∃ n pool, Reaches zooJobs {} 2 n pool ∧ IsStuck zooJobs {} 2 pool ∧ pool.raised = none ∧
      pool.results.find? "second" = pool.results.find? "first" ∧ "first" ∉ pool.failures.keys ∧
        "third" ∈ pool.failures.keys := by
  have hnames : (zooJobs.map (·.1)).Nodup := by decide
  have hbuilt : ∀ job ∈ zooJobs, job.2.program.Built := by
    simp only [zooJobs, List.forall_mem_cons, List.not_mem_nil, false_implies, implies_true, and_true]
    exact ⟨Zoo.built, Zoo.built, Zoo.built⟩
  obtain ⟨-, ⟨n, pool, hreaches, hstuck⟩, hend⟩ :=
    run_any_order hnames hbuilt {} (show ∀ n ∈ some (2 : Int), 0 ≤ n from by simp)
  obtain ⟨hopen, hcomplete, -⟩ := (hend n pool hreaches hstuck).2 not_breaks_zoo
  refine ⟨hnames, hbuilt, n, pool, hreaches, hstuck, hopen, ?_, ?_, ?_⟩
  · have hfirst := hcomplete.result "first" _ List.mem_cons_self
    have hsecond := hcomplete.result "second" _ (List.mem_cons_of_mem _ List.mem_cons_self)
    exact Option.ext fun r => (hsecond r).trans (hfirst r).symm
  · rw [hcomplete.failed "first" _ List.mem_cons_self]
    rintro ⟨source, hsource, hno⟩
    obtain rfl := List.mem_singleton.1 hsource
    exact hno (Zoo.built.indexed.findType?_ne_none_iff.1 (by decide))
  · refine (hcomplete.failed "third" ⟨Zoo.program, ["Foo", "Bar"]⟩ (by simp [zooJobs])).2 ⟨"Bar", by simp, fun hbar => ?_⟩
    exact Zoo.built.indexed.findType?_ne_none_iff.2 hbar (by decide)

end StubClosure.Batch
