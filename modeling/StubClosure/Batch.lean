import StubClosure.Closure.Run

/-!
# Batches

Runs over several programs share nothing, so a batch is one run for each job, and neither the number of workers nor the order in which the runs end can be seen in what comes out.
-/

namespace StubClosure

/-- A program, and the names of its source types. -/
structure Job where
  program : Program
  sourceNames : List String
  deriving Repr

/-- What became of a job: its result or why there is none, and its sink in either case. -/
structure JobOutcome where
  result : Except ClosureError ClosureResult
  sink : Sink

/-- Why a batch comes to nothing: a number of workers that there cannot be, or a run that broke off. -/
inductive BatchError where
  | workers
  | broken (error : ClosureError)
  deriving DecidableEq, Repr

def BatchError.message : BatchError → String
  | .workers => "max_workers must be greater than 0"
  | .broken error => error.message

namespace Batch

/-- A job on its own. -/
def runJob (options : ClosureOptions) (job : Job) : JobOutcome :=
  let (result, session) := Closure.run job.program job.sourceNames options
  { result, sink := session.sink }

/-- The error by which a run broke off. A source type that the program does not define is a failure of the job alone. -/
def breakdown? (outcome : JobOutcome) : Option ClosureError :=
  match outcome.result with
  | .ok _ | .error (.unresolved _) => none
  | .error error => some error

/-- All jobs under their names. No number of workers, or zero, leaves the number open. A run that breaks off takes the batch with it. -/
def run (jobs : List (String × Job)) (options : ClosureOptions := {}) (workers : Option Int := none) :
    Except BatchError (List (String × JobOutcome)) :=
  if !jobs.isEmpty && workers.any (· < 0) then .error .workers
  else
    let outcomes := jobs.map fun (name, job) => (name, runJob options job)
    match outcomes.findSome? fun (_, outcome) => breakdown? outcome with
    | some error => .error (.broken error)
    | none => .ok outcomes

/-- The results, by the names of their jobs. -/
def results (outcomes : List (String × JobOutcome)) : List (String × ClosureResult) :=
  outcomes.filterMap fun (name, outcome) => outcome.result.toOption.map (name, ·)

/-- The reasons why jobs have no result, by the names of the jobs. -/
def failures (outcomes : List (String × JobOutcome)) : List (String × ClosureError) :=
  outcomes.filterMap fun (name, outcome) =>
    match outcome.result with
    | .ok _ => none
    | .error e => some (name, e)

/-- Every job has a result. -/
def succeeded (outcomes : List (String × JobOutcome)) : Bool := (failures outcomes).isEmpty

end Batch

end StubClosure
