import StubClosure.Closure.Pass

/-!
# Runs

A run repeats passes until one adds no new key; the stub types are then closed under leaking calls. On demand it also repeats a pass that added members to known keys only. Each pass but the last adds a key or is followed by one that adds nothing, so there are never more than two passes beyond the number of types.
-/

namespace StubClosure

structure ClosureOptions where
  repassOnNewMembers : Bool := false
  generateAll : Bool := false
  deriving DecidableEq, Repr, Inhabited

/-- What a run comes to. -/
structure ClosureResult where
  sources : List TypeId
  stubs : StubSet
  passes : List PassSummary
  origins : Table TypeId TypeId
  diagnostics : List Diagnostic
  deriving Repr

def ClosureResult.passCount (r : ClosureResult) : Nat := r.passes.length

namespace Closure

/-- The report on a source type that the program does not define. -/
def unresolvedSource (name : String) : Diagnostic where
  message := s!"Could not resolve Type {name}!"
  code := some DiagnosticCode.unresolvedSourceType.name
  phase := some "closure"

/-- The types of a list of full names. The first name that has none is reported and ends the run. -/
def resolveNames (p : Program) : List String → Closing (List TypeId)
  | [] => return []
  | name :: rest => do
    match p.findType? name with
    | some d => return d.id :: (← resolveNames p rest)
    | none =>
      Closing.scan (Scan.report [unresolvedSource name])
      throw (.unresolved name)

/-- The source types by full name, each once. -/
def resolveSources (p : Program) (names : List String) : Closing (List TypeId) := do
  let types ← resolveNames p names
  return sortOn TypeId.fullName (Table.firstBy id types).keys

/-- Passes from an index on, at most as many as given. -/
def passesFrom (p : Program) (options : ClosureOptions) (sources : List TypeId) :
    Nat → Nat → Closing (List PassSummary)
  | 0, _ => return []
  | more + 1, index => do
    let summary ← runPass p sources index
    if summary.newTypes.length > 0 then
      Closing.scan (Scan.trace [s!"discovered {summary.newTypes.length} new stub type(s), repeating scan"])
      return summary :: (← passesFrom p options sources more (index + 1))
    else if options.repassOnNewMembers && summary.newMembers > 0 then
      Closing.scan (Scan.trace [s!"discovered {summary.newMembers} new stub member(s), repeating scan"])
      return summary :: (← passesFrom p options sources more (index + 1))
    else return [summary]

/-- The passes of a run. -/
def passes (p : Program) (options : ClosureOptions) (sources : List TypeId) : Closing (List PassSummary) := do
  if options.generateAll then return [← stubEverything p sources]
  else passesFrom p options sources (p.types.size + 2) 1

/-- A run as a whole. -/
def closing (p : Program) (names : List String) (options : ClosureOptions) : Closing ClosureResult := do
  let sources ← resolveSources p names
  modify fun run => { run with stubs := { sources }, origins := {} }
  let passes ← passes p options sources
  modify fun run => { run with stubs := run.stubs.freeze }
  let run ← get
  return { sources, stubs := run.stubs, passes, origins := run.origins, diagnostics := run.session.sink.diagnostics }

/-- Computes the stubs of a program for the source types of the given names. The sink of the session holds what was reported, whether there is a result or not. -/
def run (p : Program) (names : List String) (options : ClosureOptions := {}) (session : Session := {}) :
    Except ClosureError ClosureResult × Session :=
  let (outcome, run) := (closing p names options).run.run { session }
  (outcome, run.session)

end Closure

end StubClosure
