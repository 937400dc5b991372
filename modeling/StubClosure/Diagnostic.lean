import StubClosure.Span

/-!
# Diagnostics

What a run has to report. A `Sink` keeps the diagnostics in order, and beside them the log: one line for each diagnostic and one for each trace message, which is no diagnostic.
-/

namespace StubClosure

inductive Severity where
  | info | warning | error
  deriving DecidableEq, Repr

def Severity.name : Severity → String
  | .info => "info"
  | .warning => "warning"
  | .error => "error"

/-- The severity of a name, if it is one. -/
def Severity.ofName? (name : String) : Option Severity :=
  [info, warning, error].find? fun severity => severity.name = name

/-- A name that no severity has. -/
structure UnknownSeverity where
  name : String
  deriving DecidableEq, Repr

def UnknownSeverity.message (e : UnknownSeverity) : String := s!"unknown diagnostic severity '{e.name}'"

/-- The codes by which diagnostics of one kind are found. -/
inductive DiagnosticCode where
  | stubDiscovered | dispatchRefined | dispatchUnresolved | unknownSpecialMember | unresolvedSourceType
  deriving DecidableEq, Repr

def DiagnosticCode.name : DiagnosticCode → String
  | .stubDiscovered => "stub-discovered"
  | .dispatchRefined => "dispatch-refined"
  | .dispatchUnresolved => "dispatch-unresolved"
  | .unknownSpecialMember => "unknown-special-member"
  | .unresolvedSourceType => "unresolved-source-type"

/-- One report. Its phase names the stage of work that made it. -/
structure Diagnostic where
  message : String
  code : Option String := none
  phase : Option String := none
  severity : Severity := .error
  span : Span := {}
  notes : List String := []
  deriving DecidableEq, Repr

/-- The diagnostic of a given severity name. -/
def Diagnostic.withSeverityName (d : Diagnostic) (name : String) : Except UnknownSeverity Diagnostic :=
  match Severity.ofName? name with
  | some severity => .ok { d with severity }
  | none => .error ⟨name⟩

inductive LogLevel where
  | debug | info | warning | error
  deriving DecidableEq, Repr

def LogLevel.name : LogLevel → String
  | .debug => "DEBUG"
  | .info => "INFO"
  | .warning => "WARNING"
  | .error => "ERROR"

def Severity.level : Severity → LogLevel
  | .info => .info
  | .warning => .warning
  | .error => .error

structure LogLine where
  level : LogLevel
  message : String
  deriving DecidableEq, Repr

/-- Diagnostics and log lines, each in order. -/
structure Sink where
  diagnostics : List Diagnostic := []
  log : List LogLine := []
  deriving DecidableEq, Repr, Inhabited

namespace Sink

/-- Adds a diagnostic, and its message to the log. -/
def emit (sink : Sink) (d : Diagnostic) : Sink :=
  { diagnostics := sink.diagnostics ++ [d], log := sink.log ++ [⟨d.severity.level, d.message⟩] }

def emitAll (sink : Sink) (ds : List Diagnostic) : Sink := ds.foldl emit sink

/-- Adds a trace message to the log. -/
def debug (sink : Sink) (message : String) : Sink := { sink with log := sink.log ++ [⟨.debug, message⟩] }

def debugAll (sink : Sink) (messages : List String) : Sink := messages.foldl debug sink

def withSeverity (sink : Sink) (name : String) : List Diagnostic :=
  sink.diagnostics.filter fun d => d.severity.name = name

def withCode (sink : Sink) (code : Option String) : List Diagnostic :=
  sink.diagnostics.filter fun d => d.code = code

def hasErrors (sink : Sink) : Bool := sink.diagnostics.any fun d => d.severity = .error

def size (sink : Sink) : Nat := sink.diagnostics.length

@[simp] theorem diagnostics_emit (sink : Sink) (d : Diagnostic) :
    (sink.emit d).diagnostics = sink.diagnostics ++ [d] := rfl

@[simp] theorem diagnostics_debug (sink : Sink) (message : String) :
    (sink.debug message).diagnostics = sink.diagnostics := rfl

theorem emitAll_append (sink : Sink) (ds more : List Diagnostic) :
    sink.emitAll (ds ++ more) = (sink.emitAll ds).emitAll more := List.foldl_append

@[simp] theorem diagnostics_emitAll (sink : Sink) (ds : List Diagnostic) :
    (sink.emitAll ds).diagnostics = sink.diagnostics ++ ds := by
  induction ds generalizing sink with
  | nil => simp [emitAll]
  | cons d ds ih =>
    have := ih (sink.emit d)
    simp only [emitAll, List.foldl_cons] at this ⊢
    simp [this]

@[simp] theorem diagnostics_debugAll (sink : Sink) (messages : List String) :
    (sink.debugAll messages).diagnostics = sink.diagnostics := by
  induction messages generalizing sink with
  | nil => rfl
  | cons m messages ih => exact ih (sink.debug m)

end Sink

end StubClosure
