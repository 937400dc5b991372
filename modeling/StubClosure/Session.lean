import StubClosure.Program.Basic
import StubClosure.Diagnostic

/-!
# Sessions

Reading method bodies is a matter of looking: the same question has the same answer each time. A session remembers what has been asked, so that nothing is read twice and, above all, nothing is reported twice, however often a body is gone over. Its reports are collected in a sink.
-/

namespace StubClosure

/-- A member that an instruction of a body refers to: as the instruction names it, and as the property that it is an accessor of, if it is one. -/
structure Reference where
  category : OpCategory
  target : Member
  declared : Member
  index : Nat
  deriving DecidableEq, Repr

/-- What a virtual call turns out to be: the type of the object it is called on, and the method of that type, if it has one of its own. -/
structure Refinement where
  receiver : TypeId
  method : Option Member
  deriving DecidableEq, Repr

/-- What has been asked so far: members folded for a site, bodies scanned, virtual calls refined. -/
structure Memory where
  folded : Table (Signature × Option Signature) Member := {}
  scanned : Table Signature (List Reference) := {}
  refined : Table (Signature × Int) (Option Refinement) := {}
  deriving Repr, Inhabited

structure Session where
  sink : Sink := {}
  memory : Memory := {}
  deriving Repr, Inhabited

/-- Work in a session. -/
abbrev Scan := StateM Session

namespace Scan

/-- Reports diagnostics. -/
def report (ds : List Diagnostic) : Scan Unit := modify fun s => { s with sink := s.sink.emitAll ds }

/-- Writes trace messages to the log. -/
def trace (messages : List String) : Scan Unit := modify fun s => { s with sink := s.sink.debugAll messages }

/-- Changes what is remembered. -/
def remember (change : Memory → Memory) : Scan Unit := modify fun s => { s with memory := change s.memory }

end Scan

end StubClosure
