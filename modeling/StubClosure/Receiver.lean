import StubClosure.Session

/-!
# Receivers

A virtual call names a method of some type, but the object on the stack may be of another type, and then the stub of that one is needed too. The receiver is taken to be what was pushed before the arguments: from the call, step back over as many pushing instructions as there are parameters, and one more. This is a count and no analysis of data flow. An argument that is itself the result of a call puts the count off; what is found then is mostly no load, and is reported.
-/

namespace StubClosure

/-- What the instruction is that pushed the receiver. -/
inductive ReceiverShape where
  | self | local | unrecognized
  deriving DecidableEq, Repr

/-- A question about a place in a body that holds no suitable call, a load of a local that names no slot, or an instruction to be reported that cannot be written. -/
inductive ReceiverError where
  | noInstruction
  | noMember (ins : Instruction)
  | notVirtual (ins : Instruction)
  | noSlot (given : String)
  | unwritable (error : Text.NumeralError)
  deriving DecidableEq, Repr

namespace ReceiverError

/-- A complaint about an instruction. One that cannot be written is complained about as such. -/
def complaint (ins : Instruction) (words : String → String) : String :=
  match ins.render with
  | .ok text => words text
  | .error error => error.message

def message : ReceiverError → String
  | .noInstruction => "tuple index out of range"
  | .noMember ins => complaint ins fun text => s!"instruction {text} does not reference a member"
  | .notVirtual ins => complaint ins fun text => s!"{text} is not a virtual call"
  | .noSlot given => s!"'<=' not supported between instances of 'int' and '{given}'"
  | .unwritable error => error.message

end ReceiverError

namespace Receiver

/-- The instruction before an index that pushed a value beneath a number of others. An index below zero has nothing before it. -/
def pushedBelow (b : Body) (index : Int) (others : Nat) : Option Instruction :=
  ((b.instructions.take index.toNat).reverse.filter (·.pushes))[others]?

/-- The instruction that pushed the receiver of the call at an index; none if the body begins before it. -/
def producer? (b : Body) (index : Int) : Except ReceiverError (Option Instruction) :=
  match b.instruction? index with
  | none => .error .noInstruction
  | some call =>
    match call.member? with
    | none => .error (.noMember call)
    | some m => .ok (pushedBelow b index m.params.length)

/-- The shape of what pushed the receiver. -/
def shape : Option Instruction → ReceiverShape
  | none => .unrecognized
  | some ins =>
    if ins.category = .loadArg && ins.operand = some (.number 0) then .self
    else if ins.category = .loadLocal then .local
    else .unrecognized

/-- The type of the local that an instruction loads, if the body declares it. Only a number can be looked up among the locals. -/
def loadedType? (b : Body) (ins : Instruction) : Except ReceiverError (Option TypeId) :=
  match ins.operand with
  | some (.number slot) => .ok (b.localType? slot)
  | operand => .error (.noSlot (operand.elim "NoneType" Operand.kind))

/-- The report on a call, in writing, whose receiver is not to be found. -/
def unresolved (b : Body) (call reason : String) : Diagnostic where
  message := s!"cannot resolve receiver of {call} in {b.method.text}: {reason}; keeping the declared target"
  code := some DiagnosticCode.dispatchUnresolved.name
  phase := some "dispatch"
  severity := .warning

/-- The report on a call whose receiver is of another type than it says. -/
def refined (b : Body) (m : Member) (receiver : TypeId) : Diagnostic where
  message := s!"{m.text} actually called on {receiver.fullName} instead"
  code := some DiagnosticCode.dispatchRefined.name
  phase := some "dispatch"
  severity := .info
  notes := [s!"in {b.method.text}"]

/-- An instruction as a report quotes it. -/
def quoted (ins : Instruction) : Except ReceiverError String := ins.render.mapError .unwritable

/-- The refinement of a call of a member whose receiver was pushed by the given instruction, and what is to be reported. There is none if the call is on `this`, if the receiver is of the declared type, or if it is not to be found. -/
def refine (p : Program) (b : Body) (call : Instruction) (m : Member) (producer : Option Instruction) :
    Except ReceiverError (Option Refinement × List Diagnostic) :=
  match producer, shape producer with
  | _, .self => .ok (none, [])
  | none, _ => do return (none, [unresolved b (← quoted call) "no receiver load found"])
  | some ins, .unrecognized => do
    return (none, [unresolved b (← quoted call) ("unknown instruction " ++ (← quoted ins))])
  | some ins, .local => do
    match ← loadedType? b ins with
    | none => return (none, [unresolved b (← quoted call) ((← quoted ins) ++ " names an undeclared local")])
    | some receiver =>
      if receiver = m.owner then return (none, [])
      else
        let method := (p.type? receiver).bind (·.findMethod? m.name m.valueType)
        return (some { receiver, method }, [refined b m receiver])

/-- The refinement of the virtual call at an index, and what is to be reported. -/
def resolveHere (p : Program) (b : Body) (index : Int) :
    Except ReceiverError (Option Refinement × List Diagnostic) :=
  match b.instruction? index with
  | none => .error .noInstruction
  | some call =>
    match call.category, call.member? with
    | .virtualCall, some m => refine p b call m (pushedBelow b index m.params.length)
    | _, _ => .error (.notVirtual call)

/-- The refinement of the virtual call at an index. A place in a method is looked at once. -/
def resolve (p : Program) (b : Body) (index : Int) : ExceptT ReceiverError Scan (Option Refinement) := do
  match (← get).memory.refined.find? (b.method.toSignature, index) with
  | some known => return known
  | none =>
    let (refinement, reports) ← liftExcept (resolveHere p b index)
    Scan.report reports
    Scan.remember fun memory =>
      { memory with refined := memory.refined.insert (b.method.toSignature, index) refinement }
    return refinement
where
  /-- An outcome as a step that looks at nothing. -/
  liftExcept {α : Type} (outcome : Except ReceiverError α) : ExceptT ReceiverError Scan α :=
    ExceptT.mk (pure outcome)

end Receiver

end StubClosure
