import StubClosure.Reference
import StubClosure.Receiver
import StubClosure.StubSet

/-!
# Discovery

The source types are to be replaced by hand-written source and are out of sight while that is compiled. So every other type whose methods take a source type, or a type that is stubbed already, has to be stubbed if a source type calls such a method: the call leaks. A discovery is what the bodies of one source type ask for in this way.
-/

namespace StubClosure

/-- Why a run does not come to a result. Of these, the runs of `Closure.run` meet only the first, and receivers that cannot be reported. -/
inductive ClosureError where
  | unresolved (name : String)
  | stubSet (error : StubSetError)
  | receiver (error : ReceiverError)
  | noOrigin (t : TypeId)
  deriving DecidableEq, Repr

def ClosureError.message : ClosureError → String
  | .unresolved name => s!"Could not resolve type {name}"
  | .stubSet error => error.message
  | .receiver error => error.message
  | .noOrigin t => t.fullName

/-- What a run knows: its session, the stubs so far, and for each stub the source type that first asked for it. -/
structure Run where
  session : Session := {}
  stubs : StubSet := {}
  origins : Table TypeId TypeId := {}
  deriving Repr, Inhabited

/-- Work in a run. -/
abbrev Closing := ExceptT ClosureError (StateM Run)

namespace Closing

/-- Work in the session of a run. -/
def scan {α : Type} (work : Scan α) : Closing α := fun run =>
  let (a, session) := work.run run.session
  (.ok a, { run with session })

/-- A question about receivers in the session of a run. -/
def receiver {α : Type} (work : ExceptT ReceiverError Scan α) : Closing α := fun run =>
  let (outcome, session) := work.run.run run.session
  (outcome.mapError .receiver, { run with session })

/-- A change to the stubs of a run. -/
def stub {α : Type} (work : Stubbing α) : Closing α := fun run =>
  let (outcome, stubs) := work.run.run run.stubs
  (outcome.mapError .stubSet, { run with stubs })

end Closing

/-- What a source type asks for: the methods that it calls, as declared and as refined, the types of receivers that have no such method of their own, and for each other receiver the methods to declare on it. -/
structure Discovery where
  methods : MemberSet := {}
  types : Table TypeId Unit := {}
  seeds : Table TypeId MemberSet := {}
  deriving Repr, Inhabited

namespace Discovery

/-- The types that are asked for. -/
def wanted (d : Discovery) : List TypeId :=
  (Table.firstBy id (d.methods.values.map (·.owner) ++ d.types.keys ++ d.seeds.keys)).keys

/-- Takes in what a call was refined to. -/
def addRefinement (d : Discovery) (r : Refinement) : Discovery :=
  match r.method with
  | some m =>
    { d with
      methods := d.methods.add m
      seeds := d.seeds.insert r.receiver (((d.seeds.find? r.receiver).getD {}).add m) }
  | none => { d with types := d.types.insertNew r.receiver () }

def addMethod (d : Discovery) (m : Member) : Discovery := { d with methods := d.methods.add m }

end Discovery

namespace Closure

/-- A parameter of the method is the source type or a known stub type, and the program defines it. -/
def leaks (p : Program) (source : TypeId) (known : List TypeId) (m : Member) : Bool :=
  m.params.any fun t => p.defines t && (t = source || known.contains t)

/-- The reference is a call that leaks, and goes beyond the source type and the types nested in it. -/
def isRelated (p : Program) (source : TypeId) (known : List TypeId) (r : Reference) : Bool :=
  r.category.isCall && r.declared.owner ≠ source && !r.declared.owner.isNestedIn source &&
    leaks p source known r.declared

/-- Takes in a call that leaks. A virtual call is refined if it can be. -/
def discover (p : Program) (b : Body) (r : Reference) (d : Discovery) : Closing Discovery := do
  let refinement ←
    if r.category = .virtualCall then Closing.receiver (Receiver.resolve p b r.index) else pure none
  return (refinement.elim d d.addRefinement).addMethod r.declared

/-- What the references of a body ask for. -/
def relatedIn (p : Program) (source : TypeId) (known : List TypeId) (b : Body) (refs : List Reference)
    (d : Discovery) : Closing Discovery :=
  (refs.filter (isRelated p source known)).foldlM (fun d r => discover p b r d) d

/-- What the bodies of one type after the other ask for. Each body is read just before it is looked through. -/
def relatedInBodies (p : Program) (source : TypeId) (known : List TypeId) :
    List Body → Discovery → Closing Discovery
  | [], d => return d
  | b :: rest, d => do
    let refs ← Closing.scan (Reference.ofBody p b)
    relatedInBodies p source known rest (← relatedIn p source known b refs d)

/-- What the bodies of a source type itself ask for, with respect to the stub types known. -/
def relatedCalls (p : Program) (source : TypeId) (known : List TypeId) : Closing Discovery :=
  relatedInBodies p source known (p.bodiesOf source) {}

end Closure

end StubClosure
