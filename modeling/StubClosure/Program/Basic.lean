import StubClosure.Instruction

/-!
# Programs

A program is what has been compiled: types with their members, and the bodies of methods. Everything is at hand before any question is asked, so a query is a look-up. Types of other programs are known by their identities alone.
-/

namespace StubClosure

/-- A property and the methods that read and write it. -/
structure Property where
  ref : Member
  getter : Option Member := none
  setter : Option Member := none
  deriving DecidableEq, Repr

/-- A type that the program defines, its members in the order of their declaration. -/
structure TypeDef where
  id : TypeId
  base : Option TypeId := none
  interfaces : List TypeId := []
  isPublic : Bool := true
  nested : List TypeId := []
  methods : List Member := []
  fields : List Member := []
  properties : List Property := []
  deriving DecidableEq, Repr

namespace TypeDef

def declaringType (d : TypeDef) : Option TypeId := d.id.outer?

/-- The first method of a name and return type. -/
def findMethod? (d : TypeDef) (name : String) (returns : TypeId) : Option Member :=
  d.methods.find? fun m => m.name = name && m.valueType = returns

/-- The method as it is declared, with its role. -/
def definition? (d : TypeDef) (m : Member) : Option Member := d.methods.find? (·.same m)

end TypeDef

/-- The instructions of a method and the types of its local slots. -/
structure Body where
  method : Member
  instructions : List Instruction := []
  locals : List TypeId := []
  deriving DecidableEq, Repr

/-- The instruction at an index. An index below zero counts from the end. -/
def Body.instruction? (b : Body) (index : Int) : Option Instruction :=
  let place := if index < 0 then index + b.instructions.length else index
  if place < 0 then none else b.instructions[place.toNat]?

/-- The type of a local slot. -/
def Body.localType? (b : Body) (slot : Int) : Option TypeId := if slot < 0 then none else b.locals[slot.toNat]?

/-- A program. Beside the types there is an index of them by full name, the members by signature, and the bodies by the signature of their method. -/
structure Program where
  name : String := "program"
  types : Table TypeId TypeDef := {}
  names : Table String TypeId := {}
  members : Table Signature Member := {}
  bodies : Table Signature Body := {}
  deriving DecidableEq, Repr

namespace Program

instance : Inhabited Program := ⟨{}⟩

/-- A type that the program defines. -/
def type? (p : Program) (t : TypeId) : Option TypeDef := p.types.find? t

def defines (p : Program) (t : TypeId) : Bool := p.types.contains t

/-- The type of a full name. -/
def findType? (p : Program) (fullName : String) : Option TypeDef := (p.names.find? fullName).bind p.type?

/-- The body of a method, if it has one here. -/
def body? (p : Program) (m : Member) : Option Body := p.bodies.find? m.toSignature

def propertiesOf (p : Program) (t : TypeId) : List Property := ((p.type? t).map TypeDef.properties).getD []

def nestedOf (p : Program) (t : TypeId) : List TypeId := ((p.type? t).map TypeDef.nested).getD []

/-- The bodies of the methods that a type declares, in order of declaration. -/
def bodiesOf (p : Program) (t : TypeId) : List Body := ((p.type? t).map TypeDef.methods |>.getD []).filterMap p.body?

/-- A type and the types nested in it at any depth, each before those inside it; at most `depth` levels down. -/
def nestedWithin (p : Program) : Nat → TypeId → List TypeId
  | 0, t => [t]
  | depth + 1, t => t :: (p.nestedOf t).flatMap (p.nestedWithin depth)

/-- A type and the types nested in it at any depth. A chain of nested types is no longer than the list of types. -/
def withNested (p : Program) (t : TypeId) : List TypeId := p.nestedWithin (p.types.size + 1) t

end Program

end StubClosure
