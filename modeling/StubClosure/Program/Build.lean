import StubClosure.Program.Basic

/-!
# Building programs

A program is put together type by type and member by member. Roles are settled here, once: a method named like a constructor is one, a method that a property names becomes its accessor, any other method of a special name is special. A step that fails says why; what it did before failing stays done.
-/

namespace StubClosure

/-- A type given by its identity, whose arity can be written, or by its name. -/
inductive TypeArg where
  | id (t : TypeId)
  | name (text : String)
  deriving DecidableEq, Repr

/-- The type that is meant. The word `void` means the type of methods that return nothing. -/
def TypeArg.resolve : TypeArg → Except TypeNameError TypeId
  | .id t => .ok t
  | .name text => if text = "void" then .ok .void else TypeId.parse text

/-- A method given by its name or by a reference, as the accessor of a property. -/
inductive AccessorArg where
  | name (text : String)
  | member (m : Member)
  deriving DecidableEq, Repr

/-- The method is the one that is meant. -/
def AccessorArg.fits : AccessorArg → Member → Bool
  | .name text, m => m.name = text
  | .member other, m => m.same other

inductive BuildError where
  | typeName (error : TypeNameError)
  | typeExists (t : TypeId)
  | outerMissing (t : TypeId)
  | typeMissing (t : TypeId)
  | methodExists (m : Signature)
  deriving DecidableEq, Repr

def BuildError.message : BuildError → String
  | .typeName error => error.message
  | .typeExists t => s!"type '{t.fullName}' is already defined"
  | .outerMissing t => s!"nested type '{t.fullName}' added before its enclosing type"
  | .typeMissing t => s!"type '{t.fullName}' is not defined"
  | .methodExists m => s!"method '{m.text}' is already defined"

/-- A step of building: it changes the program, and may fail after that. -/
abbrev Build := ExceptT BuildError (StateM Program)

namespace Program

/-! ## Small changes -/

def modifyType (p : Program) (t : TypeId) (change : TypeDef → TypeDef) : Program :=
  { p with types := p.types.modify t change }

/-- Enters a member under its signature. -/
def enter (p : Program) (m : Member) : Program := { p with members := p.members.insert m.toSignature m }

def setBody (p : Program) (b : Body) : Program := { p with bodies := p.bodies.insert b.method.toSignature b }

/-- The names of constructors. -/
def constructorNames : List String := [".ctor", ".cctor"]

/-- The role of a new method. -/
def newRole (name : String) (isSpecial : Bool) : Role :=
  if name ∈ constructorNames then .constructor else if isSpecial then .special else .ordinary

/-- Gives a role to the first method of a type that fits, wherever the program keeps the method. -/
def bindAccessor (p : Program) (owner : TypeId) (accessor : AccessorArg) (role : Role) : Option Member × Program :=
  match p.type? owner with
  | none => (none, p)
  | some d =>
    match d.methods.findIdx? accessor.fits with
    | none => (none, p)
    | some place =>
      match d.methods[place]? with
      | none => (none, p)
      | some m =>
        let bound := m.withRole role
        let p := p.modifyType owner fun d => { d with methods := d.methods.set place bound }
        let p := p.enter bound
        match p.body? m with
        | some b => (some bound, p.setBody { b with method := bound })
        | none => (some bound, p)

end Program

namespace Build

/-- The type that is meant. -/
def type (arg : TypeArg) : Build TypeId :=
  match arg.resolve with
  | .ok t => pure t
  | .error error => throw (.typeName error)

/-- The definition of a type that has to be there. -/
def require (t : TypeId) : Build TypeDef := do
  match (← get).type? t with
  | some d => pure d
  | none => throw (.typeMissing t)

/-- The accessor that a property names, with its new role; none if no method fits. -/
def accessor (owner : TypeId) (arg : Option AccessorArg) (role : Role) : Build (Option Member) :=
  match arg with
  | none => pure none
  | some arg => modifyGet fun p => p.bindAccessor owner arg role

/-- Adds a type. A nested type is listed with the type around it, which has to be there. -/
def addType (arg : TypeArg) (base : Option TypeArg := none) (interfaces : List TypeArg := [])
    (isPublic : Bool := true) : Build TypeId := do
  let t ← type arg
  if (← get).defines t then throw (.typeExists t)
  if let some outer := t.outer? then
    unless (← get).defines outer do throw (.outerMissing t)
    modify fun p => p.modifyType outer fun d => { d with nested := d.nested ++ [t] }
  let base ← base.mapM type
  let interfaces ← interfaces.mapM type
  modify fun p =>
    { p with
      types := p.types.insert t { id := t, base, interfaces, isPublic }
      names := p.names.insert t.fullName t }
  return t

def addField (owner : TypeId) (name : String) (fieldType : TypeArg) (isStatic : Bool := false) : Build Member := do
  let _ ← require owner
  let field := { Member.field owner name (← type fieldType) with isStatic }
  modify fun p => (p.modifyType owner fun d => { d with fields := d.fields ++ [field] }).enter field
  return field

/-- A method as it is to be added. -/
structure NewMethod where
  name : String
  params : List TypeArg := []
  returns : TypeArg := .id .void
  isStatic : Bool := false
  isSpecial : Bool := false
  body : Option (List Instruction) := none
  locals : List TypeArg := []

/-- Adds a method whose signature is new, with its body if it has one. -/
def addMethod (owner : TypeId) (new : NewMethod) : Build Member := do
  let _ ← require owner
  let params ← new.params.mapM type
  let returns ← type new.returns
  let m : Member :=
    { Member.method owner new.name params returns with
      role := Program.newRole new.name new.isSpecial, isStatic := new.isStatic }
  if (← get).members.contains m.toSignature then throw (.methodExists m.toSignature)
  modify fun p => (p.modifyType owner fun d => { d with methods := d.methods ++ [m] }).enter m
  if let some instructions := new.body then
    let locals ← new.locals.mapM type
    modify fun p => p.setBody { method := m, instructions, locals }
  return m

/-- Adds a property and binds its accessors, which have to be methods already. -/
def addProperty (owner : TypeId) (name : String) (propertyType : TypeArg)
    (getter setter : Option AccessorArg := none) : Build Member := do
  let _ ← require owner
  let ref := Member.property owner name (← type propertyType)
  let getter ← accessor owner getter .getter
  let setter ← accessor owner setter .setter
  modify fun p =>
    (p.modifyType owner fun d => { d with properties := d.properties ++ [{ ref, getter, setter }] }).enter ref
  return ref

end Build

namespace Program

/-! ## Operands -/

/-- The instruction with the definition of the member that it names, if that is here. -/
def rebind (p : Program) (ins : Instruction) : Instruction :=
  match ins.member?.bind fun m => p.members.find? m.toSignature with
  | some definition => ins.withOperand (.member definition)
  | none => ins

/-- Gives every operand that names a member of the program the role and flag of its definition. -/
def resolveOperands (p : Program) : Program :=
  { p with
    bodies := ⟨p.bodies.entries.map fun entry =>
      (entry.1, { entry.2 with instructions := entry.2.instructions.map p.rebind })⟩ }

/-! ## Programs of other readers

A reader that takes roles from one table and properties from another can leave the two at odds. -/

/-- Gives a role to a method in its type's list only. -/
def tagMethod (p : Program) (owner : TypeId) (place : Nat) (role : Role) : Program :=
  p.modifyType owner fun d => { d with methods := d.methods.modify place (·.withRole role) }

/-- Puts the given accessors into the slots of a property. -/
def setSlots (p : Program) (owner : TypeId) (place : Nat) (getter setter : Option Member) : Program :=
  p.modifyType owner fun d => { d with properties := d.properties.modify place fun row => { row with getter, setter } }

end Program

end StubClosure
