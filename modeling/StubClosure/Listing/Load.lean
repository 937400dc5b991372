import StubClosure.Listing.Parse
import StubClosure.Program.Build

/-!
# Loading a listing

A listing becomes a program in two walks over its declarations: the first adds all types, so that operands may name types declared later, the second fills in the members. The properties of a type come after its methods, because they name them. In the end every operand that names a member of the program gets the role and flag of its definition.
-/

namespace StubClosure.Listing

/-! ## What can be wrong -/

/-- A fault of a listing, apart from where it is. -/
inductive Fault where
  | grammar (fault : SyntaxFault)
  | build (error : BuildError)
  | instruction (error : InstructionError)
  | numeral (error : Text.NumeralError)
  deriving DecidableEq, Repr

def Fault.message : Fault → String
  | .grammar fault => "syntax error: " ++ fault.name
  | .build error => error.message
  | .instruction error => error.message
  | .numeral error => error.message

/-- A listing that cannot be loaded. A bad type name among the parameters or locals of a method is reported without its place. -/
inductive LoadError where
  | at (span : Span) (fault : Fault)
  | signature (error : TypeNameError)
  deriving DecidableEq, Repr

def LoadError.message : LoadError → String
  | .at span fault => span.render ++ ": " ++ fault.message
  | .signature error => error.message

/-! ## Names and operands -/

/-- The short names of built-in types. -/
def builtinTypes : List (String × String) :=
  [("void", "Void"), ("bool", "Boolean"), ("char", "Char"), ("int8", "SByte"), ("uint8", "Byte"),
   ("int16", "Int16"), ("uint16", "UInt16"), ("int32", "Int32"), ("uint32", "UInt32"), ("int64", "Int64"),
   ("uint64", "UInt64"), ("float32", "Single"), ("float64", "Double"), ("string", "String"), ("object", "Object")]

/-- The type that a name in a listing stands for. -/
def typeNamed (name : String) : Except TypeNameError TypeId :=
  match builtinTypes.lookup name with
  | some builtin => .ok (.top "System" builtin 0)
  | none => TypeId.parse name

/-- The instructions whose operand is the name of a type. -/
def typeMnemonics : List String :=
  ["box", "unbox", "unbox.any", "newarr", "castclass", "isinst", "ldtoken", "ldelema", "sizeof", "initobj", "ldobj",
   "stobj"]

/-- The digits of a name that stands for a slot: `V_` or `A_` and digits. -/
def slotDigits? (word : String) : Option (List Char) :=
  match word.toList with
  | kind :: '_' :: digits =>
    if (kind = 'V' ∨ kind = 'A') ∧ digits ≠ [] ∧ digits.all Char.isDigit then some digits else none
  | _ => none

/-- The offset that a label tells. -/
def labelOffset (label : String) : Nat := Text.readHex ((label.toList.drop 3).dropLast)

/-- A number with its sign. -/
def signed {ε : Type} (read : List Char → Except ε Nat) : List Char → Except ε Int
  | '-' :: digits => (read digits).map fun n => -Int.ofNat n
  | digits => (read digits).map Int.ofNat

/-- The operand that a number in a listing stands for. A number with a fraction stands for its text. -/
def numberOperand (digits : String) : Except Text.NumeralError Operand :=
  let cs := digits.toList
  let unsigned := if cs.head? = some '-' then cs.tail else cs
  if ['0', 'x'].isPrefixOf unsigned then
    (signed (fun hex => .ok (Text.readHex (hex.drop 2))) cs).map .number
  else if '.' ∈ cs then .ok (.text digits)
  else (signed Text.readDecimal cs).map .number

/-- Reports an error as a fault. -/
def orFault {ε α : Type} (fault : ε → Fault) : Except ε α → Except Fault α := Except.mapError fault

def typeFault (error : TypeNameError) : Fault := .build (.typeName error)

/-- The operand of an instruction. A member is a field if the instruction accesses fields or no parameters are written. -/
def operandOf (mnemonic : String) : OperandText → Except Fault Operand
  | .member _ type owner name params => do
    let owner ← orFault typeFault (typeNamed owner)
    match if (OpCategory.ofMnemonic mnemonic).isFieldAccess then none else params with
    | none => return .member (.field owner name (← orFault typeFault (typeNamed type)))
    | some params =>
      let params ← params.mapM fun param => orFault typeFault (typeNamed param)
      return .member (.method owner name params (← orFault typeFault (typeNamed type)))
  | .number digits => orFault .numeral (numberOperand digits)
  | .string quoted => return .text (String.ofList quoted.toList.tail.dropLast)
  | .name word =>
    match slotDigits? word with
    | some digits => return .number (← orFault .numeral (Text.readDecimal digits))
    | none =>
      if mnemonic ∈ typeMnemonics then return .type (← orFault typeFault (typeNamed word))
      else return .text word

/-! ## Declarations -/

/-- Reports a fault at the place of a declaration. -/
def located {α : Type} (file : Option String) (position : Position) : Except Fault α → Except LoadError α :=
  Except.mapError (.at (Span.locate file position.toSpan))

/-- A step of building at the place of a declaration. A failing step gives up the whole program. -/
def build {α : Type} (file : Option String) (position : Position) (p : Program) (step : Build α) :
    Except LoadError (α × Program) :=
  match step.run p with
  | (.ok a, p) => .ok (a, p)
  | (.error error, _) => located file position (.error (.build error))

/-- The type that a declaration in the given type is called by. -/
def declaredId (outer : Option TypeId) (name : String) : Except TypeNameError TypeId :=
  match outer with
  | some outer => outer.nest name.toList
  | none => TypeId.parse name

/-- Adds the type that a declaration begins. -/
def declareHead (file : Option String) (outer : Option TypeId) (h : TypeHead) (p : Program) :
    Except LoadError (TypeId × Program) := do
  let named {α : Type} (name : Except TypeNameError α) := located file h.position (orFault typeFault name)
  let t ← named (declaredId outer h.name)
  let base ← h.base.mapM fun name => named (typeNamed name)
  let interfaces ← h.interfaces.mapM fun name => named (typeNamed name)
  build file h.position p
    (Build.addType (.id t) (base.map .id) (interfaces.map .id) (h.modifiers.contains "public"))

mutual

/-- Adds a declared type and the types inside it. -/
def declareType (file : Option String) (outer : Option TypeId) (h : TypeHead) (members : List Decl) (p : Program) :
    Except LoadError Program := do
  let (t, p) ← declareHead file outer h p
  declareInner file t members p

/-- Adds the types among the members of a type. -/
def declareInner (file : Option String) (outer : TypeId) : List Decl → Program → Except LoadError Program
  | [], p => .ok p
  | .type h members :: rest, p => do
    declareInner file outer rest (← declareType file (some outer) h members p)
  | .field _ :: rest, p | .property _ :: rest, p | .method _ :: rest, p => declareInner file outer rest p

end

/-- An instruction as it is declared. -/
def instructionOf (file : Option String) (i : InstructionDecl) : Except LoadError Instruction :=
  located file i.position do
    let operand ← i.operand.mapM (operandOf (Mnemonic.lower i.mnemonic))
    orFault .instruction (Instruction.make (labelOffset i.label) i.mnemonic operand)

/-- The types of a list of names that belongs to the signature or locals of a method. -/
def signatureTypes (names : List String) : Except LoadError (List TypeId) :=
  Except.mapError .signature (names.mapM typeNamed)

def addField (file : Option String) (owner : TypeId) (f : FieldDecl) (p : Program) : Except LoadError Program := do
  let type ← located file f.position (orFault typeFault (typeNamed f.type))
  let (_, p) ← build file f.position p
    (Build.addField owner f.name (.id type) (f.modifiers.contains "static"))
  return p

def addProperty (file : Option String) (owner : TypeId) (d : PropertyDecl) (p : Program) :
    Except LoadError Program := do
  let type ← located file d.position (orFault typeFault (typeNamed d.type))
  let (_, p) ← build file d.position p
    (Build.addProperty owner d.name (.id type) (d.getter?.map .name) (d.setter?.map .name))
  return p

def addMethod (file : Option String) (owner : TypeId) (m : MethodDecl) (p : Program) : Except LoadError Program := do
  let params ← signatureTypes m.params
  let locals ← signatureTypes ((m.body.bind BodyDecl.locals).getD [])
  let body ← m.body.mapM fun body => body.instructions.mapM (instructionOf file)
  let returns ← located file m.position (orFault typeFault (typeNamed m.returns))
  let (_, p) ← build file m.position p <| Build.addMethod owner
    { name := m.name, params := params.map .id, returns := .id returns
      isStatic := m.modifiers.contains "static"
      isSpecial := m.modifiers.contains "specialname" || m.modifiers.contains "rtspecialname"
      body, locals := locals.map .id }
  return p

/-- Adds the properties among the members of a type. -/
def addProperties (file : Option String) (owner : TypeId) : List Decl → Program → Except LoadError Program
  | [], p => .ok p
  | .property d :: rest, p => do addProperties file owner rest (← addProperty file owner d p)
  | .field _ :: rest, p | .method _ :: rest, p | .type .. :: rest, p => addProperties file owner rest p

mutual

/-- Fills in the members of a declared type. -/
def populateType (file : Option String) (outer : Option TypeId) (h : TypeHead) (members : List Decl) (p : Program) :
    Except LoadError Program := do
  let t ← Except.mapError .signature (declaredId outer h.name)
  addProperties file t members (← populateMembers file t members p)

/-- Adds the members of a type other than its properties, and fills in the types among them. -/
def populateMembers (file : Option String) (owner : TypeId) : List Decl → Program → Except LoadError Program
  | [], p => .ok p
  | .field f :: rest, p => do populateMembers file owner rest (← addField file owner f p)
  | .method m :: rest, p => do populateMembers file owner rest (← addMethod file owner m p)
  | .type h members :: rest, p => do
    populateMembers file owner rest (← populateType file (some owner) h members p)
  | .property _ :: rest, p => populateMembers file owner rest p

end

/-- The program of a list of declared types. -/
def elaborate (file : Option String) (name : String) (types : List TypeDecl) : Except LoadError Program := do
  let p ← types.foldlM (fun p t => declareType file none t.head t.members p) ({ name } : Program)
  let p ← types.foldlM (fun p t => populateType file none t.head t.members p) p
  return p.resolveOperands

/-- The program of a listing. -/
def load (source : String) (name : String := "program") (file : Option String := none) :
    Except LoadError Program :=
  match parse source with
  | .ok types => elaborate file name types
  | .error e => .error (.at (Span.locate file e.position.toSpan) (.grammar e.fault))

end StubClosure.Listing
