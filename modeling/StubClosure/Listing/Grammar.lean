import StubClosure.Listing.Tree

/-!
# The grammar of listings

The grammar is a pushdown machine. Its stack holds the types whose braces are open, its mode says how far the current declaration has been read. `State.expected` lists the terminals that can come next, `State.shift` takes one of them. A listing is complete when no brace is open and no declaration has been begun.

    listing      type*
    type         .class modifier* NAME (extends NAME)? (implements NAME (, NAME)*)? { member* }
    member       field | property | method | type
    field        .field modifier* NAME NAME
    property     .property NAME NAME { (.get NAME | .set NAME)* }
    method       .method modifier* NAME (NAME | CTOR) ( names? ) body?
    body         { (.locals ( names? ))? instruction* }
    names        NAME (, NAME)*
    instruction  LABEL NAME operand?
    operand      instance? NAME NAME :: (NAME | CTOR) (( names? ))? | NUMBER | STRING | NAME
-/

namespace StubClosure.Listing

/-- The lists of names in parentheses, with what has been read around them. -/
inductive NameList where
  | params (m : MethodDecl)
  | locals (m : MethodDecl) (names : List String)
  | signature (m : MethodDecl) (i : InstructionDecl) (marked : Bool) (type owner name : String) (names : List String)
  deriving DecidableEq, Repr

/-- How far the current declaration has been read. -/
inductive Mode where
  | members
  | typeStart (h : TypeHead)
  | typeNamed (h : TypeHead)
  | typeBase (h : TypeHead)
  | typeBased (h : TypeHead)
  | typeInterface (h : TypeHead)
  | typeInterfaced (h : TypeHead)
  | fieldStart (f : FieldDecl)
  | fieldTyped (f : FieldDecl)
  | propertyStart (p : PropertyDecl)
  | propertyTyped (p : PropertyDecl)
  | propertyNamed (p : PropertyDecl)
  | accessors (p : PropertyDecl)
  | accessorName (p : PropertyDecl) (accessor : String → Accessor)
  | methodStart (m : MethodDecl)
  | methodTyped (m : MethodDecl)
  | methodNamed (m : MethodDecl)
  | methodSigned (m : MethodDecl)
  | bodyStart (m : MethodDecl)
  | localsStart (m : MethodDecl)
  | listOpen (l : NameList)
  | listNext (l : NameList)
  | listMore (l : NameList)
  | code (m : MethodDecl)
  | mnemonic (m : MethodDecl) (i : InstructionDecl)
  | operand (m : MethodDecl) (i : InstructionDecl)
  | memberType (m : MethodDecl) (i : InstructionDecl)
  | memberOwner (m : MethodDecl) (i : InstructionDecl) (type : String)
  | operandName (m : MethodDecl) (i : InstructionDecl) (word : String)
  | memberColons (m : MethodDecl) (i : InstructionDecl) (marked : Bool) (type owner : String)
  | memberName (m : MethodDecl) (i : InstructionDecl) (marked : Bool) (type owner : String)
  | memberNamed (m : MethodDecl) (i : InstructionDecl) (marked : Bool) (type owner name : String)

/-- The open types, the innermost first, the types that have been closed, and the current mode. -/
structure State where
  enclosing : List TypeDecl := []
  types : List TypeDecl := []
  mode : Mode := .members

/-! ## What can come next -/

/-- The literals of a list of words. -/
def literals (words : List String) : List Terminal := words.map .literal

/-- What can follow inside the braces of a type. -/
def memberStarts : List Terminal := literals [".field", ".property", ".method", ".class", "\x7d"]

/-- What can follow an instruction. -/
def codeStarts : List Terminal := [.label, .literal "\x7d"]

/-- The terminals that can come next in a mode. -/
def Mode.expected (isOpen : Bool) : Mode → List Terminal
  | .members => if isOpen then memberStarts else literals [".class"]
  | .typeStart _ | .fieldStart _ | .methodStart _ => .name :: literals modifiers
  | .typeNamed _ => literals ["extends", "implements", "\x7b"]
  | .typeBased _ => literals ["implements", "\x7b"]
  | .typeInterfaced _ => literals [",", "\x7b"]
  | .typeBase _ | .typeInterface _ | .fieldTyped _ | .propertyStart _ | .propertyTyped _ | .accessorName .. => [.name]
  | .propertyNamed _ => literals ["\x7b"]
  | .accessors _ => literals [".get", ".set", "\x7d"]
  | .methodTyped _ => [.name, .constructorName]
  | .methodNamed _ | .localsStart _ => literals ["("]
  | .methodSigned _ => .literal "\x7b" :: memberStarts
  | .bodyStart _ => .literal ".locals" :: codeStarts
  | .listOpen _ => [.name, .literal ")"]
  | .listNext _ => [.name]
  | .listMore _ => literals [",", ")"]
  | .code _ => codeStarts
  | .mnemonic .. => [.name]
  | .operand .. => .literal "instance" :: .name :: .number :: .string :: codeStarts
  | .memberType .. | .memberOwner .. => [.name]
  | .operandName .. => .name :: codeStarts
  | .memberColons .. => literals ["::"]
  | .memberName .. => [.name, .constructorName]
  | .memberNamed .. => .literal "(" :: codeStarts

/-- The terminals that can come next. -/
def State.expected (s : State) : List Terminal := s.mode.expected (!s.enclosing.isEmpty)

/-- The end can come next. -/
def State.isComplete (s : State) : Bool :=
  match s.mode with
  | .members => s.enclosing.isEmpty
  | _ => false

/-! ## Taking a token -/

namespace State

def goto (s : State) (mode : Mode) : State := { s with mode }

/-- Adds a member to the innermost open type. -/
def addMember (s : State) (decl : Decl) : State :=
  match s.enclosing with
  | [] => s
  | t :: outer => { s with enclosing := { t with members := t.members ++ [decl] } :: outer }

/-- Opens the braces of a type. -/
def openType (s : State) (h : TypeHead) : State :=
  { s with enclosing := { head := h } :: s.enclosing, mode := .members }

/-- Closes the innermost type: it is a member of the one around it, or a type of its own. -/
def closeType (s : State) : Option State :=
  match s.enclosing with
  | [] => none
  | [t] => some { enclosing := [], types := s.types ++ [t], mode := .members }
  | t :: outer => some ({ s with enclosing := outer, mode := .members }.addMember (.type t.head t.members))

/-- Ends a member of the innermost type. -/
def endMember (s : State) (decl : Decl) : State := (s.addMember decl).goto .members

/-- Begins a member of the innermost type, or closes the type. -/
def shiftMember (s : State) (t : Token) : Option State :=
  match t.terminal with
  | .literal ".class" => s.goto (.typeStart { position := t.position })
  | .literal ".field" => s.goto (.fieldStart { position := t.position })
  | .literal ".property" => s.goto (.propertyStart { position := t.position })
  | .literal ".method" => s.goto (.methodStart { position := t.position })
  | .literal "\x7d" => s.closeType
  | _ => none

/-- Begins an instruction of a method, or ends its body. -/
def shiftCode (s : State) (m : MethodDecl) (t : Token) : Option State :=
  match t.terminal with
  | .label => s.goto (.mnemonic m { position := t.position, label := t.text })
  | .literal "\x7d" => s.endMember (.method m)
  | _ => none

/-- Changes the body of a method. -/
def inBody (m : MethodDecl) (change : BodyDecl → BodyDecl) : MethodDecl :=
  { m with body := some (change (m.body.getD {})) }

/-- Ends an instruction with an operand that has been read. -/
def endInstruction (m : MethodDecl) (i : InstructionDecl) (operand : Option OperandText) : MethodDecl :=
  inBody m fun body => { body with instructions := body.instructions ++ [{ i with operand }] }

/-- Adds a name to a list. -/
def addName (l : NameList) (name : String) : NameList :=
  match l with
  | .params m => .params { m with params := m.params ++ [name] }
  | .locals m names => .locals m (names ++ [name])
  | .signature m i marked type owner member names => .signature m i marked type owner member (names ++ [name])

/-- Where reading goes on after a list of names. -/
def endList : NameList → Mode
  | .params m => .methodSigned m
  | .locals m names => .code (inBody m fun body => { body with locals := some names })
  | .signature m i marked type owner member names =>
    .code (endInstruction m i (some (.member marked type owner member (some names))))

/-- Takes a modifier of a declaration, or the name after the modifiers. -/
def shiftModifier (s : State) (t : Token) (modified named : String → Mode) : Option State :=
  match t.terminal with
  | .name => s.goto (named t.text)
  | .literal _ => s.goto (modified t.text)
  | _ => none

/-- Takes one of the expected tokens. -/
def shift (s : State) (t : Token) : Option State :=
  match s.mode with
  | .members => s.shiftMember t
  -- types
  | .typeStart h =>
    s.shiftModifier t (fun word => .typeStart { h with modifiers := h.modifiers ++ [word] })
      (fun name => .typeNamed { h with name })
  | .typeNamed h =>
    match t.terminal with
    | .literal "extends" => s.goto (.typeBase h)
    | .literal "implements" => s.goto (.typeInterface h)
    | .literal "\x7b" => s.openType h
    | _ => none
  | .typeBase h => s.goto (.typeBased { h with base := some t.text })
  | .typeBased h =>
    match t.terminal with
    | .literal "implements" => s.goto (.typeInterface h)
    | .literal "\x7b" => s.openType h
    | _ => none
  | .typeInterface h => s.goto (.typeInterfaced { h with interfaces := h.interfaces ++ [t.text] })
  | .typeInterfaced h =>
    match t.terminal with
    | .literal "," => s.goto (.typeInterface h)
    | .literal "\x7b" => s.openType h
    | _ => none
  -- fields
  | .fieldStart f =>
    s.shiftModifier t (fun word => .fieldStart { f with modifiers := f.modifiers ++ [word] })
      (fun type => .fieldTyped { f with type })
  | .fieldTyped f => s.endMember (.field { f with name := t.text })
  -- properties
  | .propertyStart p => s.goto (.propertyTyped { p with type := t.text })
  | .propertyTyped p => s.goto (.propertyNamed { p with name := t.text })
  | .propertyNamed p => s.goto (.accessors p)
  | .accessors p =>
    match t.terminal with
    | .literal ".get" => s.goto (.accessorName p .getter)
    | .literal ".set" => s.goto (.accessorName p .setter)
    | .literal "\x7d" => s.endMember (.property p)
    | _ => none
  | .accessorName p accessor => s.goto (.accessors { p with accessors := p.accessors ++ [accessor t.text] })
  -- methods
  | .methodStart m =>
    s.shiftModifier t (fun word => .methodStart { m with modifiers := m.modifiers ++ [word] })
      (fun returns => .methodTyped { m with returns })
  | .methodTyped m => s.goto (.methodNamed { m with name := t.text })
  | .methodNamed m => s.goto (.listOpen (.params m))
  | .methodSigned m =>
    match t.terminal with
    | .literal "\x7b" => s.goto (.bodyStart (inBody m id))
    | _ => (s.endMember (.method m)).shiftMember t
  | .bodyStart m =>
    match t.terminal with
    | .literal ".locals" => s.goto (.localsStart m)
    | _ => s.shiftCode m t
  | .localsStart m => s.goto (.listOpen (.locals m []))
  -- lists of names
  | .listOpen l =>
    match t.terminal with
    | .name => s.goto (.listMore (addName l t.text))
    | .literal ")" => s.goto (endList l)
    | _ => none
  | .listNext l => s.goto (.listMore (addName l t.text))
  | .listMore l =>
    match t.terminal with
    | .literal "," => s.goto (.listNext l)
    | .literal ")" => s.goto (endList l)
    | _ => none
  -- instructions
  | .code m => s.shiftCode m t
  | .mnemonic m i => s.goto (.operand m { i with mnemonic := t.text })
  | .operand m i =>
    match t.terminal with
    | .literal "instance" => s.goto (.memberType m i)
    | .name => s.goto (.operandName m i t.text)
    | .number => s.goto (.code (endInstruction m i (some (.number t.text))))
    | .string => s.goto (.code (endInstruction m i (some (.string t.text))))
    | _ => s.shiftCode (endInstruction m i none) t
  | .memberType m i => s.goto (.memberOwner m i t.text)
  | .memberOwner m i type => s.goto (.memberColons m i true type t.text)
  | .operandName m i word =>
    match t.terminal with
    | .name => s.goto (.memberColons m i false word t.text)
    | _ => s.shiftCode (endInstruction m i (some (.name word))) t
  | .memberColons m i marked type owner => s.goto (.memberName m i marked type owner)
  | .memberName m i marked type owner => s.goto (.memberNamed m i marked type owner t.text)
  | .memberNamed m i marked type owner name =>
    match t.terminal with
    | .literal "(" => s.goto (.listOpen (.signature m i marked type owner name []))
    | _ => s.shiftCode (endInstruction m i (some (.member marked type owner name none))) t

end State

end StubClosure.Listing
