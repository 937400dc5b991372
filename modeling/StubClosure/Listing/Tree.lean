import StubClosure.Listing.Token

/-!
# The contents of a listing

A listing as it is written: declarations with their names and modifiers as text, before any name is taken for a type or a member. Each declaration and each instruction remembers where its first token stands.
-/

namespace StubClosure.Listing

structure FieldDecl where
  position : Position
  modifiers : List String := []
  type : String := ""
  name : String := ""
  deriving DecidableEq, Repr

/-- Names a method that reads or writes a property. -/
inductive Accessor where
  | getter (method : String)
  | setter (method : String)
  deriving DecidableEq, Repr

structure PropertyDecl where
  position : Position
  type : String := ""
  name : String := ""
  accessors : List Accessor := []
  deriving DecidableEq, Repr

namespace PropertyDecl

/-- The method that reads the property: the first one named. -/
def getter? (p : PropertyDecl) : Option String :=
  p.accessors.findSome? fun
    | .getter method => some method
    | .setter _ => none

/-- The method that writes the property: the first one named. -/
def setter? (p : PropertyDecl) : Option String :=
  p.accessors.findSome? fun
    | .setter method => some method
    | .getter _ => none

end PropertyDecl

/-- An operand as it is written. A member may be marked by the word `instance`, and has parameters if it is written with parentheses. -/
inductive OperandText where
  | member (marked : Bool) (type owner name : String) (params : Option (List String))
  | number (digits : String)
  | string (quoted : String)
  | name (word : String)
  deriving DecidableEq, Repr

structure InstructionDecl where
  position : Position
  label : String
  mnemonic : String := ""
  operand : Option OperandText := none
  deriving DecidableEq, Repr

structure BodyDecl where
  locals : Option (List String) := none
  instructions : List InstructionDecl := []
  deriving DecidableEq, Repr

structure MethodDecl where
  position : Position
  modifiers : List String := []
  returns : String := ""
  name : String := ""
  params : List String := []
  body : Option BodyDecl := none
  deriving DecidableEq, Repr

/-- What a type declaration says before its members. -/
structure TypeHead where
  position : Position
  modifiers : List String := []
  name : String := ""
  base : Option String := none
  interfaces : List String := []
  deriving DecidableEq, Repr

inductive Decl where
  | field (decl : FieldDecl)
  | property (decl : PropertyDecl)
  | method (decl : MethodDecl)
  | type (head : TypeHead) (members : List Decl)
  deriving Repr

/-- A type declaration with its members. -/
structure TypeDecl where
  head : TypeHead
  members : List Decl := []
  deriving Repr

end StubClosure.Listing
