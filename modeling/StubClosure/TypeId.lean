import StubClosure.Text.Blank
import StubClosure.Text.Cut
import StubClosure.Text.Numeral

/-!
# Type identities

A type is identified by its namespace, its name, the number of its generic parameters and the type that encloses it. Two references to one definition are equal values, wherever they come from. The full name writes an identity as `Ns.Outer/Inner`, a positive arity after a backtick; `TypeId.parse` reads such a name. There is a limit to the numbers that can be written, and an arity stays below it, so every type has a name.
-/

namespace StubClosure

/-- A number of generic parameters. It is one that can be written. -/
@[ext]
structure Arity where
  value : Int
  natAbs_lt : value.natAbs < Text.unwritableFrom
  deriving DecidableEq, Repr

namespace Arity

/-- An arity of ordinary size. -/
def small (n : UInt8) : Arity :=
  ⟨n.toNat, Text.lt_unwritableFrom (Nat.le_trans (Nat.le_of_lt n.toNat_lt) (by decide))⟩

instance : OfNat Arity 0 := ⟨small 0⟩

instance : Inhabited Arity := ⟨0⟩

/-- The arity in writing. -/
def text (arity : Arity) : String := toString arity.value

/-- Every arity can be written. -/
theorem writeDecimal_value (arity : Arity) : Text.writeDecimal arity.value = .ok arity.text :=
  Text.writeDecimal_of_lt arity.natAbs_lt

/-- The arity that a decimal numeral writes. -/
def read (digits : List Char) : Except Text.NumeralError Arity :=
  match h : Text.readDecimal digits with
  | .ok n => .ok ⟨n, Text.lt_unwritableFrom_of_readDecimal h⟩
  | .error error => .error error

theorem read_of_error {digits : List Char} {error : Text.NumeralError} (h : Text.readDecimal digits = .error error) :
    read digits = .error error := by
  unfold read
  split
  next h' => cases h.symm.trans h'
  next h' => exact congrArg Except.error (Except.error.inj (h'.symm.trans h))

theorem read_of_ok {digits : List Char} {n : Nat} (h : Text.readDecimal digits = .ok n) :
    ∃ arity, read digits = .ok arity ∧ arity.value = n := by
  unfold read
  split
  next n' h' => exact ⟨_, rfl, congrArg Int.ofNat (Except.ok.inj (h'.symm.trans h))⟩
  next h' => cases h.symm.trans h'

theorem read_nonneg {digits : List Char} {arity : Arity} (h : read digits = .ok arity) : 0 ≤ arity.value := by
  cases hread : Text.readDecimal digits with
  | ok n =>
    obtain ⟨found, hfound, hvalue⟩ := read_of_ok hread
    obtain rfl := Except.ok.inj (hfound.symm.trans h)
    exact hvalue ▸ Int.natCast_nonneg n
  | error error => cases (read_of_error hread).symm.trans h

end Arity

/-- The identity of a type. A type read from its name has a namespace only if it is not nested. -/
inductive TypeId where
  | top (space name : String) (arity : Arity)
  | inner (outer : TypeId) (space name : String) (arity : Arity)
  deriving DecidableEq, Repr, Inhabited

/-- Why a text is no type name. -/
inductive TypeNameError where
  | invalid (text : String)
  | arity (error : Text.NumeralError)
  deriving DecidableEq, Repr

def TypeNameError.message : TypeNameError → String
  | .invalid text => "invalid type name '" ++ text ++ "'"
  | .arity error => error.message

namespace TypeId

def space : TypeId → String
  | .top space _ _ | .inner _ space _ _ => space

def name : TypeId → String
  | .top _ name _ | .inner _ _ name _ => name

def arity : TypeId → Arity
  | .top _ _ arity | .inner _ _ _ arity => arity

/-- The type directly around a nested type. -/
def outer? : TypeId → Option TypeId
  | .top .. => none
  | .inner outer .. => some outer

/-- The name with its arity, if there is one to tell. -/
def simpleText (name : String) (arity : Arity) : String :=
  if arity.value = 0 then name else name ++ "\x60" ++ arity.text

def simpleName (t : TypeId) : String := simpleText t.name t.arity

/-- The name by which a type is called everywhere: the enclosing types before it, a slash between. -/
def fullName : TypeId → String
  | .top space name arity =>
    if space = "" then simpleText name arity else space ++ "." ++ simpleText name arity
  | .inner outer _ name arity => outer.fullName ++ "/" ++ simpleText name arity

/-- The other type encloses this one, at any depth. -/
def isNestedIn : TypeId → TypeId → Bool
  | .top .., _ => false
  | .inner outer .., other => outer = other || outer.isNestedIn other

/-- The type of methods that return nothing. -/
def void : TypeId := .top "System" "Void" 0

/-! ## Reading names -/

/-- A simple name apart from its arity. Digits after the last backtick are an arity if a name stands before it. -/
def splitArity (simple : List Char) : Except TypeNameError (String × Arity) :=
  match Text.cutLast? '\x60' simple with
  | some (name, digits) =>
    if name ≠ [] ∧ digits ≠ [] ∧ digits.all Text.isDigit then
      match Arity.read digits with
      | .ok arity => .ok (String.ofList name, arity)
      | .error error => .error (.arity error)
    else .ok (String.ofList simple, 0)
  | none => .ok (String.ofList simple, 0)

/-- The type of a simple name nested in another. -/
def nest (outer : TypeId) (simple : List Char) : Except TypeNameError TypeId := do
  let (name, arity) ← splitArity simple
  return .inner outer "" name arity

/-- Two slashes stand side by side. -/
def hasDoubleSlash : List Char → Bool
  | '/' :: '/' :: _ => true
  | _ :: rest => hasDoubleSlash rest
  | [] => false

/-- The namespace and the simple name of an outermost type: the last dot is between them. -/
def splitSpace (head : List Char) : List Char × List Char := (Text.cutLast? '.' head).getD ([], head)

/-- Nests types in each other, the outermost first. An empty name among them is refused on behalf of the whole text. -/
def nestAll (text : String) (outer : TypeId) : List (List Char) → Except TypeNameError TypeId
  | [] => .ok outer
  | part :: parts => do
    if part = [] then throw (.invalid text)
    nestAll text (← outer.nest part) parts

/-- Reads a full name. -/
def parse (text : String) : Except TypeNameError TypeId := do
  let cs := text.toList
  if cs = [] ∨ ¬ Text.IsTrimmed cs ∨ hasDoubleSlash cs then throw (.invalid text)
  let (head, parts) := Text.pieces '/' cs
  let (space, simple) := splitSpace head
  if simple = [] then throw (.invalid text)
  let (name, arity) ← splitArity simple
  nestAll text (.top (String.ofList space) name arity) parts

/-- The identity written out part by part. -/
def describe : TypeId → String
  | .top space name arity => partsText space name arity "None"
  | .inner outer space name arity => partsText space name arity outer.describe
where
  /-- The parts of one identity, that of the enclosing type already written. -/
  partsText (space name : String) (arity : Arity) (outer : String) : String :=
    s!"TypeId(namespace={Text.quoted space}, name={Text.quoted name}, arity={arity.text}, outer={outer})"

end TypeId

end StubClosure
