import StubClosure.Text.Cut

/-!
# Paths

A path is a list of names, from the working directory or from the root. Empty names and single dots say nothing and are left out; double dots are kept, because what they mean depends on the directories.
-/

namespace StubClosure

/-- A path. The root is one or two slashes, or nothing for a path from the working directory. -/
structure Path where
  root : String := ""
  names : List String := []
  deriving DecidableEq, Repr, Inhabited

namespace Path

/-- The root of a path as it is written. Only a pair of slashes differs from a single one. -/
def rootOf : List Char → String
  | '/' :: '/' :: '/' :: _ => "/"
  | '/' :: '/' :: _ => "//"
  | '/' :: _ => "/"
  | _ => ""

/-- Says where to go. -/
def isStep (name : String) : Bool := name ≠ "" && name ≠ "."

/-- Reads a path. -/
def ofString (text : String) : Path :=
  let (first, others) := Text.pieces '/' text.toList
  { root := rootOf text.toList, names := ((first :: others).map String.ofList).filter isStep }

/-- The path in writing. A path that leads nowhere is a dot. -/
def toString (p : Path) : String :=
  if p.root = "" ∧ p.names = [] then "." else p.root ++ Text.joinWith "/" p.names

/-- The other path, taken from this one. -/
def join (p other : Path) : Path := if other.root = "" then { p with names := p.names ++ other.names } else other

/-- An entry of a directory. -/
def child (p : Path) (name : String) : Path := p.join (ofString name)

/-- Holds a null character, as no path of a file or directory does. -/
def hasNull (p : Path) : Bool := p.names.any fun name => name.toList.contains '\x00'

/-- Has more bytes than a name in a directory can have. -/
def isLongName (name : String) : Bool := 255 < name.utf8ByteSize

/-- Has more bytes than a path can have. -/
def isLong (p : Path) : Bool := 4095 < p.toString.utf8ByteSize

/-- The path without its last name. -/
def parent (p : Path) : Path := { p with names := p.names.dropLast }

/-- The last name. -/
def name (p : Path) : String := p.names.getLast?.getD ""

/-- The last name without its suffix. A name that begins with its only dot has no suffix, nor has one that ends in it. -/
def stem (p : Path) : String :=
  match Text.cutLast? '.' p.name.toList with
  | some (before, after) => if before ≠ [] ∧ after ≠ [] then String.ofList before else p.name
  | none => p.name

end Path

end StubClosure
