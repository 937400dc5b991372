import StubClosure.Json.Value
import StubClosure.Text.Cut
import StubClosure.Text.Numeral
import StubClosure.Text.Quoted

/-!
# Writing JSON

Three ways to write a value: `compact` puts nothing between the tokens, `indented` gives every item and field a line of its own, and `spaced` writes one line with a space after each comma and colon and holds nothing but printable ASCII. The first two sort the fields of objects, and fail if there is a number in the value that is too long to be written. The last keeps the order of fields; it is for reports, where numbers are counts and positions.
-/

namespace StubClosure.Json

/-! ## Strings -/

/-- A character of a string that has a short escape. -/
def shortEscape? (c : Char) : Option Char :=
  [('"', '"'), ('\\', '\\'), ('\n', 'n'), ('\r', 'r'), ('\t', 't'), ('\x0c', 'f'), ('\x08', 'b')].lookup c

/-- Escapes a sixteen-bit code unit. -/
def escapeUnit (unit : Nat) : List Char := '\\' :: 'u' :: Text.hexDigits 4 unit

/-- A character of a string: control characters, the quote and the backslash are escaped. -/
def charText (c : Char) : List Char :=
  match shortEscape? c with
  | some letter => ['\\', letter]
  | none => if c.toNat < 0x20 then escapeUnit c.toNat else [c]

/-- The sixteen-bit code units of a character. -/
def codeUnits (c : Char) : List Nat :=
  if c.toNat < 0x10000 then [c.toNat]
  else [0xd800 + (c.toNat - 0x10000) / 0x400, 0xdc00 + (c.toNat - 0x10000) % 0x400]

/-- A character of a string in which everything but printable ASCII is escaped. -/
def asciiCharText (c : Char) : List Char :=
  match shortEscape? c with
  | some letter => ['\\', letter]
  | none => if 0x20 ≤ c.toNat ∧ c.toNat < 0x7f then [c] else (codeUnits c).flatMap escapeUnit

/-- A string in quotes, each character written by the given rule. -/
def quotedText (rule : Char → List Char) (s : String) : String :=
  String.ofList ('"' :: (s.toList.flatMap rule ++ ['"']))

/-! ## Layouts -/

/-- How the parts of a value are written and put together. -/
structure Layout where
  /-- How a character of a string is written. -/
  char : Char → List Char
  /-- What stands between a key and its value. -/
  colon : String
  /-- Puts the texts of items or fields between two brackets, at a depth of nesting. -/
  enclose : Nat → String → String → List String → String

/-- Brackets around the parts, with a separator between neighbours. -/
def inline (separator : String) (_ : Nat) (opening closing : String) (parts : List String) : String :=
  opening ++ Text.joinWith separator parts ++ closing

/-- The start of a line at a depth of nesting. -/
def lineStart (depth : Nat) : String := "\n" ++ String.ofList (List.replicate (2 * depth) ' ')

/-- Brackets around the parts, each part on a line of its own. -/
def onLines (depth : Nat) (opening closing : String) (parts : List String) : String :=
  if parts.isEmpty then opening ++ closing
  else
    let start := lineStart (depth + 1)
    opening ++ start ++ Text.joinWith ("," ++ start) parts ++ lineStart depth ++ closing

/-- Nothing between the tokens. -/
def Layout.compact : Layout := { char := charText, colon := ":", enclose := inline "," }

/-- Every item and field on a line of its own. -/
def Layout.indented : Layout := { char := charText, colon := ": ", enclose := onLines }

/-- One line of ASCII with a space after each comma and colon. -/
def Layout.spaced : Layout := { char := asciiCharText, colon := ": ", enclose := inline ", " }

mutual

/-- The text of a value at a depth of nesting. -/
def writeAt (layout : Layout) (depth : Nat) : Json → String
  | null => "null"
  | bool true => "true"
  | bool false => "false"
  | number n => toString n
  | text s => quotedText layout.char s
  | array items => layout.enclose depth "[" "]" (writeItems layout (depth + 1) items)
  | object fields => layout.enclose depth "\x7b" "\x7d" (writeFields layout (depth + 1) fields)

/-- The texts of the items of an array. -/
def writeItems (layout : Layout) (depth : Nat) : List Json → List String
  | [] => []
  | item :: items => writeAt layout depth item :: writeItems layout depth items

/-- The texts of the fields of an object. -/
def writeFields (layout : Layout) (depth : Nat) : List (String × Json) → List String
  | [] => []
  | (key, value) :: fields =>
    (quotedText layout.char key ++ layout.colon ++ writeAt layout depth value) :: writeFields layout depth fields

end

/-! ## Long numbers -/

mutual

/-- All numbers in the value are short enough to be written. -/
def isWritable : Json → Bool
  | null | bool _ | text _ => true
  | number n => n.natAbs < Text.unwritableFrom
  | array items => areWritable items
  | object fields => fieldsWritable fields

def areWritable : List Json → Bool
  | [] => true
  | item :: items => item.isWritable && areWritable items

def fieldsWritable : List (String × Json) → Bool
  | [] => true
  | (_, value) :: fields => value.isWritable && fieldsWritable fields

end

/-- Writes a value, its fields sorted, unless there is a number in it that is too long. -/
def write (layout : Layout) (value : Json) : Except Text.NumeralError String :=
  if value.isWritable then .ok (writeAt layout 0 value.sorted) else .error .unwritable

/-- The canonical text: no blanks, sorted fields. -/
def compact (value : Json) : Except Text.NumeralError String := value.write .compact

/-- The text on many lines, sorted fields. -/
def indented (value : Json) : Except Text.NumeralError String := value.write .indented

/-- The text on one line of ASCII, fields as they stand. -/
def spaced (value : Json) : String := writeAt .spaced 0 value

end StubClosure.Json
