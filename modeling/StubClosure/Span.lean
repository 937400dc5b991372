/-!
# Spans

Where in a text something stands: file, line and column, as far as they are known.
-/

namespace StubClosure

/-- A place in a text. -/
structure Span where
  file : Option String := none
  line : Option Int := none
  column : Option Int := none
  deriving DecidableEq, Repr, Inhabited

namespace Span

/-- The file name, if there is one that is not empty. -/
def named (file : Option String) : Option String := file.filter (· ≠ "")

/-- The span in the given file, if it names none itself. -/
def inFile (span : Span) (file : Option String) : Span := { span with file := span.file.or file }

/-- The line and column of a place within the given file; the place's own file counts only if the given one has no name. -/
def locate (file : Option String) (place : Span) : Span := { place with file := (named file).or place.file }

/-- The part of a place that may be unknown. -/
def partText : Option Int → String
  | none => "?"
  | some n => toString n

/-- The place as `file:line:column`. -/
def render (span : Span) : String :=
  (named span.file).getD "<unknown>" ++ ":" ++ partText span.line ++ ":" ++ partText span.column

end Span

end StubClosure
