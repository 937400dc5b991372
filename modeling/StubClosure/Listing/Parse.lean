import StubClosure.Listing.Grammar

/-!
# Reading a listing

The machine of the grammar runs over the text, one token at a time. Reading fails at the first place where nothing expected stands, and at the end of a listing that is not complete; in that case the last token is to blame.
-/

namespace StubClosure.Listing

/-- How a text fails to be a listing. -/
inductive SyntaxFault where
  | unexpectedToken
  | unexpectedCharacters
  deriving DecidableEq, Repr

def SyntaxFault.name : SyntaxFault → String
  | .unexpectedToken => "UnexpectedToken"
  | .unexpectedCharacters => "UnexpectedCharacters"

/-- A fault and where it is. -/
structure SyntaxError where
  fault : SyntaxFault
  position : Position
  deriving DecidableEq, Repr

/-- Runs the machine from a state and a place. The last token before the place stands at `last`. -/
def runFrom (s : State) (last : Position) (c : Cursor) : Except SyntaxError (List TypeDecl) :=
  match _h : c.read s.expected with
  | .ended => if s.isComplete then .ok s.types else .error ⟨.unexpectedToken, last⟩
  | .misplaced position => .error ⟨.unexpectedToken, position⟩
  | .unreadable position => .error ⟨.unexpectedCharacters, position⟩
  | .token token rest =>
    match s.shift token with
    | some s => runFrom s token.position rest
    | none => .error ⟨.unexpectedToken, token.position⟩
termination_by c.rest.length
decreasing_by exact Cursor.length_lt_of_read _h

/-- The types that a text declares. -/
def parse (source : String) : Except SyntaxError (List TypeDecl) :=
  runFrom {} {} { rest := source.toList }

end StubClosure.Listing
