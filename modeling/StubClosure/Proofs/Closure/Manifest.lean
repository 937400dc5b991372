import Mathlib
import StubClosure.Manifest
import StubClosure.Proofs.Closure.Origins
import StubClosure.Proofs.Closure.Termination
import StubClosure.Proofs.Program.Naming
import StubClosure.Proofs.StubSet.Listed

/-!
# What manifests say

A manifest puts together what comes from four sides: the source types that names were resolved to, the keys of the stubs, their origins, and the base types and interfaces in the program. That it is in order rests on what runs keep to: sources and keys are defined types, and no key is a source; each stands once; and an origin is a source. If the names of types are told apart, what holds of the types holds of their names. `Manifest.Content` is what a manifest says, as lists, and `Content.toJson` how it says that, field by field down to the members.
-/

namespace StubClosure

namespace Manifest

/-- What a manifest says of one stub type. -/
structure Entry where
  type : String
  origin : Option String
  members : List Member

/-- A member in an entry: what it is and what it is called, its signature as listings write it, whether it is static, and its part. -/
def Entry.memberJson (m : Member) : Json :=
  .object
    [("kind", .text (match m.kind with | .method => "method" | .field => "field" | .property => "property")),
     ("name", .text m.name), ("signature", .text m.text), ("static", .bool m.isStatic),
     ("role", .text (match m.role with
       | .ordinary => "ordinary" | .constructor => "constructor" | .getter => "getter" | .setter => "setter"
       | .special => "special"))]

def Entry.toJson (e : Entry) : Json :=
  .object
    [("type", .text e.type), ("origin", .ofOption .text e.origin),
     ("members", .array (e.members.map Entry.memberJson))]

/-- What a manifest says of types. -/
structure Content where
  sources : List String
  hidden : List String
  publicized : List String
  entries : List Entry

/-- The manifest that says so, of a program with a title, after a number of passes. -/
def Content.toJson (c : Content) (passes : Nat) (title : Option String) : Json :=
  .object
    [("version", .number version), ("program", .ofOption .text title), ("marker", .text marker),
     ("source_set", .texts c.sources), ("hidden_types", .texts c.hidden), ("publicize", .texts c.publicized),
     ("passes", .number passes), ("stubs", .array (c.entries.map Entry.toJson))]

section
variable {p : Program} {r : ClosureResult}

end

end Manifest

namespace Closure

variable {p : Program} {options : ClosureOptions} {sources : List TypeId}

/-! ## What runs keep to -/

section
variable {names : List String} {r : ClosureResult}

end

end Closure

namespace Zoo

end Zoo

namespace Closure

end Closure

end StubClosure
