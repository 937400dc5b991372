import StubClosure.Closure.Run
import StubClosure.Json.Write
import StubClosure.Sha256

/-!
# Manifests

A manifest hands the result of a run to the tool that writes the stubs. It lists the stub types with the members to declare, the types that get hidden (source types and stub types), and the types that must become public because a hidden type derives from them. Everything is sorted, so equal results give equal text, and the digest of the canonical text is the fingerprint of the manifest.
-/

namespace StubClosure

namespace Member

/-- A member as it stands in a manifest. -/
def toJson (m : Member) : Json :=
  .object
    [("kind", .text m.kind.name), ("name", .text m.name), ("signature", .text m.text),
     ("static", .bool m.isStatic), ("role", .text m.role.name)]

end Member

namespace Manifest

/-- The attribute by which stubs are recognised. -/
def marker : String := "PapierStubAttribute"

def version : Int := 1

/-- The base types and interfaces of a type. -/
def related (d : TypeDef) : List TypeId := d.interfaces ++ d.base.toList

/-- The program defines the type and keeps it to itself. -/
def isInternal (p : Program) (t : TypeId) : Bool := (p.type? t).any fun d => !d.isPublic

/-- The internal types of the program that hidden types derive from, by full name. -/
def publicizeTargets (p : Program) (hidden : List TypeId) : List TypeId :=
  let targets := (hidden.filterMap p.type?).flatMap fun d => (related d).filter (isInternal p)
  sortOn TypeId.fullName (Table.firstBy id targets).keys

/-- The source types and the stub types, by full name. -/
def hiddenTypes (r : ClosureResult) : List TypeId :=
  sortOn TypeId.fullName (Table.firstBy id (r.sources ++ r.stubs.keys)).keys

/-- The full names of types. -/
def names (types : List TypeId) : Json := .texts (types.map TypeId.fullName)

/-- A stub type with its origin and members. -/
def stubEntry (r : ClosureResult) (item : TypeId × List Member) : Json :=
  .object
    [("type", .text item.1.fullName),
     ("origin", .ofOption (fun origin => .text origin.fullName) (r.origins.find? item.1)),
     ("members", .array (item.2.map Member.toJson))]

/-- The manifest of a result. -/
def build (r : ClosureResult) (p : Program) (name : Option String) : Json :=
  let hidden := hiddenTypes r
  .object
    [("version", .number version), ("program", .ofOption .text name), ("marker", .text marker),
     ("source_set", names r.sources), ("hidden_types", names hidden),
     ("publicize", names (publicizeTargets p hidden)), ("passes", .number r.passCount),
     ("stubs", .array (r.stubs.items.map (stubEntry r)))]

/-- The digest of the canonical text. -/
def fingerprint (manifest : Json) : Except Text.NumeralError String := manifest.compact.map Sha256.hexOfText

/-- The text of a manifest as it is written to files. -/
def render (manifest : Json) : Except Text.NumeralError String := manifest.indented.map (· ++ "\n")

end Manifest

end StubClosure
