import StubClosure.Member

/-!
# Stub sets

The types that need a stub, each with the members that its stub declares. A stub set only grows: a key is never one of the source types, and a member stands under the type that declares it. Once the set is frozen nothing is added any more. A step that fails says why; what it added before stays.
-/

namespace StubClosure

structure StubSet where
  sources : List TypeId := []
  entries : Table TypeId MemberSet := {}
  isFrozen : Bool := false
  deriving Repr, Inhabited

inductive StubSetError where
  | frozen
  | sourceType (t : TypeId)
  | notStubbed (t : TypeId)
  | foreignMember (m : Signature) (t : TypeId)
  | noEntry (t : TypeId)
  deriving DecidableEq, Repr

def StubSetError.message : StubSetError → String
  | .frozen => "stub set is frozen"
  | .sourceType t => s!"source-set type {t.fullName} cannot be stubbed"
  | .notStubbed t => s!"{t.fullName} is not a stub type"
  | .foreignMember m t => s!"{m.text} does not declare on stub type {t.fullName}"
  | .noEntry t => t.fullName

/-- A step that may change a stub set, and may fail after that. -/
abbrev Stubbing := ExceptT StubSetError (StateM StubSet)

namespace StubSet

/-! ## Adding -/

def checkMutable : Stubbing Unit := do
  if (← get).isFrozen then throw .frozen

/-- Adds a key without members. Tells whether it is new. -/
def addType (t : TypeId) : Stubbing Bool := do
  checkMutable
  if t ∈ (← get).sources then throw (.sourceType t)
  if (← get).entries.contains t then return false
  modify fun s => { s with entries := s.entries.insert t {} }
  return true

/-- Adds members to the entry of a key. Tells how many are new. The first member that another type declares ends it. -/
def addMembers (t : TypeId) (members : List Member) : Stubbing Nat := do
  checkMutable
  match (← get).entries.find? t with
  | none => throw (.notStubbed t)
  | some entry =>
    let grown := entry.addAll (members.takeWhile fun m => m.owner = t)
    modify fun s => { s with entries := s.entries.insert t grown }
    match members.find? fun m => m.owner ≠ t with
    | some m => throw (.foreignMember m.toSignature t)
    | none => return grown.size - entry.size

def freeze (s : StubSet) : StubSet := { s with isFrozen := true }

/-! ## Reading -/

def contains (s : StubSet) (t : TypeId) : Bool := s.entries.contains t

def size (s : StubSet) : Nat := s.entries.size

/-- The members under a key. -/
def members (s : StubSet) (t : TypeId) : Except StubSetError MemberSet :=
  match s.entries.find? t with
  | some entry => .ok entry
  | none => .error (.noEntry t)

/-- The keys by full name. -/
def keys (s : StubSet) : List TypeId := sortOn TypeId.fullName s.entries.keys

/-- The keys by full name, each with its members in their order of listing. -/
def items (s : StubSet) : List (TypeId × List Member) :=
  s.keys.map fun t => (t, ((s.entries.find? t).getD {}).sorted)

/-- The number of members under all keys. -/
def memberCount (s : StubSet) : Nat := (s.entries.values.map Table.size).foldr (· + ·) 0

/-- The sets have the same keys with the same members. -/
def same (a b : StubSet) : Bool :=
  a.size = b.size && a.entries.entries.all fun (t, entry) => (b.entries.find? t).any entry.same

/-- The keys with the numbers of their members. -/
def summary (s : StubSet) : String :=
  "StubSet(" ++ Text.joinWith ", " (s.items.map fun (t, members) => s!"{t.fullName}[{members.length}]") ++ ")"

end StubSet

end StubClosure
