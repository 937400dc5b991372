import StubClosure.TypeId
import StubClosure.Order
import StubClosure.Table

/-!
# Members

A method, field or property is identified by its signature: kind, declaring type, name, parameter types and value type. A reference to a member also tells its role and whether it is static. These are settled when a program is built and travel with the reference, but two references of one signature name the same member. A `MemberSet` holds each member once, in the shape in which it came first.
-/

namespace StubClosure

inductive MemberKind where
  | method | field | property
  deriving DecidableEq, Repr

def MemberKind.name : MemberKind → String
  | .method => "method"
  | .field => "field"
  | .property => "property"

/-- What part a method plays for its type. A special method is neither a constructor nor an accessor: an operator, say. -/
inductive Role where
  | ordinary | constructor | getter | setter | special
  deriving DecidableEq, Repr

namespace Role

def name : Role → String
  | .ordinary => "ordinary"
  | .constructor => "constructor"
  | .getter => "getter"
  | .setter => "setter"
  | .special => "special"

/-- The role of a name, if it is one. -/
def ofName? (name : String) : Option Role :=
  [ordinary, constructor, getter, setter, special].find? fun role => role.name = name

/-- The place of a role in the list of roles, counted from one. -/
def number : Role → Nat
  | .ordinary => 1
  | .constructor => 2
  | .getter => 3
  | .setter => 4
  | .special => 5

end Role

/-- What identifies a member. The value type is what a method returns, and the type of a field or property. -/
structure Signature where
  kind : MemberKind
  owner : TypeId
  name : String
  params : List TypeId := []
  valueType : TypeId := .void
  deriving DecidableEq, Repr

/-- A reference to a member. -/
structure Member extends Signature where
  role : Role := .ordinary
  isStatic : Bool := false
  deriving DecidableEq, Repr

namespace Signature

/-- The signature as listings and messages write it. -/
def text (s : Signature) : String :=
  let named := s.valueType.fullName ++ " " ++ s.owner.fullName ++ "::" ++ s.name
  match s.kind with
  | .field => named
  | .method | .property => named ++ "(" ++ Text.joinWith "," (s.params.map TypeId.fullName) ++ ")"

/-- What members are sorted by: owner, kind, name, parameters, value type. -/
def sortKey (s : Signature) : List (List String) :=
  [[s.owner.fullName], [s.kind.name], [s.name], s.params.map TypeId.fullName, [s.valueType.fullName]]

end Signature

namespace Member

/-- A reference to a method that plays no special part as far as the reference knows. -/
def method (owner : TypeId) (name : String) (params : List TypeId) (returns : TypeId) : Member :=
  { kind := .method, owner, name, params, valueType := returns }

def field (owner : TypeId) (name : String) (type : TypeId) : Member :=
  { kind := .field, owner, name, valueType := type }

def property (owner : TypeId) (name : String) (type : TypeId) : Member :=
  { kind := .property, owner, name, valueType := type }

/-- The references name the same member. -/
def same (a b : Member) : Bool := a.toSignature = b.toSignature

def text (m : Member) : String := m.toSignature.text

def hasParameters (m : Member) : Bool := !m.params.isEmpty

/-- A method that plays some part beyond that of an ordinary one. -/
def isSpecialName (m : Member) : Bool := m.kind = .method && m.role ≠ .ordinary

def isConstructor (m : Member) : Bool := m.role = .constructor

def withRole (m : Member) (role : Role) : Member := { m with role }

@[simp] theorem toSignature_withRole (m : Member) (role : Role) : (m.withRole role).toSignature = m.toSignature := rfl

/-- The reference written out part by part. -/
def describe (m : Member) : String :=
  let params := m.params.map TypeId.describe
  let listed := if params.length = 1 then Text.joinWith ", " params ++ "," else Text.joinWith ", " params
  s!"MemberRef(kind=<MemberKind.{m.kind.name.toUpper}: {Text.quoted m.kind.name}>, declaring_type={m.owner.describe}, name={Text.quoted m.name}, param_types=({listed}), value_type={m.valueType.describe}, role=<MemberRole.{m.role.name.toUpper}: {m.role.number}>, is_static={staticText})"
where
  /-- The flag in words. -/
  staticText : String := if m.isStatic then "True" else "False"

end Member

/-- The order of listing: by the first difference between the keys. -/
def Signature.precedes (a b : Signature) : Bool :=
  a.sortKey.lex b.sortKey fun part other => part.lex other fun text other => text < other

/-- Members in their order of listing, equal ones in the order in which they came. -/
def sortMembers (members : List Member) : List Member :=
  members.mergeSort fun a b => !b.toSignature.precedes a.toSignature

/-! ## Sets of members -/

/-- A set of members, each as it was first put in. -/
abbrev MemberSet := Table Signature Member

namespace MemberSet

def add (set : MemberSet) (m : Member) : MemberSet := set.insertNew m.toSignature m

def addAll (set : MemberSet) (members : List Member) : MemberSet := members.foldl add set

def ofList (members : List Member) : MemberSet := addAll {} members

/-- The members in their order of listing. -/
def sorted (set : MemberSet) : List Member := sortMembers set.values

/-- The sets hold the same members. -/
def same (a b : MemberSet) : Bool := a.size = b.size && a.keys.all fun key => b.contains key

/-- Every member stands under its own signature. -/
def IsKeyed (set : MemberSet) : Prop := ∀ entry ∈ set.entries, entry.2.toSignature = entry.1

theorem isKeyed_empty : IsKeyed {} := by simp [IsKeyed]

theorem isKeyed_add {set : MemberSet} (h : set.IsKeyed) (m : Member) : (set.add m).IsKeyed := by
  unfold add Table.insertNew
  split
  · exact h
  · intro entry hmem
    rcases List.mem_append.1 hmem with hmem | hmem
    · exact h entry hmem
    · rw [List.mem_singleton.1 hmem]

theorem isKeyed_addAll {set : MemberSet} (h : set.IsKeyed) (members : List Member) :
    (set.addAll members).IsKeyed := by
  induction members generalizing set with
  | nil => exact h
  | cons m rest ih => exact ih (isKeyed_add h m)

theorem IsKeyed.map_values {set : MemberSet} (h : set.IsKeyed) :
    set.values.map (·.toSignature) = set.keys := by
  simp only [Table.values, Table.keys, List.map_map]
  exact List.map_congr_left h

theorem IsKeyed.mem_keys {set : MemberSet} (h : set.IsKeyed) {m : Member} (hm : m ∈ set.values) :
    m.toSignature ∈ set.keys := by
  rw [← h.map_values]
  exact List.mem_map_of_mem hm

theorem mem_keys_add {set : MemberSet} {m : Member} {s : Signature} :
    s ∈ (set.add m).keys ↔ s = m.toSignature ∨ s ∈ set.keys :=
  Table.mem_keys_insertNew

theorem mem_keys_addAll {set : MemberSet} {members : List Member} {s : Signature} :
    s ∈ (set.addAll members).keys ↔ s ∈ set.keys ∨ s ∈ members.map (·.toSignature) := by
  induction members generalizing set with
  | nil => simp [addAll]
  | cons m rest ih =>
    show s ∈ (addAll (set.add m) rest).keys ↔ _
    rw [ih, mem_keys_add]
    grind

theorem nodup_keys_addAll {set : MemberSet} (h : set.keys.Nodup) (members : List Member) :
    (set.addAll members).keys.Nodup := by
  induction members generalizing set with
  | nil => exact h
  | cons m rest ih => exact ih (Table.nodup_keys_insertNew h _ _)

theorem entries_prefix_addAll (set : MemberSet) (members : List Member) :
    set.entries <+: (set.addAll members).entries := by
  induction members generalizing set with
  | nil => exact List.prefix_rfl
  | cons m rest ih => exact (Table.entries_prefix_insertNew set m.toSignature m).trans (ih (set.add m))

theorem addAll_eq_self {set : MemberSet} {members : List Member}
    (h : ∀ m ∈ members, m.toSignature ∈ set.keys) : set.addAll members = set := by
  induction members with
  | nil => rfl
  | cons m rest ih =>
    show addAll (set.add m) rest = set
    rw [show set.add m = set from Table.insertNew_eq_self m (h m (by simp))]
    exact ih fun m hm => h m (by simp [hm])

end MemberSet

end StubClosure
