import Mathlib.Tactic.MkIffOfInductiveProp
import StubClosure.Text.Cut
import StubClosure.Proofs.Listing.Sentence

/-!
# Listings in writing

The words of a listing, in the order of the grammar. Places have no part in them: of two trees that differ in places only the text is the same, and `place` gives a tree the places that its declarations and instructions have in that text. A listing is well-formed if every text in it is one that the reader would take for what it is meant to be.
-/

namespace StubClosure.Listing

namespace Word

def ofName (text : String) : Word := ⟨.name, text⟩

def fixed (text : String) : Word := ⟨.literal text, text⟩

/-- The name of a member, which may be one of those that only constructors have. -/
def ofMember (text : String) : Word :=
  if text ∈ [".ctor", ".cctor"] then ⟨.constructorName, text⟩ else ofName text

/-! ## Lists of names -/

/-- The names of a list from the second on. -/
def moreNames (names : List String) : List Word := names.flatMap fun name => [fixed ",", ofName name]

def nameList : List String → List Word
  | [] => []
  | name :: rest => ofName name :: moreNames rest

def inParens (names : List String) : List Word := fixed "(" :: (nameList names ++ [fixed ")"])

end Word

open Word

/-! ## The words of declarations -/

namespace OperandText

def words : OperandText → List Word
  | .member marked type owner called params =>
    (if marked then [fixed "instance"] else []) ++
      (ofName type :: ofName owner :: fixed "::" :: ofMember called :: params.elim [] inParens)
  | .number digits => [⟨.number, digits⟩]
  | .string quoted => [⟨.string, quoted⟩]
  | .name word => [ofName word]

end OperandText

namespace InstructionDecl

def words (i : InstructionDecl) : List Word :=
  ⟨.label, i.label⟩ :: ofName i.mnemonic :: i.operand.elim [] OperandText.words

end InstructionDecl

namespace BodyDecl

/-- The words before the instructions. -/
def start (b : BodyDecl) : List Word :=
  fixed "\x7b" :: b.locals.elim [] fun names => fixed ".locals" :: inParens names

def words (b : BodyDecl) : List Word := b.start ++ (b.instructions.flatMap InstructionDecl.words ++ [fixed "\x7d"])

end BodyDecl

namespace MethodDecl

/-- The words before the body. -/
def start (m : MethodDecl) : List Word :=
  fixed ".method" :: (m.modifiers.map fixed ++ (ofName m.returns :: ofMember m.name :: inParens m.params))

def words (m : MethodDecl) : List Word := m.start ++ m.body.elim [] BodyDecl.words

end MethodDecl

namespace FieldDecl

def words (f : FieldDecl) : List Word :=
  fixed ".field" :: (f.modifiers.map fixed ++ [ofName f.type, ofName f.name])

end FieldDecl

namespace Accessor

def words : Accessor → List Word
  | .getter method => [fixed ".get", ofName method]
  | .setter method => [fixed ".set", ofName method]

end Accessor

namespace PropertyDecl

def words (d : PropertyDecl) : List Word :=
  fixed ".property" :: ofName d.type :: ofName d.name :: fixed "\x7b" ::
    (d.accessors.flatMap Accessor.words ++ [fixed "\x7d"])

end PropertyDecl

namespace TypeHead

/-- The words up to the brace that opens the type. -/
def words (h : TypeHead) : List Word :=
  fixed ".class" :: (h.modifiers.map fixed ++
    (ofName h.name :: (h.base.elim [] (fun base => [fixed "extends", ofName base]) ++
      ((if h.interfaces = [] then [] else fixed "implements" :: nameList h.interfaces) ++ [fixed "\x7b"]))))

end TypeHead

mutual

def Decl.words : Decl → List Word
  | .field f => f.words
  | .property d => d.words
  | .method m => m.words
  | .type h members => h.words ++ (memberWords members ++ [fixed "\x7d"])

/-- The words of the members of a type. -/
def memberWords : List Decl → List Word
  | [] => []
  | d :: rest => d.words ++ memberWords rest

end

def TypeDecl.words (t : TypeDecl) : List Word := t.head.words ++ (memberWords t.members ++ [fixed "\x7d"])

/-- The text of a listing. -/
def text (types : List TypeDecl) : String :=
  Text.joinWith " " ((types.flatMap TypeDecl.words).map Word.text)

theorem toList_joinWith (words : List Word) : (Text.joinWith " " (words.map Word.text)).toList = spaced words := by
  induction words with
  | nil => rfl
  | cons w rest ih =>
    cases rest with
    | nil => rfl
    | cons other rest =>
      have hblank : (" " : String).toList = [' '] := rfl
      rw [spaced_cons_cons, ← ih]
      simp [Text.joinWith, hblank]

/-! ## Places -/

/-- Instructions with the places that they have if the first begins at the given place. -/
def placeInstructions (position : Position) : List InstructionDecl → List InstructionDecl
  | [] => []
  | i :: rest => { i with position } :: placeInstructions (position.pastAll i.words) rest

def BodyDecl.place (b : BodyDecl) (position : Position) : BodyDecl :=
  { b with instructions := placeInstructions (position.pastAll b.start) b.instructions }

def MethodDecl.place (m : MethodDecl) (position : Position) : MethodDecl :=
  { m with position, body := m.body.map fun b => b.place (position.pastAll m.start) }

mutual

def Decl.place (position : Position) : Decl → Decl
  | .field f => .field { f with position }
  | .property d => .property { d with position }
  | .method m => .method (m.place position)
  | .type h members => .type { h with position } (placeMembers (position.pastAll h.words) members)

/-- Members with the places that they have if the first begins at the given place. -/
def placeMembers (position : Position) : List Decl → List Decl
  | [] => []
  | d :: rest => d.place position :: placeMembers (position.pastAll d.words) rest

end

def TypeDecl.place (t : TypeDecl) (position : Position) : TypeDecl where
  head := { t.head with position }
  members := placeMembers (position.pastAll t.head.words) t.members

/-- Types with the places that they have in their text, from a place on. -/
def placeTypes (position : Position) : List TypeDecl → List TypeDecl
  | [] => []
  | t :: rest => t.place position :: placeTypes (position.pastAll t.words) rest

/-! ## Without places -/

def InstructionDecl.bare (i : InstructionDecl) : InstructionDecl := { i with position := {} }

def MethodDecl.bare (m : MethodDecl) : MethodDecl :=
  { m with position := {}, body := m.body.map fun b => { b with instructions := b.instructions.map InstructionDecl.bare } }

mutual

/-- A declaration apart from all places. -/
def Decl.bare : Decl → Decl
  | .field f => .field { f with position := {} }
  | .property d => .property { d with position := {} }
  | .method m => .method m.bare
  | .type h members => .type { h with position := {} } (bareMembers members)

def bareMembers : List Decl → List Decl
  | [] => []
  | d :: rest => d.bare :: bareMembers rest

end

def TypeDecl.bare (t : TypeDecl) : TypeDecl where
  head := { t.head with position := {} }
  members := bareMembers t.members

theorem bare_placeInstructions (position : Position) (instructions : List InstructionDecl) :
    (placeInstructions position instructions).map InstructionDecl.bare = instructions.map InstructionDecl.bare := by
  induction instructions generalizing position with
  | nil => rfl
  | cons i rest ih =>
    rw [placeInstructions, List.map_cons, List.map_cons, ih]
    rfl

theorem MethodDecl.bare_place (m : MethodDecl) (position : Position) : (m.place position).bare = m.bare := by
  unfold place bare
  cases m.body with
  | none => rfl
  | some b => simp [BodyDecl.place, bare_placeInstructions]

mutual

theorem Decl.bare_place (position : Position) : ∀ d : Decl, (d.place position).bare = d.bare
  | .field _ => rfl
  | .property _ => rfl
  | .method m => by rw [Decl.place, Decl.bare, Decl.bare, m.bare_place]
  | .type h members => by rw [Decl.place, Decl.bare, Decl.bare, bare_placeMembers]

theorem bare_placeMembers (position : Position) : ∀ members : List Decl,
    bareMembers (placeMembers position members) = bareMembers members
  | [] => rfl
  | d :: rest => by
    rw [placeMembers, bareMembers, bareMembers, d.bare_place, bare_placeMembers _ rest]

end

theorem bare_placeTypes (position : Position) (types : List TypeDecl) :
    (placeTypes position types).map TypeDecl.bare = types.map TypeDecl.bare := by
  induction types generalizing position with
  | nil => rfl
  | cons t rest ih =>
    rw [placeTypes, List.map_cons, List.map_cons, ih]
    congr 1
    unfold TypeDecl.place TypeDecl.bare
    rw [bare_placeMembers]

/-! ## Well-formed listings -/

/-- A name where a modifier could stand as well. -/
def IsPlainName (text : String) : Prop := IsName text ∧ text ∉ modifiers

instance (text : String) : Decidable (IsPlainName text) := inferInstanceAs (Decidable (_ ∧ _))

/-- The name of a member. -/
def IsMemberName (text : String) : Prop := IsName text ∨ text ∈ [".ctor", ".cctor"]

instance (text : String) : Decidable (IsMemberName text) := inferInstanceAs (Decidable (_ ∨ _))

/-- An operand that begins with a name does not begin with the word that marks members. -/
def OperandText.WellFormed : OperandText → Prop
  | .member marked type owner called params => IsName type ∧ (marked = false → type ≠ "instance") ∧ IsName owner ∧
      IsMemberName called ∧ ∀ names ∈ params, ∀ text ∈ names, IsName text
  | .number digits => IsWhole number? digits
  | .string quoted => IsWhole string? quoted
  | .name word => IsName word ∧ word ≠ "instance"

@[mk_iff]
structure InstructionDecl.WellFormed (i : InstructionDecl) : Prop where
  label : IsWhole label? i.label
  mnemonic : IsName i.mnemonic
  operand : ∀ operand ∈ i.operand, operand.WellFormed

@[mk_iff]
structure MethodDecl.WellFormed (m : MethodDecl) : Prop where
  modifiers : ∀ word ∈ m.modifiers, word ∈ Listing.modifiers
  returns : IsPlainName m.returns
  name : IsMemberName m.name
  params : ∀ text ∈ m.params, IsName text
  locals : ∀ b ∈ m.body, ∀ names ∈ b.locals, ∀ text ∈ names, IsName text
  instructions : ∀ b ∈ m.body, ∀ i ∈ b.instructions, i.WellFormed

@[mk_iff]
structure FieldDecl.WellFormed (f : FieldDecl) : Prop where
  modifiers : ∀ word ∈ f.modifiers, word ∈ Listing.modifiers
  type : IsPlainName f.type
  name : IsName f.name

def Accessor.method : Accessor → String
  | .getter method => method
  | .setter method => method

@[mk_iff]
structure PropertyDecl.WellFormed (d : PropertyDecl) : Prop where
  type : IsName d.type
  name : IsName d.name
  accessors : ∀ accessor ∈ d.accessors, IsName accessor.method

@[mk_iff]
structure TypeHead.WellFormed (h : TypeHead) : Prop where
  modifiers : ∀ word ∈ h.modifiers, word ∈ Listing.modifiers
  name : IsPlainName h.name
  base : ∀ text ∈ h.base, IsName text
  interfaces : ∀ text ∈ h.interfaces, IsName text

mutual

def Decl.WellFormed : Decl → Prop
  | .field f => f.WellFormed
  | .property d => d.WellFormed
  | .method m => m.WellFormed
  | .type h members => h.WellFormed ∧ MembersWellFormed members

def MembersWellFormed : List Decl → Prop
  | [] => True
  | d :: rest => d.WellFormed ∧ MembersWellFormed rest

end

def TypeDecl.WellFormed (t : TypeDecl) : Prop := t.head.WellFormed ∧ MembersWellFormed t.members

/-! It can be decided whether a listing is well-formed. -/

instance : (operand : OperandText) → Decidable operand.WellFormed
  | .member .. => inferInstanceAs (Decidable (_ ∧ _))
  | .number _ => inferInstanceAs (Decidable (IsWhole _ _))
  | .string _ => inferInstanceAs (Decidable (IsWhole _ _))
  | .name _ => inferInstanceAs (Decidable (_ ∧ _))

instance (i : InstructionDecl) : Decidable i.WellFormed := decidable_of_iff' _ i.wellFormed_iff

instance (m : MethodDecl) : Decidable m.WellFormed := decidable_of_iff' _ m.wellFormed_iff

instance (f : FieldDecl) : Decidable f.WellFormed := decidable_of_iff' _ f.wellFormed_iff

instance (d : PropertyDecl) : Decidable d.WellFormed := decidable_of_iff' _ d.wellFormed_iff

instance (h : TypeHead) : Decidable h.WellFormed := decidable_of_iff' _ h.wellFormed_iff

mutual

def Decl.decideWellFormed : (d : Decl) → Decidable d.WellFormed
  | .field f => inferInstanceAs (Decidable f.WellFormed)
  | .property d => inferInstanceAs (Decidable d.WellFormed)
  | .method m => inferInstanceAs (Decidable m.WellFormed)
  | .type h members =>
    have := decideMembersWellFormed members
    inferInstanceAs (Decidable (h.WellFormed ∧ MembersWellFormed members))

def decideMembersWellFormed : (members : List Decl) → Decidable (MembersWellFormed members)
  | [] => inferInstanceAs (Decidable True)
  | d :: rest =>
    have := d.decideWellFormed
    have := decideMembersWellFormed rest
    inferInstanceAs (Decidable (d.WellFormed ∧ MembersWellFormed rest))

end

instance (members : List Decl) : Decidable (MembersWellFormed members) := decideMembersWellFormed members

instance (t : TypeDecl) : Decidable t.WellFormed :=
  inferInstanceAs (Decidable (t.head.WellFormed ∧ MembersWellFormed t.members))

end StubClosure.Listing
