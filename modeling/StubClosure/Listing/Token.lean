import StubClosure.Listing.Lexeme
import StubClosure.Span

/-!
# Tokens

A listing is read token by token, and what a token is depends on what can stand at the place: `Cursor.read` is given the terminals expected there and looks for no others. So a word such as `extends` is a name like any other wherever it has no meaning of its own. Blanks and comments may stand before every token.
-/

namespace StubClosure.Listing

/-- The classes of tokens. A literal is a fixed word or mark. -/
inductive Terminal where
  | label | number | name | string | constructorName
  | literal (text : String)
  deriving DecidableEq, Repr

/-- A place in a listing. Lines end at line feeds only, and columns count characters. -/
structure Position where
  line : Nat := 1
  column : Nat := 1
  deriving DecidableEq, Repr, Inhabited

namespace Position

/-- The place after a character. -/
def next (p : Position) (c : Char) : Position :=
  if c = '\n' then { line := p.line + 1, column := 1 } else { p with column := p.column + 1 }

/-- The place after a text. -/
def after (p : Position) (cs : List Char) : Position := cs.foldl next p

def toSpan (p : Position) : Span := { line := some p.line, column := some p.column }

end Position

structure Token where
  terminal : Terminal
  text : String
  position : Position
  deriving DecidableEq, Repr

/-! ## Words that are fixed -/

/-- What can be said of a declaration before its name. -/
def modifiers : List String :=
  ["public", "private", "family", "assembly", "famorassem", "famandassem", "protected", "internal", "nested",
   "static", "instance", "virtual", "abstract", "sealed", "final", "newslot", "hidebysig", "specialname",
   "rtspecialname", "initonly", "literal", "beforefieldinit", "interface", "auto", "ansi", "extern"]

/-- The marks: all fixed words that do not look like names. -/
def marks : List String :=
  [".class", ".field", ".property", ".method", ".get", ".set", ".locals", "\x7b", "\x7d", "(", ")", ",", "::"]

/-- Every terminal that begins unlike a name. Each fixed word that looks like a name is a name at the least. -/
def allTerminals : List Terminal :=
  [.label, .number, .name, .string, .constructorName] ++ marks.map .literal

/-! ## One token -/

/-- The names of constructors, which no name class covers. -/
def constructorName? (cs : List Char) : Option Cutting :=
  (literal? ['.', 'c', 't', 'o', 'r'] cs).or (literal? ['.', 'c', 'c', 't', 'o', 'r'] cs)

/-- The first of the expected literals that the text begins with. -/
def literalToken? (expected : List Terminal) (cs : List Char) : Option (Terminal × Cutting) :=
  expected.findSome? fun terminal =>
    match terminal with
    | .literal text => if text = "" then none else (literal? text.toList cs).map (terminal, ·)
    | _ => none

/-- A lexeme of a class, if the class is expected. -/
def classToken? (expected : List Terminal) (terminal : Terminal) (cut : Option Cutting) :
    Option (Terminal × Cutting) :=
  if terminal ∈ expected then cut.map (terminal, ·) else none

/-- A name, if names are expected. A name that is one of the expected words is that word. -/
def nameToken? (expected : List Terminal) (cs : List Char) : Option (Terminal × Cutting) :=
  (classToken? expected .name (name? cs)).map fun (terminal, cut) =>
    let word := Terminal.literal (String.ofList cut.1)
    (if word ∈ expected then word else terminal, cut)

/-- The token that the text begins with: labels go before numbers, then names, strings and what is fixed. -/
def token? (expected : List Terminal) (cs : List Char) : Option (Terminal × Cutting) :=
  (classToken? expected .label (label? cs)).or <|
  (classToken? expected .number (number? cs)).or <|
  (nameToken? expected cs).or <|
  (classToken? expected .string (string? cs)).or <|
  (classToken? expected .constructorName (constructorName? cs)).or <|
  literalToken? expected cs

/-! ## Reading from a place -/

/-- A place in a listing and the text from there on. -/
structure Cursor where
  position : Position := {}
  rest : List Char
  deriving DecidableEq, Repr

/-- Goes over blanks and comments. A comment begins with two slashes and ends before the next line feed. -/
def skipFrom (inComment : Bool) (position : Position) : List Char → Cursor
  | [] => { position, rest := [] }
  | c :: rest =>
    if inComment then skipFrom (c ≠ '\n') (position.next c) rest
    else if isSpace c then skipFrom false (position.next c) rest
    else if c = '/' ∧ rest.head? = some '/' then skipFrom true (position.next c) rest
    else { position, rest := c :: rest }

/-- What stands at a place: the end, a token and the place after it, or nothing that is expected there. -/
inductive Reading where
  | ended
  | token (token : Token) (rest : Cursor)
  | misplaced (position : Position)
  | unreadable (position : Position)
  deriving DecidableEq, Repr

namespace Cursor

def skip (c : Cursor) : Cursor := skipFrom false c.position c.rest

/-- Reads one of the expected terminals at a place where blanks have been skipped. What would be a token elsewhere is misplaced, what would be none anywhere is unreadable. -/
def readHere (expected : List Terminal) (c : Cursor) : Reading :=
  if c.rest.isEmpty then .ended
  else
    match token? expected c.rest with
    | some (terminal, lexeme, rest) =>
      .token { terminal, text := String.ofList lexeme, position := c.position }
        { position := c.position.after lexeme, rest }
    | none => if (token? allTerminals c.rest).isSome then .misplaced c.position else .unreadable c.position

/-- Reads one of the expected terminals. -/
def read (expected : List Terminal) (c : Cursor) : Reading := c.skip.readHere expected

end Cursor

/-! ## Reading uses text up -/

theorem skipFrom_length_le (inComment : Bool) (position : Position) (cs : List Char) :
    (skipFrom inComment position cs).rest.length ≤ cs.length := by
  induction cs generalizing inComment position with
  | nil => simp [skipFrom]
  | cons c rest ih =>
    rw [skipFrom]
    have step (b : Bool) (p : Position) : (skipFrom b p rest).rest.length ≤ (c :: rest).length :=
      Nat.le_succ_of_le (ih b p)
    split
    · exact step _ _
    · split
      · exact step _ _
      · split
        · exact step _ _
        · exact Nat.le_refl _

theorem classToken?_splits {expected : List Terminal} {terminal t : Terminal} {cs : List Char}
    {cut? : Option Cutting} {cut : Cutting} (hcut : ∀ cut, cut? = some cut → Splits cs cut)
    (h : classToken? expected terminal cut? = some (t, cut)) : Splits cs cut := by
  rw [classToken?] at h
  split at h
  · obtain ⟨inner, hinner, heq⟩ := Option.map_eq_some_iff.1 h
    cases heq
    exact hcut _ hinner
  · simp at h

theorem constructorName?_splits {cs : List Char} {cut : Cutting} (h : constructorName? cs = some cut) :
    Splits cs cut := by
  rw [constructorName?, Option.or_eq_some_iff] at h
  rcases h with h | ⟨_, h⟩
  · exact literal?_splits (by simp) h
  · exact literal?_splits (by simp) h

theorem token?_splits {expected : List Terminal} {terminal : Terminal} {cs : List Char} {cut : Cutting}
    (h : token? expected cs = some (terminal, cut)) : Splits cs cut := by
  simp only [token?, Option.or_eq_some_iff] at h
  rcases h with h | ⟨_, h | ⟨_, h | ⟨_, h | ⟨_, h | ⟨_, h⟩⟩⟩⟩⟩
  · exact classToken?_splits (fun _ => label?_splits) h
  · exact classToken?_splits (fun _ => number?_splits) h
  · obtain ⟨⟨t, inner⟩, hinner, heq⟩ := Option.map_eq_some_iff.1 h
    cases heq
    exact classToken?_splits (fun _ => name?_splits) hinner
  · exact classToken?_splits (fun _ => string?_splits) h
  · exact classToken?_splits (fun _ => constructorName?_splits) h
  · obtain ⟨t, _, ht⟩ := List.exists_of_findSome?_eq_some h
    split at ht
    · next text =>
      split at ht
      · simp at ht
      · next hne =>
        obtain ⟨inner, hinner, heq⟩ := Option.map_eq_some_iff.1 ht
        cases heq
        exact literal?_splits (by simpa using hne) hinner
    · simp at ht

theorem Cursor.length_lt_of_read {expected : List Terminal} {c rest : Cursor} {token : Token}
    (h : c.read expected = .token token rest) : rest.rest.length < c.rest.length := by
  rw [read, readHere] at h
  split at h
  · simp at h
  · split at h
    · next terminal lexeme rest' htoken =>
      simp only [Reading.token.injEq] at h
      rw [← h.2]
      exact Nat.lt_of_lt_of_le (token?_splits htoken).length_lt (skipFrom_length_le _ _ _)
    · split at h <;> simp at h

end StubClosure.Listing
