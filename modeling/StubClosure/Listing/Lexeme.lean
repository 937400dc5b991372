import StubClosure.Text.Digit

/-!
# Lexemes

The words of a listing that are not fixed: labels, numbers, names and quoted strings. Each recogniser takes the longest lexeme of its class that the text begins with, and gives it apart from the rest. `lexeme ++ rest` is always the text, and a lexeme is never empty.
-/

namespace StubClosure.Listing

/-- A lexeme at the start of a text, and the text after it. -/
abbrev Cutting := List Char × List Char

/-! ## Characters -/

def isLetter (c : Char) : Bool := ('A' ≤ c && c ≤ 'Z') || ('a' ≤ c && c ≤ 'z')

def isNameStart (c : Char) : Bool := isLetter c || c = '_' || c = '<' || c = '$'

def isNameChar (c : Char) : Bool :=
  isNameStart c || c.isDigit || c = '.' || c = '>' || c = '\x60' || c = '/' || c = '|' || c = '@'

/-- Separates words, as a comment does. -/
def isSpace (c : Char) : Bool := c = ' ' || c = '\t' || c = '\x0c' || c = '\r' || c = '\n'

/-! ## Recognisers -/

/-- The longest run of characters of a class, if it is not empty. -/
def run? (isMember : Char → Bool) (cs : List Char) : Option Cutting :=
  match cs.takeWhile isMember with
  | [] => none
  | run => some (run, cs.dropWhile isMember)

/-- The given characters in front of a lexeme. -/
def after (start : List Char) (cut : Cutting) : Cutting := (start ++ cut.1, cut.2)

/-- A name: a letter or one of `_<$`, then name characters. -/
def name? : List Char → Option Cutting
  | [] => none
  | c :: rest => if isNameStart c then some (c :: rest.takeWhile isNameChar, rest.dropWhile isNameChar) else none

/-- A label: `IL_`, hexadecimal digits and a colon. -/
def label? : List Char → Option Cutting
  | 'I' :: 'L' :: '_' :: rest =>
    match run? Text.isHex rest with
    | some (digits, ':' :: rest) => some ('I' :: 'L' :: '_' :: (digits ++ [':']), rest)
    | _ => none
  | _ => none

/-- Decimal digits with an optional fraction. -/
def decimal? (cs : List Char) : Option Cutting :=
  match run? Char.isDigit cs with
  | none => none
  | some (digits, '.' :: rest) =>
    match run? Char.isDigit rest with
    | some (fraction, rest) => some (digits ++ '.' :: fraction, rest)
    | none => some (digits, '.' :: rest)
  | some cut => some cut

/-- A number without a sign. `0x` that no hexadecimal digit follows is a zero before something else. -/
def unsigned? : List Char → Option Cutting
  | '0' :: 'x' :: rest =>
    match run? Text.isHex rest with
    | some cut => some (after ['0', 'x'] cut)
    | none => some (['0'], 'x' :: rest)
  | cs => decimal? cs

/-- A number. -/
def number? : List Char → Option Cutting
  | '-' :: rest => (unsigned? rest).map (after ['-'])
  | cs => unsigned? cs

/-- A quoted string from after its first quote on. A backslash takes the next character with it, which is not a line feed. -/
def stringEnd? : List Char → Option Cutting
  | [] => none
  | '"' :: rest => some (['"'], rest)
  | '\\' :: c :: rest => if c = '\n' then none else (stringEnd? rest).map (after ['\\', c])
  | '\\' :: [] => none
  | c :: rest => (stringEnd? rest).map (after [c])

/-- A quoted string. -/
def string? : List Char → Option Cutting
  | '"' :: rest => (stringEnd? rest).map (after ['"'])
  | _ => none

/-- A fixed word or mark. -/
def literal? (text : List Char) (cs : List Char) : Option Cutting :=
  if text.isPrefixOf cs then some (text, cs.drop text.length) else none

/-! ## What is cut off and what is left -/

/-- The cutting splits the text behind a lexeme that is not empty. -/
def Splits (cs : List Char) (cut : Cutting) : Prop := cut.1 ++ cut.2 = cs ∧ cut.1 ≠ []

theorem Splits.length_lt {cs : List Char} {cut : Cutting} (h : Splits cs cut) : cut.2.length < cs.length := by
  obtain ⟨happ, hne⟩ := h
  have hpos : 0 < cut.1.length := List.length_pos_iff.2 hne
  rw [← happ, List.length_append]
  omega

theorem Splits.after {cs start : List Char} {cut : Cutting} (h : Splits cs cut) :
    Splits (start ++ cs) (after start cut) :=
  ⟨by rw [Listing.after, List.append_assoc, h.1], by simp [Listing.after, h.2]⟩

theorem run?_splits {isMember : Char → Bool} {cs : List Char} {cut : Cutting} (h : run? isMember cs = some cut) :
    Splits cs cut := by
  rw [run?] at h
  split at h
  · simp at h
  · next hne =>
    cases h
    exact ⟨List.takeWhile_append_dropWhile, hne⟩

theorem name?_splits {cs : List Char} {cut : Cutting} (h : name? cs = some cut) : Splits cs cut := by
  cases cs with
  | nil => simp [name?] at h
  | cons c rest =>
    rw [name?] at h
    split at h
    · cases h
      exact ⟨by simp [List.takeWhile_append_dropWhile], by simp⟩
    · simp at h

theorem label?_splits {cs : List Char} {cut : Cutting} (h : label? cs = some cut) : Splits cs cut := by
  rw [label?.eq_def] at h
  split at h
  · next rest =>
    split at h
    · next digits rest' hrun =>
      cases h
      exact ⟨by simpa using (run?_splits hrun).1, by simp⟩
    · simp at h
  · simp at h

theorem decimal?_splits {cs : List Char} {cut : Cutting} (h : decimal? cs = some cut) : Splits cs cut := by
  rw [decimal?] at h
  split at h
  · simp at h
  · next digits rest hrun =>
    have hcut := run?_splits hrun
    split at h
    · next fraction rest' hfraction =>
      cases h
      refine ⟨?_, by simp⟩
      rw [← hcut.1, ← (run?_splits hfraction).1]
      simp
    · cases h
      exact hcut
  · next hrun =>
    cases h
    exact run?_splits hrun

theorem unsigned?_splits {cs : List Char} {cut : Cutting} (h : unsigned? cs = some cut) : Splits cs cut := by
  rw [unsigned?.eq_def] at h
  split at h
  · split at h
    · next hrun =>
      cases h
      exact (run?_splits hrun).after
    · cases h
      exact ⟨rfl, by simp⟩
  · exact decimal?_splits h

theorem number?_splits {cs : List Char} {cut : Cutting} (h : number? cs = some cut) : Splits cs cut := by
  rw [number?.eq_def] at h
  split at h
  · obtain ⟨inner, hinner, rfl⟩ := Option.map_eq_some_iff.1 h
    exact (unsigned?_splits hinner).after
  · exact unsigned?_splits h

theorem stringEnd?_splits {cs : List Char} {cut : Cutting} (h : stringEnd? cs = some cut) : Splits cs cut := by
  fun_induction stringEnd? cs generalizing cut with
  | case1 => simp at h
  | case2 rest =>
    cases h
    exact ⟨rfl, by simp⟩
  | case3 => simp at h
  | case4 c rest _ ih =>
    obtain ⟨inner, hinner, rfl⟩ := Option.map_eq_some_iff.1 h
    exact (ih hinner).after
  | case5 => simp at h
  | case6 c rest _ _ _ ih =>
    obtain ⟨inner, hinner, rfl⟩ := Option.map_eq_some_iff.1 h
    exact (ih hinner).after

theorem string?_splits {cs : List Char} {cut : Cutting} (h : string? cs = some cut) : Splits cs cut := by
  rw [string?.eq_def] at h
  split at h
  · obtain ⟨inner, hinner, rfl⟩ := Option.map_eq_some_iff.1 h
    exact (stringEnd?_splits hinner).after
  · simp at h

theorem literal?_splits {text cs : List Char} {cut : Cutting} (hne : text ≠ []) (h : literal? text cs = some cut) :
    Splits cs cut := by
  rw [literal?] at h
  split at h
  · next hstart =>
    cases h
    exact ⟨List.prefix_iff_eq_append.1 (List.isPrefixOf_iff_prefix.1 hstart), hne⟩
  · simp at h

end StubClosure.Listing
