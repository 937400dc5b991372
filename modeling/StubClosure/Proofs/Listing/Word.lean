import StubClosure.Listing.Grammar
import StubClosure.Proofs.Listing.Lexeme

/-!
# Words

A sentence of the grammar is a list of words. The reader looks for what is expected at a place and for nothing else, so a word is read as itself (`token?_append`) if its terminal is expected, if no fixed word of its spelling is where it looks like a name, and if what comes after it does not belong to it as well: `EndsBefore` says when. A blank ends every word (`token?_word`). Conversely every token is such a word (`isWord_of_token?`), so changes further on, or of blanks and comments, do not touch it (`token?_swap`).
-/

namespace StubClosure.Listing

/-! ## The words of a sentence -/

/-- A word as it is written, and the terminal that it is to be read as. -/
structure Word where
  terminal : Terminal
  text : String
  deriving DecidableEq, Repr

/-- The recogniser takes the text as a whole. -/
def IsWhole (cut? : List Char → Option Cutting) (text : String) : Prop := cut? text.toList = some (text.toList, [])

instance (cut? : List Char → Option Cutting) (text : String) : Decidable (IsWhole cut? text) :=
  inferInstanceAs (Decidable (cut? text.toList = some (text.toList, [])))

def IsName (text : String) : Prop := IsWhole name? text

instance (text : String) : Decidable (IsName text) := inferInstanceAs (Decidable (IsWhole name? text))

/-- The words that the grammar itself holds. -/
def fixedWords : List String := marks ++ ["extends", "implements"] ++ modifiers

/-- The text of a word belongs to its terminal. -/
inductive IsWord : Word → Prop where
  | name {text : String} (h : IsName text) : IsWord ⟨.name, text⟩
  | label {text : String} (h : IsWhole label? text) : IsWord ⟨.label, text⟩
  | number {text : String} (h : IsWhole number? text) : IsWord ⟨.number, text⟩
  | string {text : String} (h : IsWhole string? text) : IsWord ⟨.string, text⟩
  | constructorName {text : String} (h : text ∈ [".ctor", ".cctor"]) : IsWord ⟨.constructorName, text⟩
  | fixed {text : String} (h : text ∈ fixedWords) : IsWord ⟨.literal text, text⟩

/-- The word can come where the terminals are expected. A name that is one of the expected words would be read as that word. -/
def Fits (expected : List Terminal) (w : Word) : Prop :=
  w.terminal ∈ expected ∧ (w.terminal = .name → .literal w.text ∉ expected)

theorem fits_of_mem {expected : List Terminal} {terminal : Terminal} (h : terminal ∈ expected) (hn : terminal ≠ .name)
    (text : String) : Fits expected ⟨terminal, text⟩ := ⟨h, fun he => absurd he hn⟩

/-! ## What the recognisers make of words -/

theorem isName_iff {text : String} : IsName text ↔
    (∃ c ∈ text.toList.head?, isNameStart c = true) ∧ ∀ c ∈ text.toList, isNameChar c = true := by
  unfold IsName IsWhole
  rw [name?_eq_some_iff]
  constructor
  · rintro ⟨-, hhead, hall, -⟩
    exact ⟨hhead, hall⟩
  · rintro ⟨hhead, hall⟩
    exact ⟨(List.append_nil _).symm, hhead, hall, fun _ hc => nomatch hc⟩

theorem exists_of_isName {text : String} (h : IsName text) :
    ∃ c cs, text.toList = c :: cs ∧ isNameStart c = true ∧ ∀ d ∈ text.toList, isNameChar d = true := by
  obtain ⟨⟨c, hhead, hc⟩, hall⟩ := isName_iff.1 h
  cases hs : text.toList with
  | nil =>
    rw [hs] at hhead
    cases hhead
  | cons d ds =>
    rw [hs] at hhead
    obtain rfl := Option.some.inj hhead
    exact ⟨d, ds, rfl, hc, hs ▸ hall⟩

theorem label?_of_head {c : Char} (hc : c ≠ 'I') (cs : List Char) : label? (c :: cs) = none := by
  rw [label?.eq_def]
  simp [hc]

theorem number?_of_head {c : Char} (hd : c.isDigit = false) (hm : c ≠ '-') (cs : List Char) :
    number? (c :: cs) = none := by
  have hzero : c ≠ '0' := by
    rintro rfl
    cases hd
  have hunsigned : unsigned? (c :: cs) = none := by
    rw [unsigned?.eq_def]
    simp [hzero, decimal?, run?, hd]
  rw [number?.eq_def]
  simp [hm, hunsigned]

theorem name?_of_head {c : Char} (hc : isNameStart c = false) (cs : List Char) : name? (c :: cs) = none := by
  simp [name?, hc]

theorem string?_of_head {c : Char} (hc : c ≠ '"') (cs : List Char) : string? (c :: cs) = none := by
  rw [string?.eq_def]
  simp [hc]

theorem isNameStart_of_isDigit {c : Char} (h : c.isDigit = true) : isNameStart c = false := by
  have hc : 48 ≤ c.toNat ∧ c.toNat ≤ 57 := by
    simpa [Char.isDigit, UInt32.le_iff_toNat_le] using h
  have hletter : isLetter c = false := by
    simp only [isLetter, Char.le_def, UInt32.le_iff_toNat_le, Bool.or_eq_false_iff, Bool.and_eq_false_iff,
      decide_eq_false_iff_not]
    constructor
    · left
      show ¬ 65 ≤ c.toNat
      omega
    · left
      show ¬ 97 ≤ c.toNat
      omega
  have hmark : c ≠ '_' ∧ c ≠ '<' ∧ c ≠ '$' := by
    refine ⟨?_, ?_, ?_⟩ <;> rintro rfl <;> revert hc <;> decide
  simp [isNameStart, hletter, hmark]

theorem number?_of_isName {text : String} (h : IsName text) (rest : List Char) : number? (text.toList ++ rest) = none := by
  obtain ⟨c, cs, htext, hc, -⟩ := exists_of_isName h
  rw [htext]
  refine number?_of_head ?_ ?_ _
  · by_contra hd
    rw [isNameStart_of_isDigit (by simpa using hd)] at hc
    cases hc
  · rintro rfl
    cases hc

theorem lexemes_of_number {text : String} (h : IsWhole number? text) (rest : List Char) :
    label? (text.toList ++ rest) = none ∧ name? (text.toList ++ rest) = none := by
  have hnumber := isNumber_of_number? h
  obtain ⟨c, cs, hs, hc⟩ : ∃ c cs, text.toList = c :: cs ∧ (c.isDigit = true ∨ c = '-') := by
    generalize text.toList = w at hnumber
    cases hnumber with
    | plain h =>
      obtain ⟨c, cs, hw, hc⟩ := h.exists_cons
      exact ⟨c, cs, hw, .inl hc⟩
    | negative => exact ⟨'-', _, rfl, .inr rfl⟩
  rw [hs]
  refine ⟨label?_of_head ?_ _, name?_of_head ?_ _⟩
  · rintro rfl
    rcases hc with hc | hc <;> cases hc
  · rcases hc with hc | rfl
    · exact isNameStart_of_isDigit hc
    · rfl

theorem isNameChar_of_isHex {c : Char} (h : Text.isHex c = true) : isNameChar c = true := by
  simp only [Text.isHex, Bool.or_eq_true, Bool.and_eq_true, decide_eq_true_eq] at h
  have hletter : ∀ low high : Char, low ≤ c → c ≤ high → (low = 'a' ∧ high = 'f' ∨ low = 'A' ∧ high = 'F') → isLetter c = true := by
    rintro low high hlow hhigh (⟨rfl, rfl⟩ | ⟨rfl, rfl⟩)
    · have hz : c ≤ 'z' := Char.le_trans hhigh (by decide)
      simp [isLetter, hlow, hz]
    · have hz : c ≤ 'Z' := Char.le_trans hhigh (by decide)
      simp [isLetter, hlow, hz]
  rcases h with (h | ⟨hlow, hhigh⟩) | ⟨hlow, hhigh⟩
  · simp [isNameChar, h]
  · simp [isNameChar, isNameStart, hletter _ _ hlow hhigh (.inl ⟨rfl, rfl⟩)]
  · simp [isNameChar, isNameStart, hletter _ _ hlow hhigh (.inr ⟨rfl, rfl⟩)]

/-- The name makes a label together with a colon. -/
def BeginsLabel (text : String) : Prop :=
  ∃ digits, IsRun Text.isHex digits ∧ text.toList = 'I' :: 'L' :: '_' :: digits

theorem beginsLabel_iff {text : String} :
    BeginsLabel text ↔ text.toList.take 3 = ['I', 'L', '_'] ∧ IsRun Text.isHex (text.toList.drop 3) := by
  constructor
  · rintro ⟨digits, hdigits, htext⟩
    rw [htext]
    exact ⟨rfl, hdigits⟩
  · rintro ⟨hstart, hdigits⟩
    exact ⟨_, hdigits, by rw [← List.take_append_drop 3 text.toList, hstart]; rfl⟩

instance (text : String) : Decidable (BeginsLabel text) := decidable_of_iff' _ beginsLabel_iff

/-- A name is taken for the beginning of a label only in front of a colon. -/
theorem label?_of_isName {text : String} (h : IsName text) {rest : List Char} (hl : Leaves isNameChar rest) :
    label? (text.toList ++ rest) = none ∨ BeginsLabel text ∧ rest.head? = some ':' := by
  obtain ⟨-, hall⟩ := isName_iff.1 h
  cases hlabel : label? (text.toList ++ rest) with
  | none => exact .inl rfl
  | some cut =>
    right
    rw [label?.eq_def] at hlabel
    split at hlabel
    next left hleft =>
      split at hlabel
      next digits more hrun =>
        obtain ⟨rfl, hdigits, -⟩ := run?_eq_some_iff.1 hrun
        rcases List.append_eq_append_iff.1 (show text.toList ++ rest = ('I' :: 'L' :: '_' :: digits) ++ ':' :: more from hleft) with
          ⟨others, hothers, hrest⟩ | ⟨others, hothers, hmore⟩
        · cases others with
          | nil => exact ⟨⟨digits, hdigits, by simpa using hothers.symm⟩, by rw [hrest]; rfl⟩
          | cons d ds =>
            have hd : isNameChar d = false := hl d (by simp [hrest])
            have hmem : d ∈ 'I' :: 'L' :: '_' :: digits := by simp [hothers]
            have hchar : isNameChar d = true := by
              simp only [List.mem_cons] at hmem
              rcases hmem with rfl | rfl | rfl | hmem
              · decide
              · decide
              · decide
              · exact isNameChar_of_isHex (hdigits.2 d hmem)
            rw [hd] at hchar
            cases hchar
        · cases others with
          | nil => exact ⟨⟨digits, hdigits, by simpa using hothers⟩, by rw [← List.nil_append rest, ← hmore]; rfl⟩
          | cons d ds =>
            obtain rfl := (List.cons.inj hmore).1
            exact absurd (hall ':' (by simp [hothers])) (by decide)
      · cases hlabel
    · cases hlabel

theorem BeginsLabel.label?_ne_none {text : String} (h : BeginsLabel text) (more : List Char) :
    label? (text.toList ++ ':' :: more) ≠ none := by
  obtain ⟨digits, hdigits, htext⟩ := h
  have hrun : run? Text.isHex (digits ++ ':' :: more) = some (digits, ':' :: more) :=
    run?_append_iff.2 ⟨hdigits, leaves_cons.2 (by decide)⟩
  rw [htext]
  simp [label?, hrun]

theorem exists_of_string {text : String} (h : IsWhole string? text) : ∃ cs, text.toList = '"' :: cs := by
  unfold IsWhole at h
  cases hs : text.toList with
  | nil =>
    rw [hs] at h
    cases h
  | cons c cs =>
    refine ⟨cs, ?_⟩
    by_contra hc
    rw [hs, string?_of_head (fun he => hc (he ▸ rfl))] at h
    cases h

theorem lexemes_of_string {text : String} (h : IsWhole string? text) (rest : List Char) :
    label? (text.toList ++ rest) = none ∧ number? (text.toList ++ rest) = none ∧ name? (text.toList ++ rest) = none := by
  obtain ⟨cs, hs⟩ := exists_of_string h
  rw [hs]
  exact ⟨rfl, rfl, rfl⟩

theorem lexemes_of_constructorName {text : String} (h : text ∈ [".ctor", ".cctor"]) (rest : List Char) :
    label? (text.toList ++ rest) = none ∧ number? (text.toList ++ rest) = none ∧ name? (text.toList ++ rest) = none ∧
      string? (text.toList ++ rest) = none := by
  simp only [List.mem_cons, List.not_mem_nil, or_false] at h
  rcases h with rfl | rfl
  · exact ⟨rfl, rfl, rfl, rfl⟩
  · exact ⟨rfl, rfl, rfl, rfl⟩

theorem constructorName?_append {text : String} (h : text ∈ [".ctor", ".cctor"]) (rest : List Char) :
    constructorName? (text.toList ++ rest) = some (text.toList, rest) := by
  simp only [List.mem_cons, List.not_mem_nil, or_false] at h
  rcases h with rfl | rfl
  · rfl
  · rfl

/-- A fixed word looks like a name or is a mark, and a mark begins like no lexeme. -/
theorem isName_or_mem_marks {text : String} (h : text ∈ fixedWords) : IsName text ∨ text ∈ marks := by
  revert text
  decide

theorem exists_of_mem_marks {text : String} (h : text ∈ marks) : ∃ c cs, text.toList = c :: cs ∧
    isNameStart c = false ∧ c.isDigit = false ∧ isSpace c = false ∧ c ∉ ['-', 'I', '"', '/'] := by
  have hall : ∀ text ∈ marks, text.toList.head?.any (fun c =>
      !isNameStart c && !c.isDigit && !isSpace c && decide (c ∉ ['-', 'I', '"', '/'])) = true := by
    decide
  have hhead := hall text h
  cases hs : text.toList with
  | nil => simp [hs] at hhead
  | cons c cs => exact ⟨c, cs, rfl, by simpa [hs, and_assoc] using hhead⟩

theorem lexemes_of_mark {text : String} (h : text ∈ marks) (rest : List Char) :
    label? (text.toList ++ rest) = none ∧ number? (text.toList ++ rest) = none ∧ name? (text.toList ++ rest) = none ∧
      string? (text.toList ++ rest) = none := by
  obtain ⟨c, cs, hs, hname, hdigit, -, hnot⟩ := exists_of_mem_marks h
  simp only [List.mem_cons, List.not_mem_nil, or_false, not_or] at hnot
  rw [hs]
  exact ⟨label?_of_head hnot.2.1 _, number?_of_head hdigit hnot.1 _, name?_of_head hname _, string?_of_head hnot.2.2.1 _⟩

theorem IsWord.exists_cons {w : Word} (hw : IsWord w) :
    ∃ c cs, w.text.toList = c :: cs ∧ isSpace c = false ∧ c ≠ '/' := by
  have hstart : ∀ cut? : List Char → Option Cutting, cut? [] = none →
      (∀ c cs, isSpace c = true ∨ c = '/' → cut? (c :: cs) = none) → ∀ text, IsWhole cut? text →
        ∃ c cs, text.toList = c :: cs ∧ isSpace c = false ∧ c ≠ '/' := by
    intro cut? hnil hblank text h
    unfold IsWhole at h
    cases hs : text.toList with
    | nil =>
      rw [hs, hnil] at h
      cases h
    | cons c cs =>
      refine ⟨c, cs, rfl, ?_⟩
      have hnot : ¬ (isSpace c = true ∨ c = '/') := by
        intro hc
        rw [hs, hblank c cs hc] at h
        cases h
      simpa using hnot
  cases hw with
  | label h => exact hstart label? rfl (fun c cs hc => (lexemes_of_blank hc cs).1) _ h
  | number h => exact hstart number? rfl (fun c cs hc => (lexemes_of_blank hc cs).2.1) _ h
  | name h => exact hstart name? rfl (fun c cs hc => (lexemes_of_blank hc cs).2.2.1) _ h
  | string h => exact hstart string? rfl (fun c cs hc => (lexemes_of_blank hc cs).2.2.2) _ h
  | constructorName h =>
    simp only [List.mem_cons, List.not_mem_nil, or_false] at h
    rcases h with rfl | rfl
    · exact ⟨_, _, rfl, by decide, by decide⟩
    · exact ⟨_, _, rfl, by decide, by decide⟩
  | fixed h =>
    rcases isName_or_mem_marks h with hn | hm
    · exact hstart name? rfl (fun c cs hc => (lexemes_of_blank hc cs).2.2.1) _ hn
    · obtain ⟨c, cs, hs, -, -, hc, hnot⟩ := exists_of_mem_marks hm
      simp only [List.mem_cons, List.not_mem_nil, or_false, not_or] at hnot
      exact ⟨c, cs, hs, hc, hnot.2.2.2⟩

/-! ## Fixed words where they are expected -/

/-- The text of a literal. -/
def Terminal.fixed? : Terminal → Option String
  | .literal text => some text
  | _ => none

/-- The literals among the terminals are words of the grammar, and no names of constructors come with them. -/
def Plain (expected : List Terminal) : Prop :=
  ∀ terminal ∈ expected, ∀ text ∈ terminal.fixed?, text ∈ fixedWords ∧ .constructorName ∉ expected

instance (expected : List Terminal) : Decidable (Plain expected) :=
  inferInstanceAs (Decidable (∀ terminal ∈ expected, ∀ text ∈ terminal.fixed?, text ∈ fixedWords ∧ _ ∉ expected))

theorem Plain.of_literal {expected : List Terminal} (hE : Plain expected) {text : String}
    (h : .literal text ∈ expected) : text ∈ fixedWords ∧ .constructorName ∉ expected :=
  hE _ h text rfl

/-- No word of the grammar is the beginning of another. -/
theorem eq_of_isPrefix {text other : String} (ht : text ∈ fixedWords) (ho : other ∈ fixedWords)
    (h : other.toList <+: text.toList) : other = text := by
  have hall : ∀ text ∈ fixedWords, ∀ other ∈ fixedWords, other.toList.isPrefixOf text.toList = true → other = text := by
    decide
  exact hall text ht other ho (List.isPrefixOf_iff_prefix.2 h)

theorem eq_of_prefix_append {text other : String} (ht : text ∈ fixedWords) (ho : other ∈ fixedWords)
    {rest : List Char} (h : other.toList <+: text.toList ++ rest) : other = text := by
  rcases List.prefix_or_prefix_of_prefix h (List.prefix_append text.toList rest) with hp | hp
  · exact eq_of_isPrefix ht ho hp
  · exact (eq_of_isPrefix ho ht hp).symm

theorem findSome?_eq {α β : Type} {f : α → Option β} {items : List α} {b : β} (h : ∀ a ∈ items, f a = none ∨ f a = some b)
    (hb : ∃ a ∈ items, f a = some b) : items.findSome? f = some b := by
  induction items with
  | nil =>
    obtain ⟨a, ha, -⟩ := hb
    cases ha
  | cons first rest ih =>
    rw [List.findSome?_cons]
    rcases h first List.mem_cons_self with hn | hs
    · rw [hn]
      refine ih (fun a ha => h a (List.mem_cons_of_mem _ ha)) ?_
      obtain ⟨a, ha, hfa⟩ := hb
      rcases List.mem_cons.1 ha with rfl | ha
      · rw [hn] at hfa
        cases hfa
      · exact ⟨a, ha, hfa⟩
    · rw [hs]

theorem literalToken?_fixed {expected : List Terminal} {text : String} (hE : Plain expected)
    (ht : .literal text ∈ expected) (rest : List Char) :
    literalToken? expected (text.toList ++ rest) = some (.literal text, text.toList, rest) := by
  have hself : literal? text.toList (text.toList ++ rest) = some (text.toList, rest) := by
    rw [literal?, if_pos (List.isPrefixOf_iff_prefix.2 (List.prefix_append _ _)), List.drop_left]
  have hne : ∀ word ∈ fixedWords, word ≠ "" := by decide
  refine findSome?_eq ?_ ⟨.literal text, ht, ?_⟩
  · intro terminal hmem
    cases terminal with
    | literal other =>
      dsimp only
      rw [if_neg (hne other (hE.of_literal hmem).1)]
      by_cases hp : other.toList <+: text.toList ++ rest
      · obtain rfl := eq_of_prefix_append (hE.of_literal ht).1 (hE.of_literal hmem).1 hp
        right
        rw [hself]
        rfl
      · left
        rw [literal?, if_neg (mt List.isPrefixOf_iff_prefix.1 hp)]
        rfl
    | label | number | name | string | constructorName => exact .inl rfl
  · dsimp only
    rw [if_neg (hne text (hE.of_literal ht).1), hself]
    rfl

/-! ## Words are read as themselves -/

theorem classToken?_some {expected : List Terminal} {terminal : Terminal} (h : terminal ∈ expected) (cut : Cutting) :
    classToken? expected terminal (some cut) = some (terminal, cut) := by
  rw [classToken?, if_pos h]
  rfl

@[simp] theorem classToken?_none (expected : List Terminal) (terminal : Terminal) :
    classToken? expected terminal none = none := by
  unfold classToken?
  split <;> rfl

theorem classToken?_of_not_mem {expected : List Terminal} {terminal : Terminal} (h : terminal ∉ expected)
    (cut? : Option Cutting) : classToken? expected terminal cut? = none := if_neg h

/-- What comes after a word is no part of it: no character of a name comes after a name, no more of a number after a number, and no colon after a name that it makes a label, where labels are expected. -/
def EndsBefore (expected : List Terminal) (w : Word) (rest : List Char) : Prop :=
  match w.terminal with
  | .name => Leaves isNameChar rest ∧ (.label ∈ expected → ¬ (BeginsLabel w.text ∧ rest.head? = some ':'))
  | .number => IsNumber rest w.text.toList
  | .literal _ => .name ∈ expected → IsName w.text → Leaves isNameChar rest
  | .label | .string | .constructorName => True

/-- A word that fits is read as itself. -/
theorem token?_append {expected : List Terminal} (hE : Plain expected) {w : Word} (hw : IsWord w)
    (hf : Fits expected w) {rest : List Char} (he : EndsBefore expected w rest) :
    token? expected (w.text.toList ++ rest) = some (w.terminal, w.text.toList, rest) := by
  obtain ⟨hmem, hname⟩ := hf
  have hlong : ∀ {text : String}, IsName text → Leaves isNameChar rest →
      name? (text.toList ++ rest) = some (text.toList, rest) := by
    intro text hn hl
    obtain ⟨hhead, hall⟩ := isName_iff.1 hn
    exact name?_eq_some_iff.2 ⟨rfl, hhead, hall, hl⟩
  unfold token? nameToken?
  cases hw with
  | @label text h =>
    rw [label?_append h rest, classToken?_some hmem]
    rfl
  | @number text h =>
    rw [(lexemes_of_number h rest).1, IsNumber.number?_append he, classToken?_some hmem]
    simp
  | @name text h =>
    obtain ⟨hleaves, hcolon⟩ := he
    have hlabel : classToken? expected .label (label? (text.toList ++ rest)) = none := by
      by_cases hl : .label ∈ expected
      · rw [(label?_of_isName h hleaves).resolve_right (hcolon hl), classToken?_none]
      · exact classToken?_of_not_mem hl _
    have hnot := hname rfl
    rw [hlabel, number?_of_isName h rest, hlong h hleaves, classToken?_some hmem]
    simp [hnot]
  | @string text h =>
    obtain ⟨hl, hnum, hn⟩ := lexemes_of_string h rest
    rw [hl, hnum, hn, string?_append h rest, classToken?_some hmem]
    simp
  | @constructorName text h =>
    obtain ⟨hl, hnum, hn, hstring⟩ := lexemes_of_constructorName h rest
    rw [hl, hnum, hn, hstring, constructorName?_append h rest, classToken?_some hmem]
    simp
  | @fixed text h =>
    have hliteral := literalToken?_fixed hE hmem rest
    have hctor := classToken?_of_not_mem (hE.of_literal hmem).2 (constructorName? (text.toList ++ rest))
    rcases isName_or_mem_marks h with hn | hmark
    · obtain ⟨c, cs, hs, hc, -⟩ := exists_of_isName hn
      have hstring : string? (text.toList ++ rest) = none := by
        rw [hs]
        exact string?_of_head (by rintro rfl; cases hc) _
      have hlabel : label? (text.toList ++ rest) = none := by
        have hfirst : ∀ word ∈ fixedWords, word.toList.head? ≠ some 'I' := by decide
        rw [hs]
        refine label?_of_head ?_ _
        rintro rfl
        exact hfirst text h (by rw [hs]; rfl)
      rw [hlabel, number?_of_isName hn rest, hstring, hctor, hliteral]
      by_cases hname : .name ∈ expected
      · rw [hlong hn (he hname hn), classToken?_some hname]
        simp [hmem]
      · simp [classToken?_of_not_mem hname]
    · obtain ⟨hl, hnum, hname, hstring⟩ := lexemes_of_mark hmark rest
      rw [hl, hnum, hname, hstring, hctor, hliteral]
      simp

theorem endsBefore_of_endsWord {w : Word} (hw : IsWord w) {rest : List Char} (hr : EndsWord rest) (expected : List Terminal) :
    EndsBefore expected w rest := by
  cases hw with
  | number h =>
    have hnumber := isNumber_of_number? h
    exact @IsNumber.swap _ [] _ _ hnumber hr.parts
  | name h =>
    refine ⟨hr.leaves, ?_⟩
    rintro - ⟨-, hcolon⟩
    rcases hr.parts ':' hcolon with hc | hc <;> cases hc
  | fixed h => exact fun _ _ => hr.leaves
  | label | string | constructorName => trivial

theorem token?_word {expected : List Terminal} (hE : Plain expected) {w : Word} (hw : IsWord w)
    (hf : Fits expected w) {rest : List Char} (hr : EndsWord rest) :
    token? expected (w.text.toList ++ rest) = some (w.terminal, w.text.toList, rest) :=
  token?_append hE hw hf (endsBefore_of_endsWord hw hr expected)

/-! ## Tokens are words -/

theorem exists_of_classToken? {expected : List Terminal} {terminal found : Terminal} {cut? : Option Cutting} {cut : Cutting}
    (h : classToken? expected terminal cut? = some (found, cut)) :
    terminal ∈ expected ∧ found = terminal ∧ cut? = some cut := by
  unfold classToken? at h
  split at h
  next hmem =>
    obtain ⟨inner, hinner, heq⟩ := Option.map_eq_some_iff.1 h
    obtain ⟨rfl, rfl⟩ := Prod.mk.inj heq
    exact ⟨hmem, rfl, hinner⟩
  · cases h

theorem exists_of_literal? {text cs : List Char} {cut : Cutting} (h : literal? text cs = some cut) :
    cs = text ++ cut.2 ∧ cut.1 = text := by
  unfold literal? at h
  split at h
  next hp =>
    obtain rfl := Option.some.inj h
    obtain ⟨rest, rfl⟩ := List.isPrefixOf_iff_prefix.1 hp
    exact ⟨by rw [List.drop_left], rfl⟩
  · cases h

theorem isWhole_ofList {cut? : List Char → Option Cutting} {lexeme : List Char} (h : cut? lexeme = some (lexeme, [])) :
    IsWhole cut? (String.ofList lexeme) := by
  unfold IsWhole
  rw [String.toList_ofList, h]

section
variable {expected : List Terminal} (hE : Plain expected) {terminal : Terminal} {lexeme rest : List Char}
include hE

/-- A name that makes a label with the colon after it would have been read as a label. -/
theorem isWord_of_nameToken? (hlabel : classToken? expected .label (label? (lexeme ++ rest)) = none)
    (h : nameToken? expected (lexeme ++ rest) = some (terminal, lexeme, rest)) :
    IsWord ⟨terminal, String.ofList lexeme⟩ ∧ Fits expected ⟨terminal, String.ofList lexeme⟩ ∧
      EndsBefore expected ⟨terminal, String.ofList lexeme⟩ rest := by
  obtain ⟨⟨found, cut⟩, hclass, heq⟩ := Option.map_eq_some_iff.1 h
  obtain ⟨hmem, rfl, hcut⟩ := exists_of_classToken? hclass
  obtain ⟨hterminal, rfl⟩ := Prod.mk.inj heq
  obtain ⟨-, hhead, hall, hleaves⟩ := name?_eq_some_iff.1 hcut
  dsimp only at hterminal
  split at hterminal
  next hliteral =>
    subst hterminal
    exact ⟨.fixed (hE.of_literal hliteral).1, fits_of_mem hliteral (by simp) _, fun _ _ => hleaves⟩
  next hliteral =>
    subst hterminal
    have hn : IsName (String.ofList lexeme) := by
      rw [isName_iff, String.toList_ofList]
      exact ⟨hhead, hall⟩
    refine ⟨.name hn, ⟨hmem, fun _ => hliteral⟩, hleaves, ?_⟩
    rintro hl ⟨hbegins, hcolon⟩
    cases rest with
    | nil => cases hcolon
    | cons c more =>
      obtain rfl := Option.some.inj hcolon
      have hlong := hbegins.label?_ne_none more
      rw [String.toList_ofList] at hlong
      cases hcl : label? (lexeme ++ ':' :: more) with
      | none => exact hlong hcl
      | some found =>
        rw [hcl, classToken?_some hl] at hlabel
        cases hlabel

theorem isWord_of_literalToken? (hname : nameToken? expected (lexeme ++ rest) = none)
    (h : literalToken? expected (lexeme ++ rest) = some (terminal, lexeme, rest)) :
    IsWord ⟨terminal, String.ofList lexeme⟩ ∧ Fits expected ⟨terminal, String.ofList lexeme⟩ ∧
      EndsBefore expected ⟨terminal, String.ofList lexeme⟩ rest := by
  obtain ⟨found, hmem, hfound⟩ := List.exists_of_findSome?_eq_some h
  cases found with
  | literal text =>
    dsimp only at hfound
    split at hfound
    · cases hfound
    · obtain ⟨cut, hcut, heq⟩ := Option.map_eq_some_iff.1 hfound
      obtain ⟨rfl, rfl⟩ := Prod.mk.inj heq
      obtain rfl : lexeme = text.toList := (exists_of_literal? hcut).2
      rw [String.ofList_toList]
      refine ⟨.fixed (hE.of_literal hmem).1, fits_of_mem hmem (by simp) _, ?_⟩
      intro hexpected hn
      obtain ⟨c, more, htext, hc, -⟩ := exists_of_isName hn
      have hread : nameToken? expected (text.toList ++ rest) ≠ none := by
        rw [htext, List.cons_append]
        simp [nameToken?, name?, hc, classToken?_some hexpected]
      exact absurd hname hread
  | label | number | name | string | constructorName => cases hfound

/-- **A token is a word that fits** and ends where it ends. -/
theorem isWord_of_token? {cs : List Char} (h : token? expected cs = some (terminal, lexeme, rest)) :
    IsWord ⟨terminal, String.ofList lexeme⟩ ∧ Fits expected ⟨terminal, String.ofList lexeme⟩ ∧
      EndsBefore expected ⟨terminal, String.ofList lexeme⟩ rest := by
  obtain rfl : lexeme ++ rest = cs := (token?_splits h).1
  simp only [token?, Option.or_eq_some_iff] at h
  rcases h with h | ⟨hlabel, h | ⟨-, h | ⟨hname, h | ⟨-, h | ⟨-, h⟩⟩⟩⟩⟩
  · obtain ⟨hmem, rfl, hcut⟩ := exists_of_classToken? h
    have hself := label?_append hcut []
    rw [List.append_nil] at hself
    exact ⟨.label (isWhole_ofList hself), fits_of_mem hmem (by simp) _, trivial⟩
  · obtain ⟨hmem, rfl, hcut⟩ := exists_of_classToken? h
    have hnumber := isNumber_of_number? hcut
    have hself : number? (lexeme ++ []) = some (lexeme, []) :=
      (@IsNumber.swap _ [] _ [] hnumber (EndsWord.parts (.inl rfl))).number?_append
    rw [List.append_nil] at hself
    refine ⟨.number (isWhole_ofList hself), fits_of_mem hmem (by simp) _, ?_⟩
    show IsNumber rest (String.ofList lexeme).toList
    rw [String.toList_ofList]
    exact hnumber
  · exact isWord_of_nameToken? hE hlabel h
  · obtain ⟨hmem, rfl, hcut⟩ := exists_of_classToken? h
    have hself := string?_append hcut []
    rw [List.append_nil] at hself
    exact ⟨.string (isWhole_ofList hself), fits_of_mem hmem (by simp) _, trivial⟩
  · obtain ⟨hmem, rfl, hcut⟩ := exists_of_classToken? h
    refine ⟨.constructorName ?_, fits_of_mem hmem (by simp) _, trivial⟩
    rw [constructorName?, Option.or_eq_some_iff] at hcut
    rcases hcut with hcut | ⟨-, hcut⟩
    · obtain rfl : lexeme = _ := (exists_of_literal? hcut).2
      decide
    · obtain rfl : lexeme = _ := (exists_of_literal? hcut).2
      decide
  · exact isWord_of_literalToken? hE hname h

end

/-- What is changed behind a word, beyond what comes next or by blanks and comments, does not change where the word ends. A comment may not come right behind a name. -/
theorem EndsBefore.swap {expected : List Terminal} {w : Word} (hw : IsWord w) (hf : Fits expected w)
    {before after rest : List Char} (h : EndsBefore expected w (before ++ after)) (hr : Parts rest)
    (hname : before = [] → .name ∈ expected → IsName w.text → Leaves isNameChar rest) :
    EndsBefore expected w (before ++ rest) := by
  have hleaves : Leaves isNameChar (before ++ after) → .name ∈ expected → IsName w.text →
      Leaves isNameChar (before ++ rest) := by
    intro hl hexpected hn
    cases before with
    | nil => exact hname rfl hexpected hn
    | cons c cs => exact hl
  cases hw with
  | number => exact IsNumber.swap h hr
  | name hn =>
    refine ⟨hleaves h.1 hf.1 hn, ?_⟩
    rintro hl ⟨hbegins, hcolon⟩
    cases before with
    | nil => rcases hr ':' hcolon with hc | hc <;> cases hc
    | cons c cs => exact h.2 hl ⟨hbegins, hcolon⟩
  | fixed => exact fun hexpected hn => hleaves (h hexpected hn) hexpected hn
  | label | string | constructorName => trivial

/-- **Changes behind a token** leave it the token that it is. -/
theorem token?_swap {expected : List Terminal} (hE : Plain expected) {terminal : Terminal}
    {lexeme before after rest : List Char}
    (h : token? expected (lexeme ++ (before ++ after)) = some (terminal, lexeme, before ++ after)) (hr : Parts rest)
    (hname : before = [] → .name ∈ expected → IsName (String.ofList lexeme) → Leaves isNameChar rest) :
    token? expected (lexeme ++ (before ++ rest)) = some (terminal, lexeme, before ++ rest) := by
  obtain ⟨hw, hf, he⟩ := isWord_of_token? hE h
  have htoken := token?_append hE hw hf (he.swap hw hf hr hname)
  rwa [String.toList_ofList] at htoken

end StubClosure.Listing
