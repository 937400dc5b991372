import StubClosure.Listing.Parse
import StubClosure.Proofs.Listing.Word

/-!
# Sentences

What the machine of the grammar does on words, apart from how words are read: `Accepts` says that it goes through a list of words and comes to an end with types. The reader does the same on the text of the words (`runFrom_of_accepts`). A construct may be over only when the next word is seen, so the rules say what is accepted after it: they turn what is accepted from the state after a construct into what is accepted from the state before it.
-/

namespace StubClosure.Listing

/-! ## The text of words, and places in it -/

/-- The words one after the other, with a blank between any two. -/
def spaced : List Word → List Char
  | [] => []
  | [w] => w.text.toList
  | w :: rest => w.text.toList ++ ' ' :: spaced rest

theorem spaced_cons_cons (w other : Word) (rest : List Word) :
    spaced (w :: other :: rest) = w.text.toList ++ ' ' :: spaced (other :: rest) := rfl

/-- The place after a word and a blank. -/
def Position.past (position : Position) (w : Word) : Position := (position.after w.text.toList).next ' '

/-- The place where the words after the given ones begin. -/
def Position.pastAll (position : Position) (words : List Word) : Position := words.foldl past position

@[simp] theorem pastAll_nil (position : Position) : position.pastAll [] = position := rfl

@[simp] theorem pastAll_cons (position : Position) (w : Word) (rest : List Word) :
    position.pastAll (w :: rest) = (position.past w).pastAll rest := rfl

@[simp] theorem pastAll_append (position : Position) (words more : List Word) :
    position.pastAll (words ++ more) = (position.pastAll words).pastAll more := List.foldl_append

/-! ## Going through words -/

/-- From a state and a place, the machine goes through the words and ends with the types. -/
inductive Accepts : State → Position → List Word → List TypeDecl → Prop where
  | ended {s : State} {position : Position} (h : s.isComplete = true) : Accepts s position [] s.types
  | word {s next : State} {position : Position} {w : Word} {rest : List Word} {types : List TypeDecl}
      (hw : IsWord w) (hf : Fits s.expected w)
      (hs : s.shift { terminal := w.terminal, text := w.text, position } = some next)
      (h : Accepts next (position.past w) rest types) : Accepts s position (w :: rest) types

theorem plain_expected (s : State) : Plain s.expected := by
  have hmode : ∀ isOpen, ∀ mode : Mode, Plain (mode.expected isOpen) := by
    intro isOpen mode
    cases mode <;> cases isOpen <;> simp only [Mode.expected] <;> decide
  exact hmode _ s.mode

theorem read_token {s : State} {terminal : Terminal} {lexeme rest : List Char}
    (h : token? s.expected (lexeme ++ rest) = some (terminal, lexeme, rest)) (position : Position) :
    Cursor.read s.expected { position, rest := lexeme ++ rest } =
      .token { terminal, text := String.ofList lexeme, position } { position := position.after lexeme, rest } := by
  obtain ⟨c, cs, hs, hspace, hslash⟩ := (isWord_of_token? (plain_expected s) h).1.exists_cons
  rw [String.toList_ofList] at hs
  have hskip : Cursor.skip { position, rest := lexeme ++ rest } = { position, rest := lexeme ++ rest } := by
    unfold Cursor.skip
    rw [hs, List.cons_append, skipFrom]
    simp [hspace, hslash]
  have hne : ¬ (lexeme ++ rest).isEmpty = true := by simp [hs]
  unfold Cursor.read
  rw [hskip, Cursor.readHere]
  dsimp only
  rw [if_neg hne, h]

theorem read_word {s : State} {w : Word} (hw : IsWord w) (hf : Fits s.expected w) {rest : List Char}
    (hr : EndsWord rest) (position : Position) :
    Cursor.read s.expected { position, rest := w.text.toList ++ rest } =
      .token { terminal := w.terminal, text := w.text, position }
        { position := position.after w.text.toList, rest } := by
  rw [read_token (token?_word (plain_expected s) hw hf hr), String.ofList_toList]

theorem runFrom_eq (s : State) (last : Position) (c : Cursor) : runFrom s last c =
    match c.read s.expected with
    | .ended => if s.isComplete then .ok s.types else .error ⟨.unexpectedToken, last⟩
    | .misplaced position => .error ⟨.unexpectedToken, position⟩
    | .unreadable position => .error ⟨.unexpectedCharacters, position⟩
    | .token token rest =>
      (s.shift token).elim (.error ⟨.unexpectedToken, token.position⟩) fun next => runFrom next token.position rest := by
  rw [runFrom]
  split
  next h => rw [h]
  next h => rw [h]
  next h => rw [h]
  next token rest h =>
    rw [h]
    dsimp only
    cases s.shift token <;> rfl

theorem runFrom_of_token {s next : State} {last : Position} {c rest : Cursor} {token : Token}
    (h : c.read s.expected = .token token rest) (hs : s.shift token = some next) :
    runFrom s last c = runFrom next token.position rest := by
  rw [runFrom_eq, h]
  dsimp only
  rw [hs]
  rfl

theorem runFrom_of_ended {s : State} (hs : s.isComplete = true) (last position : Position) :
    runFrom s last { position, rest := [] } = .ok s.types := by
  rw [runFrom_eq, show Cursor.read s.expected { position, rest := [] } = .ended from rfl]
  exact if_pos hs

theorem runFrom_congr {s : State} {last : Position} {c other : Cursor} (h : c.skip = other.skip) :
    runFrom s last c = runFrom s last other := by
  rw [runFrom_eq, runFrom_eq s last other]
  unfold Cursor.read
  rw [h]

theorem runFrom_blank (s : State) (last position : Position) (rest : List Char) :
    runFrom s last { position, rest := ' ' :: rest } = runFrom s last { position := position.next ' ', rest } :=
  runFrom_congr rfl

/-- **The reader does on the text what the machine does on the words.** -/
theorem runFrom_of_accepts {s : State} {position : Position} {words : List Word} {types : List TypeDecl}
    (h : Accepts s position words types) (last : Position) :
    runFrom s last { position, rest := spaced words } = .ok types := by
  induction h generalizing last with
  | ended h => exact runFrom_of_ended h last _
  | @word s next position w rest types hw hf hs h ih =>
    cases rest with
    | nil =>
      have hread := read_word hw hf (.inl rfl) position
      rw [List.append_nil] at hread
      cases h with
      | ended h =>
        rw [spaced, runFrom_of_token hread hs]
        exact runFrom_of_ended h _ _
    | cons other rest =>
      rw [spaced_cons_cons, runFrom_of_token (read_word hw hf (.inr ⟨' ', _, rfl, rfl⟩) position) hs, runFrom_blank]
      exact ih position

end StubClosure.Listing
