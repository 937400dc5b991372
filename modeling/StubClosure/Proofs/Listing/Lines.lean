import Mathlib.Data.List.Chain
import StubClosure.Proofs.Listing.Accepted
import StubClosure.Proofs.Listing.Gap

/-!
# Listings in lines

The words of a listing need fewer blanks than are between them in its `text`. A text spells words if these come in it one after the other, with blanks between any two that would run into each other, and the reader does on such a text what the machine does on the words (`exists_runFrom_of_spells`). So a listing can be written in lines, with no blanks around colons, parentheses and commas (`exists_parse_lines`). There is one thing to look out for, names before colons: `IL_0` is a label together with a colon.
-/

namespace StubClosure.Listing

open Word

/-! ## Words with blanks between them -/

/-- The text is made of the words and of blanks, and every word ends where the next begins. -/
inductive Spells : List Char → List Word → Prop where
  | nil : Spells [] []
  | blank {c : Char} {rest : List Char} {words : List Word} : isSpace c = true → Spells rest words →
      Spells (c :: rest) words
  | word {w : Word} {rest : List Char} {words : List Word} : (∀ expected, EndsBefore expected w rest) →
      Spells rest words → Spells (w.text.toList ++ rest) (w :: words)

theorem exists_runFrom_of_spells {cs : List Char} {words : List Word} (h : Spells cs words) {s s' : State}
    {position : Position} {types : List TypeDecl} (ha : Accepts s position words types)
    (hs : s'.bareAfter [] = s.bareAfter []) (last start : Position) :
    ∃ types', runFrom s' last { position := start, rest := cs } = .ok types' ∧
      types'.map TypeDecl.bare = types.map TypeDecl.bare := by
  induction h generalizing s s' position last start with
  | nil =>
    cases ha with
    | ended hcomplete =>
      obtain ⟨hs', htypes⟩ := State.eq_of_bareAfter_complete hs hcomplete
      refine ⟨s'.types, ?_, htypes⟩
      rw [hs']
      exact runFrom_of_ended rfl last start
  | blank hc _ ih =>
    rw [runFrom_of_skipFrom (skipFrom_blank hc _ _)]
    exact ih ha hs last _
  | @word w rest words hends _ ih =>
    cases ha with
    | word hw hf hshift ha =>
      have hread := token?_append (plain_expected s) hw hf (hends s.expected)
      rw [← String.ofList_toList (s := w.text)] at hshift
      obtain ⟨next', hnext, hrun⟩ := exists_runFrom_token hs hread hshift last start
      rw [hrun]
      exact ih ha hnext start _

theorem Accepts.isWord {s : State} {position : Position} {words : List Word} {types : List TypeDecl}
    (h : Accepts s position words types) : ∀ w ∈ words, IsWord w := by
  induction h with
  | ended => exact List.forall_mem_nil _
  | word hw _ _ _ ih => exact List.forall_mem_cons.2 ⟨hw, ih⟩

/-! ## Lines -/

/-- Colons, parentheses and commas, which need no blanks around them. -/
def Word.isJoint (w : Word) : Bool := w.terminal ∈ literals ["::", "(", ",", ")"]

/-- What is between a word and the next one in a line. -/
def between (w next : Word) : List Char :=
  if w.isJoint ∨ next.isJoint ∧ (w.terminal = .name ∨ w.terminal = .constructorName) then [] else [' ']

theorem between_of_isJoint {w next : Word} (h : w.isJoint = true) : between w next = [] := if_pos (.inl h)

theorem between_joint {w next : Word} (h : w.terminal = .name ∨ w.terminal = .constructorName)
    (hn : next.isJoint = true) : between w next = [] := if_pos (.inr ⟨hn, h⟩)

theorem between_of_not_isJoint {w next : Word} (h : w.isJoint = false) (hn : next.isJoint = false) :
    between w next = [' '] := if_neg (by simp [h, hn])

/-- The words in a line. -/
def inLine : List Word → List Char
  | [] => []
  | [w] => w.text.toList
  | w :: next :: rest => w.text.toList ++ (between w next ++ inLine (next :: rest))

def lineOf (words : List Word) : String := String.ofList (inLine words)

/-- No name that makes a label together with a colon is in front of colons. -/
def Clear (words : List Word) : Prop :=
  words.IsChain fun w next => BeginsLabel w.text → next.terminal ≠ .literal "::"

instance (words : List Word) : Decidable (Clear words) := inferInstanceAs (Decidable (words.IsChain _))

theorem inLine_nameList (names : List String) :
    inLine (nameList names ++ [fixed ")"]) = (Text.joinWith "," names).toList ++ [')'] := by
  cases names with
  | nil => rfl
  | cons name rest =>
    induction rest generalizing name with
    | nil => rfl
    | cons other rest ih =>
      have hrest : inLine (ofName other :: (moreNames rest ++ [fixed ")"])) = _ := ih other
      have hjoin : Text.joinWith "," (name :: other :: rest) = name ++ "," ++ Text.joinWith "," (other :: rest) := rfl
      show inLine (ofName name :: fixed "," :: ofName other :: (moreNames rest ++ [fixed ")"])) = _
      rw [inLine, inLine, hrest, between_joint (.inl rfl) rfl, between_of_isJoint rfl, hjoin, String.toList_append,
        String.toList_append, List.append_assoc, List.append_assoc]
      rfl

theorem inLine_inParens (names : List String) :
    inLine (inParens names) = '(' :: ((Text.joinWith "," names).toList ++ [')']) := by
  rw [← inLine_nameList, inParens]
  cases h : nameList names ++ [fixed ")"] with
  | nil => simp at h
  | cons next rest =>
    rw [inLine, between_of_isJoint rfl]
    rfl

theorem inLine_cons_cons {w next : Word} (h : w.isJoint = false) (hn : next.isJoint = false) (rest : List Word) :
    inLine (w :: next :: rest) = w.text.toList ++ ' ' :: inLine (next :: rest) := by
  rw [inLine, between_of_not_isJoint h hn]
  rfl

theorem lineOf_cons_cons {w next : Word} (h : w.isJoint = false) (hn : next.isJoint = false) (rest : List Word) :
    lineOf (w :: next :: rest) = w.text ++ (" " ++ lineOf (next :: rest)) := by
  unfold lineOf
  rw [inLine_cons_cons h hn, ← String.toList_inj]
  simp

theorem lineOf_singleton (w : Word) : lineOf [w] = w.text := String.ofList_toList

theorem ofMember_cases (text : String) : (ofMember text).text = text ∧
    ((ofMember text).terminal = .name ∨ (ofMember text).terminal = .constructorName) := by
  unfold ofMember
  split
  · exact ⟨rfl, .inr rfl⟩
  · exact ⟨rfl, .inl rfl⟩

theorem isJoint_ofMember (text : String) : (ofMember text).isJoint = false := by
  unfold isJoint
  rcases (ofMember_cases text).2 with hterminal | hterminal <;> rw [hterminal] <;> rfl

theorem terminal_ofMember_ne (text literal : String) : (ofMember text).terminal ≠ .literal literal := by
  rcases (ofMember_cases text).2 with hterminal | hterminal <;> rw [hterminal] <;> nofun

theorem inLine_member (type owner called : String) (params : Option (List String)) :
    inLine (OperandText.member false type owner called params).words =
      type.toList ++ ' ' :: (owner.toList ++ "::".toList ++ called.toList ++
        params.elim [] fun names => '(' :: ((Text.joinWith "," names).toList ++ [')'])) := by
  obtain ⟨htext, hterminal⟩ := ofMember_cases called
  have hcalled : inLine (ofMember called :: params.elim [] inParens) = called.toList ++
      params.elim [] fun names => '(' :: ((Text.joinWith "," names).toList ++ [')']) := by
    cases params with
    | none => rw [Option.elim, inLine, htext, Option.elim, List.append_nil]
    | some names =>
      rw [Option.elim, Option.elim, ← inLine_inParens, inParens, inLine, between_joint hterminal rfl, htext]
      rfl
  show inLine (ofName type :: ofName owner :: fixed "::" :: ofMember called :: _) = _
  rw [inLine_cons_cons rfl rfl, inLine, inLine, hcalled, between_joint (.inl rfl) rfl, between_of_isJoint rfl,
    List.append_assoc, List.append_assoc]
  rfl

theorem clear_of_forall {words : List Word} (h : ∀ w ∈ words, w.terminal ≠ .literal "::") : Clear words := by
  induction words with
  | nil => exact .nil
  | cons w words ih =>
    rw [List.forall_mem_cons] at h
    exact (ih h.2).cons fun next hnext _ => h.2 next (List.mem_of_mem_head? hnext)

theorem terminal_of_mem_inParens {names : List String} {w : Word} (h : w ∈ inParens names) :
    w.terminal ≠ .literal "::" := by
  simp only [inParens, List.mem_cons, List.mem_append, List.not_mem_nil, or_false] at h
  rcases h with rfl | h | rfl
  · decide
  · cases names with
    | nil => cases h
    | cons name rest =>
      simp only [nameList, moreNames, List.mem_cons, List.mem_flatMap, List.not_mem_nil, or_false] at h
      rcases h with rfl | ⟨other, -, rfl | rfl⟩
      · simp [ofName]
      · decide
      · simp [ofName]
  · decide

/-- A member's words are clear if its owner is no name that makes a label. -/
theorem clear_member {owner : String} (h : ¬ BeginsLabel owner) (type called : String)
    (params : Option (List String)) : Clear (OperandText.member false type owner called params).words := by
  have hcalled := terminal_ofMember_ne called "::"
  have hparams : ∀ w ∈ params.elim [] inParens, w.terminal ≠ .literal "::" := by
    cases params with
    | none => exact List.forall_mem_nil _
    | some names => exact fun w hw => terminal_of_mem_inParens hw
  have htail := clear_of_forall (List.forall_mem_cons.2 ⟨hcalled, hparams⟩)
  have hcolons : Clear (fixed "::" :: ofMember called :: params.elim [] inParens) :=
    htail.cons fun next hnext _ => Option.some.inj hnext ▸ hcalled
  refine (hcolons.cons ?_).cons ?_
  · exact fun _ _ hlabel => absurd hlabel h
  · exact fun next hnext _ => Option.some.inj hnext ▸ nofun

theorem exists_inLine_cons (w : Word) (words : List Word) : ∃ tail, inLine (w :: words) = w.text.toList ++ tail := by
  cases words with
  | nil => exact ⟨[], (List.append_nil _).symm⟩
  | cons next rest => exact ⟨_, rfl⟩

theorem exists_of_isJoint {w : Word} (hw : IsWord w) (h : w.isJoint = true) :
    ∃ text ∈ ["::", "(", ",", ")"], w = fixed text := by
  obtain ⟨text, hmem, hterminal⟩ := List.mem_map.1 (of_decide_eq_true h)
  refine ⟨text, hmem, ?_⟩
  cases hw with
  | fixed => rw [Terminal.literal.inj hterminal]; rfl
  | name | label | number | string | constructorName => cases hterminal

theorem endsBefore_of_isJoint {w : Word} (hw : IsWord w) (h : w.isJoint = true) (expected : List Terminal)
    (rest : List Char) : EndsBefore expected w rest := by
  have hmark : ∀ text ∈ ["::", "(", ",", ")"], text ∈ marks := by decide
  obtain ⟨text, hmem, rfl⟩ := exists_of_isJoint hw h
  exact fun _ hn => absurd hn (not_isName_of_mem_marks (hmark text hmem))

theorem endsBefore_joint {w next : Word} (hterminal : w.terminal = .name ∨ w.terminal = .constructorName)
    (hnext : IsWord next) (h : next.isJoint = true) (hc : BeginsLabel w.text → next.terminal ≠ .literal "::")
    (expected : List Terminal) (rest : List Char) : EndsBefore expected w (next.text.toList ++ rest) := by
  obtain ⟨text, hmem, rfl⟩ := exists_of_isJoint hnext h
  have hhead : ∃ c cs, text.toList = c :: cs ∧ isNameChar c = false ∧ (c = ':' → text = "::") := by
    simp only [List.mem_cons, List.not_mem_nil, or_false] at hmem
    rcases hmem with rfl | rfl | rfl | rfl
    · exact ⟨':', [':'], rfl, by decide, fun _ => rfl⟩
    · exact ⟨'(', [], rfl, by decide, by decide⟩
    · exact ⟨',', [], rfl, by decide, by decide⟩
    · exact ⟨')', [], rfl, by decide, by decide⟩
  obtain ⟨c, cs, htext, hchar, hcolon⟩ := hhead
  unfold EndsBefore
  rcases hterminal with hterminal | hterminal <;> rw [hterminal]
  · show Leaves isNameChar (text.toList ++ rest) ∧ (_ → ¬ (BeginsLabel w.text ∧ (text.toList ++ rest).head? = some ':'))
    rw [htext]
    refine ⟨leaves_cons.2 hchar, ?_⟩
    rintro - ⟨hbegins, hc'⟩
    exact hc hbegins (congrArg Terminal.literal (hcolon (Option.some.inj hc')))
  · trivial

theorem spells_inLine {words : List Word} (hw : ∀ w ∈ words, IsWord w) (hc : Clear words) {rest : List Char}
    {more : List Word} (h : Spells rest more) (hr : EndsWord rest) : Spells (inLine words ++ rest) (words ++ more) := by
  induction words with
  | nil => exact h
  | cons w words ih =>
    rw [List.forall_mem_cons] at hw
    cases words with
    | nil => exact .word (endsBefore_of_endsWord hw.1 hr) h
    | cons next words =>
      obtain ⟨hlabel, hc⟩ := List.isChain_cons_cons.1 hc
      obtain ⟨tail, htail⟩ := exists_inLine_cons next words
      have hrest := ih hw.2 hc
      have hnext := hw.2 next List.mem_cons_self
      rw [inLine, List.append_assoc, List.append_assoc, List.cons_append]
      unfold between
      split
      next hjoint =>
        refine .word (fun expected => ?_) hrest
        rcases hjoint with hjoint | ⟨hjoint, hterminal⟩
        · exact endsBefore_of_isJoint hw.1 hjoint expected _
        · rw [htail, List.nil_append, List.append_assoc]
          exact endsBefore_joint hterminal hnext hjoint hlabel expected _
      · exact .word (endsBefore_of_endsWord hw.1 (.inr ⟨' ', _, rfl, rfl⟩)) (.blank rfl hrest)

theorem spells_joined {lines : List (List Word)} (hw : ∀ words ∈ lines, ∀ w ∈ words, IsWord w)
    (hc : ∀ words ∈ lines, Clear words) : Spells (joined (lines.map lineOf)).toList lines.flatten := by
  induction lines with
  | nil => exact .nil
  | cons words rest ih =>
    rw [List.forall_mem_cons] at hw hc
    rw [List.map_cons, toList_joined_cons, lineOf, String.toList_ofList, List.flatten_cons]
    exact spells_inLine hw.1 hc.1 (.blank rfl (ih hw.2 hc.2)) (.inr ⟨'\n', _, rfl, rfl⟩)

/-- **A listing can be written in lines**, cut between any words: it is read as its tree. -/
theorem exists_parse_lines {list : List TypeDecl} (hl : ∀ t ∈ list, t.WellFormed) {lines : List (List Word)}
    (hw : lines.flatten = list.flatMap TypeDecl.words) (hc : ∀ words ∈ lines, Clear words) :
    ∃ types, parse (joined (lines.map lineOf)) = .ok types ∧ types.map TypeDecl.bare = list.map TypeDecl.bare := by
  have haccepts : Accepts {} {} lines.flatten (placeTypes {} list) := by
    rw [hw]
    exact accepts_types hl [] {}
  have hwords : ∀ words ∈ lines, ∀ w ∈ words, IsWord w := fun words hmem w hword =>
    haccepts.isWord w (List.mem_flatten_of_mem hmem hword)
  obtain ⟨types, hrun, htypes⟩ := exists_runFrom_of_spells (spells_joined hwords hc) haccepts rfl {} {}
  exact ⟨types, hrun, htypes.trans (bare_placeTypes {} list)⟩

end StubClosure.Listing
