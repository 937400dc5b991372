import StubClosure.Proofs.Listing.Joined
import StubClosure.Proofs.Listing.Names
import StubClosure.Proofs.Listing.Reordered

/-!
# Blanks and comments between words

A `Seam` of a listing is a place between two of its words, before the first or after the last: behind the text before it the reader has gone over whole words, blanks and comments. Blanks and comments that are put there change places only, so the listing loads as before (`load_insert`).

There is one exception. The slash is a character of names, so a comment that is put right behind a name is none: the reader takes its slashes, and what comes after them, for more of the name. A seam tells the name that it touches.
-/

namespace StubClosure.Listing

/-- Blanks and comments, each comment up to the end of its line. -/
inductive IsGap : List Char → Prop where
  | nil : IsGap []
  | blank {c : Char} {rest : List Char} : isSpace c = true → IsGap rest → IsGap (c :: rest)
  | comment {text rest : List Char} : '\n' ∉ text → IsGap rest → IsGap ('/' :: '/' :: (text ++ '\n' :: rest))

/-- The text ends a line. -/
def EndsLine (rest : List Char) : Prop := ∀ c ∈ rest.head?, c = '\n'

/-! ## Going over gaps -/

section
variable {gap rest : List Char}

theorem skipFrom_line {text : List Char} (ht : '\n' ∉ text) (position : Position) (rest : List Char) :
    ∃ place, skipFrom true position (text ++ rest) = skipFrom true place rest := by
  induction text generalizing position with
  | nil => exact ⟨position, rfl⟩
  | cons c text ih =>
    rw [List.mem_cons, not_or] at ht
    rw [List.cons_append, skipFrom, if_pos rfl, decide_eq_true (Ne.symm ht.1)]
    exact ih ht.2 _

theorem skipFrom_blank {c : Char} (hc : isSpace c = true) (position : Position) (rest : List Char) :
    skipFrom false position (c :: rest) = skipFrom false (position.next c) rest := by
  rw [skipFrom, if_neg Bool.false_ne_true, if_pos hc]

theorem skipFrom_slashes {text : List Char} (ht : '\n' ∉ text) (position : Position) (rest : List Char) :
    ∃ place, skipFrom false position ('/' :: '/' :: (text ++ rest)) = skipFrom true place rest :=
  skipFrom_line (List.not_mem_cons_of_ne_of_not_mem (by decide) ht) (position.next '/') rest

theorem EndsLine.skipFrom_eq (hr : EndsLine rest) (position : Position) :
    skipFrom true position rest = skipFrom false position rest := by
  cases rest with
  | nil => rfl
  | cons c more =>
    obtain rfl := hr c rfl
    rfl

theorem endsLine_lineFeed (rest : List Char) : EndsLine ('\n' :: rest) := fun _ hc => (Option.some.inj hc).symm

theorem skipFrom_gap (hg : IsGap gap) (position : Position) (rest : List Char) :
    ∃ place, skipFrom false position (gap ++ rest) = skipFrom false place rest := by
  induction hg generalizing position with
  | nil => exact ⟨position, rfl⟩
  | @blank c gap hc _ ih =>
    rw [List.cons_append, skipFrom_blank hc]
    exact ih _
  | @comment text gap ht _ ih =>
    obtain ⟨place, hplace⟩ := skipFrom_slashes ht position ('\n' :: (gap ++ rest))
    rw [List.cons_append, List.cons_append, List.append_assoc, List.cons_append, hplace]
    exact ih (place.next '\n')

theorem skipFrom_gap_in_comment (hg : IsGap gap) (hr : EndsLine rest) (position : Position) :
    ∃ place, skipFrom true position (gap ++ rest) = skipFrom false place rest := by
  induction hg generalizing position with
  | nil => exact ⟨position, hr.skipFrom_eq position⟩
  | @blank c gap hc hgap ih =>
    by_cases hline : c = '\n'
    · subst hline
      exact skipFrom_gap hgap _ rest
    · rw [List.cons_append, skipFrom, if_pos rfl, decide_eq_true hline]
      exact ih _
  | @comment text gap ht hgap _ =>
    have hslashes : '\n' ∉ '/' :: '/' :: text := by simp [ht]
    obtain ⟨place, hplace⟩ := skipFrom_line hslashes position ('\n' :: (gap ++ rest))
    obtain ⟨stop, hstop⟩ := skipFrom_gap hgap (place.next '\n') rest
    refine ⟨stop, ?_⟩
    rw [← hstop, List.cons_append, List.cons_append, List.append_assoc, List.cons_append]
    exact hplace

theorem skipFrom_rest (inComment : Bool) (position place : Position) (cs : List Char) :
    (skipFrom inComment position cs).rest = (skipFrom inComment place cs).rest := by
  induction cs generalizing inComment position place with
  | nil => rfl
  | cons c cs ih =>
    rw [skipFrom, skipFrom]
    split
    · exact ih _ _ _
    · split
      · exact ih _ _ _
      · split
        · exact ih _ _ _
        · rfl

theorem IsGap.parts (hg : IsGap gap) (hne : gap ≠ []) (rest : List Char) : Parts (gap ++ rest) := by
  intro c hc
  cases hg with
  | nil => exact absurd rfl hne
  | blank hb _ =>
    obtain rfl := Option.some.inj hc
    exact .inl hb
  | comment _ _ =>
    obtain rfl := Option.some.inj hc
    exact .inr rfl

/-- A gap that begins no comment ends names. -/
theorem IsGap.leaves (hg : IsGap gap) (hne : gap ≠ []) (hslash : gap.head? ≠ some '/') (rest : List Char) :
    Leaves isNameChar (gap ++ rest) := by
  have hblank : ∀ c, isSpace c = true → isNameChar c = false := forall_isSpace (by decide)
  intro c hc
  cases hg with
  | nil => exact absurd rfl hne
  | blank hb _ =>
    obtain rfl := Option.some.inj hc
    exact hblank _ hb
  | comment _ _ => exact absurd rfl hslash

end

/-! ## Reading from another place -/

theorem runFrom_of_skipFrom {s : State} {last position place : Position} {cs rest : List Char}
    (h : skipFrom false position cs = skipFrom false place rest) :
    runFrom s last { position, rest := cs } = runFrom s last { position := place, rest } :=
  runFrom_congr (show Cursor.skip { position, rest := cs } = Cursor.skip { position := place, rest } from h)

/-- A listing is read alike from any place, by states that differ in places only. -/
theorem exists_runFrom_of_bareAfter {s : State} {last : Position} {c : Cursor} {types : List TypeDecl}
    (h : runFrom s last c = .ok types) {s' : State} (hs : s'.bareAfter [] = s.bareAfter []) (last' start : Position) :
    ∃ types', runFrom s' last' { position := start, rest := c.rest } = .ok types' ∧
      types'.map TypeDecl.bare = types.map TypeDecl.bare := by
  fun_induction runFrom s last c generalizing s' last' start with
  | case1 s last c hread hcomplete =>
    obtain rfl := Except.ok.inj h
    obtain ⟨hs', htypes⟩ := State.eq_of_bareAfter_complete hs hcomplete
    have hend : (skipFrom false start c.rest).rest = [] := by
      rw [skipFrom_rest false start c.position]
      exact skip_of_ended hread
    refine ⟨s'.types, ?_, htypes⟩
    rw [hs', ← runFrom_of_ended rfl last' (skipFrom false start c.rest).position]
    apply runFrom_congr
    unfold Cursor.skip
    dsimp only
    generalize skipFrom false start c.rest = stop at hend ⊢
    obtain ⟨position, rest⟩ := stop
    obtain rfl : rest = [] := hend
    rfl
  | case5 s last c token left hread next hnext ih =>
    rw [← State.expected_eq_of_bareAfter hs] at hread
    obtain ⟨token', place, hread', htoken⟩ := exists_read_append hread start (.inl rfl)
    rw [List.append_nil, List.append_nil] at hread'
    obtain ⟨next', hnext', hs'⟩ := State.exists_shift_of_bareAfter hs htoken hnext
    obtain ⟨types', hrun, htypes⟩ := ih h hs' token'.position place
    exact ⟨types', by rw [runFrom_of_token hread' hnext', hrun], htypes⟩
  | case2 | case3 | case4 | case6 => cases h

theorem exists_runFrom_token {s s' next : State} (hs : s'.bareAfter [] = s.bareAfter []) {terminal : Terminal}
    {lexeme rest : List Char} {position : Position}
    (ht : token? s.expected (lexeme ++ rest) = some (terminal, lexeme, rest))
    (hn : s.shift { terminal, text := String.ofList lexeme, position } = some next) (last start : Position) :
    ∃ next', next'.bareAfter [] = next.bareAfter [] ∧
      runFrom s' last { position := start, rest := lexeme ++ rest } =
        runFrom next' start { position := start.after lexeme, rest } := by
  rw [← State.expected_eq_of_bareAfter hs] at ht
  have htoken : (⟨terminal, String.ofList lexeme, start⟩ : Token).bare = (⟨terminal, String.ofList lexeme, position⟩ : Token).bare := rfl
  obtain ⟨next', hn', hs'⟩ := State.exists_shift_of_bareAfter hs htoken hn
  exact ⟨next', hs', runFrom_of_token (read_token ht start) hn'⟩

/-! ## Seams -/

/-- The name that is touched right behind a word: the word, if it looks like a name where names are expected. -/
def State.touched (s : State) (lexeme : List Char) : Option (List Char) :=
  if .name ∈ s.expected ∧ IsName (String.ofList lexeme) then some lexeme else none

/-- From a state, the text before a place is whole words, blanks and comments. The seam tells the name right before the place, if there is one. -/
inductive Seam (after : List Char) : Option (List Char) → State → List Char → Prop where
  | start {s : State} : Seam after none s []
  | blank {name : Option (List Char)} {s : State} {c : Char} {before : List Char} :
      isSpace c = true → Seam after name s before → Seam after name s (c :: before)
  | comment {name : Option (List Char)} {s : State} {text before : List Char} : '\n' ∉ text →
      EndsLine (before ++ after) → Seam after name s before → Seam after name s ('/' :: '/' :: (text ++ before))
  | token {name : Option (List Char)} {s next : State} {terminal : Terminal} {lexeme before : List Char}
      {position : Position} :
      token? s.expected (lexeme ++ (before ++ after)) = some (terminal, lexeme, before ++ after) →
      s.shift { terminal, text := String.ofList lexeme, position } = some next → Seam after name next before →
      Seam after (if before = [] then s.touched lexeme else name) s (lexeme ++ before)

section
variable {gap before after : List Char} {name : Option (List Char)} {s s' : State}

theorem Seam.none_of_nil (h : Seam after name s []) : name = none := by
  generalize hb : ([] : List Char) = before at h
  cases h with
  | start => rfl
  | blank => cases hb
  | comment => cases hb
  | token ht =>
    obtain ⟨rfl, rfl⟩ := List.append_eq_nil_iff.1 hb.symm
    exact absurd rfl (token?_splits ht).2

/-- **At a seam a gap makes no difference**, unless it begins a comment right behind a name. -/
theorem Seam.exists_runFrom (hseam : Seam after name s before) {original : State} {last position : Position} {types : List TypeDecl}
    (h : runFrom original last { position, rest := before ++ after } = .ok types)
    (ho : original.bareAfter [] = s.bareAfter []) (hs : s'.bareAfter [] = s.bareAfter []) (hg : IsGap gap) (hne : gap ≠ [])
    (hn : name = none ∨ gap.head? ≠ some '/') (last' start : Position) :
    ∃ types', runFrom s' last' { position := start, rest := before ++ (gap ++ after) } = .ok types' ∧
      types'.map TypeDecl.bare = types.map TypeDecl.bare := by
  induction hseam generalizing original last position s' last' start with
  | start =>
    obtain ⟨place, hplace⟩ := skipFrom_gap hg start after
    obtain ⟨types', hrun, htypes⟩ := exists_runFrom_of_bareAfter h (hs.trans ho.symm) last' place
    exact ⟨types', (runFrom_of_skipFrom hplace).trans hrun, htypes⟩
  | @blank name s c before hc hseam ih =>
    rw [List.cons_append, runFrom_of_skipFrom (skipFrom_blank hc _ _)] at h
    obtain ⟨types', hrun, htypes⟩ := ih h ho hs hn last' (start.next c)
    exact ⟨types', (runFrom_of_skipFrom (skipFrom_blank hc _ _)).trans hrun, htypes⟩
  | @comment name s text before ht hline hseam ih =>
    obtain ⟨stop, hstop⟩ := skipFrom_slashes ht position (before ++ after)
    rw [hline.skipFrom_eq] at hstop
    rw [List.cons_append, List.cons_append, List.append_assoc, runFrom_of_skipFrom hstop] at h
    rw [List.cons_append, List.cons_append, List.append_assoc]
    obtain ⟨begun, hbegun⟩ := skipFrom_slashes ht start (before ++ (gap ++ after))
    cases before with
    | nil =>
      -- the gap goes on with the comment, up to the end of its line
      obtain ⟨place, hplace⟩ := skipFrom_gap_in_comment hg hline begun
      obtain ⟨types', hrun, htypes⟩ := exists_runFrom_of_bareAfter h (hs.trans ho.symm) last' place
      exact ⟨types', (runFrom_of_skipFrom (hbegun.trans hplace)).trans hrun, htypes⟩
    | cons c before =>
      have hline' : EndsLine (c :: before ++ (gap ++ after)) := hline
      rw [hline'.skipFrom_eq] at hbegun
      obtain ⟨types', hrun, htypes⟩ := ih h ho hs hn last' begun
      exact ⟨types', (runFrom_of_skipFrom hbegun).trans hrun, htypes⟩
  | @token name s next terminal lexeme before _ ht hshift hseam ih =>
    obtain ⟨original', ho', horiginal⟩ := exists_runFrom_token ho ht hshift last position
    rw [List.append_assoc, horiginal] at h
    have hswap : token? s.expected (lexeme ++ (before ++ (gap ++ after))) =
        some (terminal, lexeme, before ++ (gap ++ after)) := by
      refine token?_swap (plain_expected s) ht (hg.parts hne after) ?_
      rintro rfl hexpected hname
      rw [if_pos rfl, State.touched, if_pos ⟨hexpected, hname⟩] at hn
      exact hg.leaves hne (hn.resolve_left (Option.some_ne_none lexeme)) after
    have hn' : name = none ∨ gap.head? ≠ some '/' := by
      cases before with
      | nil => exact .inl hseam.none_of_nil
      | cons c before => exact hn
    obtain ⟨next', hs', hnext⟩ := exists_runFrom_token hs hswap hshift last' start
    obtain ⟨types', hrun, htypes⟩ := ih h ho' hs' hn' start (start.after lexeme)
    exact ⟨types', by rw [List.append_assoc, hnext, hrun], htypes⟩

/-! ## Comments right behind names -/

theorem exists_read_slashes {word : List Char} (he : .name ∈ s.expected) (hn : IsName (String.ofList word)) (rest : List Char)
    (place : Position) : ∃ more left,
      Cursor.read s.expected { position := place, rest := word ++ '/' :: '/' :: rest } =
        .token { terminal := .name, text := String.ofList (word ++ '/' :: '/' :: more), position := place } left := by
  have hE := plain_expected s
  let longer : List Char := word ++ '/' :: '/' :: rest.takeWhile isNameChar
  have hslash : '/' ∈ longer := by simp [longer]
  have hname : IsName (String.ofList longer) := by
    rw [isName_iff, String.toList_ofList] at hn ⊢
    obtain ⟨⟨c, hhead, hc⟩, hall⟩ := hn
    refine ⟨⟨c, ?_, hc⟩, ?_⟩
    · rw [List.head?_append, Option.mem_def.1 hhead]
      rfl
    · intro d hd
      simp only [longer, List.mem_append, List.mem_cons] at hd
      rcases hd with hd | rfl | rfl | hd
      · exact hall d hd
      · decide
      · decide
      · exact List.mem_takeWhile_imp hd
  have hfits : Fits s.expected ⟨.name, String.ofList longer⟩ := by
    refine ⟨he, fun _ hliteral => ?_⟩
    have hnone : ∀ text ∈ fixedWords, '/' ∉ text.toList := by decide
    apply hnone _ (hE.of_literal hliteral).1
    rw [String.toList_ofList]
    exact hslash
  have hends : EndsBefore s.expected ⟨.name, String.ofList longer⟩ (rest.dropWhile isNameChar) := by
    refine ⟨fun c hc => ?_, ?_⟩
    · have hnot := List.head?_dropWhile_not isNameChar rest
      rw [Option.mem_def.1 hc] at hnot
      exact hnot
    · rintro - ⟨⟨digits, ⟨-, hdigits⟩, htext⟩, -⟩
      rw [String.toList_ofList] at htext
      rw [htext] at hslash
      simp only [List.mem_cons] at hslash
      rcases hslash with h | h | h | h
      · cases h
      · cases h
      · cases h
      · exact absurd (hdigits '/' h) (by decide)
  have htoken := token?_append hE (.name hname) hfits hends
  rw [String.toList_ofList] at htoken
  have hsplit : word ++ '/' :: '/' :: rest = longer ++ rest.dropWhile isNameChar := by
    simp [longer, List.takeWhile_append_dropWhile]
  rw [hsplit]
  exact ⟨_, _, read_token htoken place⟩

/-- **Behind a name a comment is none.** The reader comes to the name and takes what begins the comment for more of it. -/
theorem Seam.exists_read_slashes (hseam : Seam after name s before) {word : List Char} (hw : name = some word)
    (hs : s'.bareAfter [] = s.bareAfter []) (hg : IsGap gap) (hslash : gap.head? = some '/') (last start : Position) :
    ∃ front state last' place more left, before = front ++ word ∧
      runFrom s' last { position := start, rest := before ++ (gap ++ after) } =
        runFrom state last' { position := place, rest := word ++ (gap ++ after) } ∧
      Cursor.read state.expected { position := place, rest := word ++ (gap ++ after) } =
        .token { terminal := .name, text := String.ofList (word ++ '/' :: '/' :: more), position := place } left := by
  have hne : gap ≠ [] := by
    rintro rfl
    cases hslash
  induction hseam generalizing s' last start with
  | start => cases hw
  | @blank name s c before hc hseam ih =>
    have hblank := skipFrom_blank hc start (before ++ (gap ++ after))
    obtain ⟨front, state, last', place, more, left, rfl, hrun, hread⟩ := ih hw hs last (start.next c)
    exact ⟨c :: front, state, last', place, more, left, rfl, (runFrom_of_skipFrom hblank).trans hrun, hread⟩
  | @comment name s text before ht hline hseam ih =>
    cases before with
    | nil => cases hseam.none_of_nil.symm.trans hw
    | cons c before =>
      obtain ⟨begun, hbegun⟩ := skipFrom_slashes ht start (c :: before ++ (gap ++ after))
      have hline' : EndsLine (c :: before ++ (gap ++ after)) := hline
      rw [hline'.skipFrom_eq] at hbegun
      obtain ⟨front, state, last', place, more, left, hbefore, hrun, hread⟩ := ih hw hs last begun
      refine ⟨'/' :: '/' :: (text ++ front), state, last', place, more, left, by simp [hbefore], ?_, hread⟩
      rw [List.cons_append, List.cons_append, List.append_assoc, runFrom_of_skipFrom hbegun, hrun]
  | @token name s next terminal lexeme before _ ht hshift hseam ih =>
    cases before with
    | nil =>
      rw [if_pos rfl, State.touched] at hw
      split at hw
      next hexpected =>
        obtain rfl := Option.some.inj hw
        rw [← State.expected_eq_of_bareAfter hs] at hexpected
        cases hg with
        | nil => exact absurd rfl hne
        | blank hb _ =>
          obtain rfl := Option.some.inj hslash
          cases hb
        | @comment text rest ht _ =>
          obtain ⟨more, left, hread⟩ := Listing.exists_read_slashes hexpected.1 hexpected.2 (text ++ '\n' :: rest ++ after) start
          exact ⟨[], s', last, start, more, left, by simp, by simp, by simpa using hread⟩
      · cases hw
    | cons c before =>
      have hswap := token?_swap (plain_expected s) ht (hg.parts hne after) (fun hnil => nomatch hnil)
      obtain ⟨next', hs', hnext⟩ := exists_runFrom_token hs hswap hshift last start
      obtain ⟨front, state, last', place, more, left, hbefore, hrun, hread⟩ := ih hw hs' start (start.after lexeme)
      refine ⟨lexeme ++ front, state, last', place, more, left, by rw [hbefore, List.append_assoc], ?_, hread⟩
      rw [List.append_assoc, hnext, hrun]

end

/-! ## Seams are everywhere between words -/

/-- What is gone over in front of a word is a gap. -/
theorem exists_gap_of_skipFrom {cs rest : List Char} (hne : rest ≠ []) :
    (∀ position, (skipFrom false position cs).rest = rest → ∃ gap, IsGap gap ∧ cs = gap ++ rest) ∧
    (∀ position, (skipFrom true position cs).rest = rest →
      ∃ text gap, '\n' ∉ text ∧ IsGap gap ∧ cs = text ++ '\n' :: (gap ++ rest)) := by
  induction cs with
  | nil => exact ⟨fun _ h => absurd h.symm hne, fun _ h => absurd h.symm hne⟩
  | cons c cs ih =>
    constructor
    · intro position h
      rw [skipFrom, if_neg Bool.false_ne_true] at h
      split at h
      next hc =>
        obtain ⟨gap, hg, rfl⟩ := ih.1 _ h
        exact ⟨c :: gap, .blank hc hg, rfl⟩
      · split at h
        next hslashes =>
          obtain ⟨rfl, hhead⟩ := hslashes
          obtain ⟨text, gap, ht, hg, rfl⟩ := ih.2 _ h
          cases text with
          | nil => cases hhead
          | cons d text =>
            obtain rfl := Option.some.inj hhead
            exact ⟨_, .comment (List.not_mem_of_not_mem_cons ht) hg, by simp⟩
        · exact ⟨[], .nil, h⟩
    · intro position h
      rw [skipFrom, if_pos rfl] at h
      by_cases hc : c = '\n'
      · subst hc
        obtain ⟨gap, hg, rfl⟩ := ih.1 _ h
        exact ⟨[], gap, List.not_mem_nil, hg, rfl⟩
      · rw [decide_eq_true hc] at h
        obtain ⟨text, gap, ht, hg, rfl⟩ := ih.2 _ h
        exact ⟨c :: text, gap, List.not_mem_cons_of_ne_of_not_mem (Ne.symm hc) ht, hg, rfl⟩

theorem Seam.gap {gap before after : List Char} {name : Option (List Char)} {s : State} (h : Seam after name s before)
    (hg : IsGap gap) : Seam after name s (gap ++ before) := by
  induction hg with
  | nil => exact h
  | blank hc _ ih => exact .blank hc ih
  | @comment text gap ht _ ih =>
    rw [List.cons_append, List.cons_append, List.append_assoc]
    exact .comment ht (endsLine_lineFeed _) (.blank (by decide) ih)

/-- One word is read. -/
def Reads (first next : State × Cursor) : Prop :=
  ∃ token, first.2.read first.1.expected = .token token next.2 ∧ first.1.shift token = some next.1

/-- **Wherever a word has been read there is a seam.** -/
theorem exists_seam {first stop : State × Cursor} (h : Relation.ReflTransGen Reads first stop) :
    ∃ before name, first.2.rest = before ++ stop.2.rest ∧ Seam stop.2.rest name first.1 before := by
  induction h using Relation.ReflTransGen.head_induction_on with
  | refl => exact ⟨[], none, rfl, .start⟩
  | @head first next hread _ ih =>
    obtain ⟨before, name, hrest, hseam⟩ := ih
    obtain ⟨token, hread, hshift⟩ := hread
    unfold Cursor.read Cursor.readHere at hread
    split at hread
    · cases hread
    next hne =>
      split at hread
      next terminal lexeme left htoken =>
        obtain ⟨rfl, hnext⟩ := Reading.token.inj hread
        have hleft : left = before ++ stop.2.rest := by rw [← hrest, ← hnext]
        have hsplit := (token?_splits htoken).1
        obtain ⟨gap, hg, hfirst⟩ := (exists_gap_of_skipFrom (mt List.isEmpty_iff.2 hne)).1 first.2.position rfl
        subst hleft
        rw [← hsplit] at htoken
        refine ⟨gap ++ (lexeme ++ before), _, ?_, (Seam.token htoken hshift hseam).gap hg⟩
        rw [hfirst, List.append_assoc, List.append_assoc]
        exact congrArg (gap ++ ·) hsplit.symm
      · split at hread <;> cases hread

/-! ## Loading -/

theorem load_congr {source source' name : String} {file : Option String} {p : Program}
    (h : load source name file = .ok p) {types types' : List TypeDecl} (hparse : parse source = .ok types)
    (hparse' : parse source' = .ok types') (htypes : types'.map TypeDecl.bare = types.map TypeDecl.bare) :
    load source' name file = .ok p := by
  unfold load at h ⊢
  rw [hparse] at h
  rw [hparse']
  exact elaborate_congr h htypes

/-- **Blanks and comments between words make no difference** to what a listing loads as, wherever they are put: behind every word that is read, before the first, and anywhere among the blanks and comments that are there. Only a comment right behind a name does: there the reader finds a longer name, the slashes in it. -/
theorem load_insert {source name : String} {file : Option String} {p : Program} (h : load source name file = .ok p) :
    (∀ s c, Relation.ReflTransGen Reads ({}, { rest := source.toList }) (s, c) →
      ∃ before touched, source.toList = before ++ c.rest ∧ Seam c.rest touched {} before) ∧
    ∀ before after touched gap source', Seam after touched {} before → source.toList = before ++ after → IsGap gap →
      source'.toList = before ++ (gap ++ after) →
      (touched = none ∨ gap.head? ≠ some '/' → load source' name file = .ok p) ∧
      ∀ word ∈ touched, gap.head? = some '/' →
        ∃ front state last place more left, before = front ++ word ∧
          parse source' = runFrom state last { position := place, rest := word ++ (gap ++ after) } ∧
          Cursor.read state.expected { position := place, rest := word ++ (gap ++ after) } =
            .token { terminal := .name, text := String.ofList (word ++ '/' :: '/' :: more), position := place } left := by
  refine ⟨fun s c hreads => exists_seam hreads, ?_⟩
  intro before after touched gap source' hseam hsource hg hsource'
  constructor
  · intro hn
    by_cases hne : gap = []
    · subst hne
      obtain rfl : source' = source := String.toList_inj.1 (hsource'.trans hsource.symm)
      exact h
    · obtain ⟨types, hparse, -⟩ := exists_elaborate_of_load h
      have hrun : runFrom {} {} { rest := before ++ after } = .ok types := by
        rw [← hsource]
        exact hparse
      obtain ⟨types', hrun', htypes⟩ := hseam.exists_runFrom hrun rfl rfl hg hne hn {} {}
      have hparse' : parse source' = .ok types' := by
        rw [parse, hsource', hrun']
      exact load_congr h hparse hparse' htypes
  · intro word hword hslash
    obtain ⟨front, state, last, place, more, left, hfront, hrun, hread⟩ :=
      hseam.exists_read_slashes hword rfl hg hslash {} {}
    refine ⟨front, state, last, place, more, left, hfront, ?_, hread⟩
    rw [parse, hsource', hrun]

def emptyType : List TypeDecl := [{ head := { position := {}, name := "A" } }]

theorem seam_emptyType : Seam " \x7b \x7d".toList (some ['A']) {} ".class A".toList := by
  let opened : State := ({} : State).goto (.typeStart { position := {} })
  have hname : Seam " \x7b \x7d".toList (opened.touched ['A']) opened ['A'] :=
    @Seam.token _ none opened _ .name ['A'] [] {} (by decide +kernel) rfl .start
  have htouched : opened.touched ['A'] = some ['A'] := by decide +kernel
  rw [htouched] at hname
  exact @Seam.token _ _ {} opened (.literal ".class") ".class".toList [' ', 'A'] {} (by decide +kernel) rfl
    (.blank (by decide) hname)

theorem load_insert_emptyType : ∃ p, load (text emptyType) "a" none = .ok p ∧
    (text emptyType).toList = ".class A".toList ++ " \x7b \x7d".toList ∧
    Seam " \x7b \x7d".toList (some ['A']) {} ".class A".toList ∧ IsGap "\t// x\n".toList ∧ IsGap "// x\n".toList ∧
    load ".class A\t// x\n \x7b \x7d" "a" none = .ok p ∧
    ∃ front state last place more left, ".class A".toList = front ++ ['A'] ∧
      parse ".class A// x\n \x7b \x7d" =
        runFrom state last { position := place, rest := ['A'] ++ ("// x\n".toList ++ " \x7b \x7d".toList) } ∧
      Cursor.read state.expected { position := place, rest := ['A'] ++ ("// x\n".toList ++ " \x7b \x7d".toList) } =
        .token { terminal := .name, text := String.ofList (['A'] ++ '/' :: '/' :: more), position := place } left := by
  have hcalls : calls none (placeTypes {} emptyType) = (placeTypes {} emptyType).map fun t => headCall none none t.head := by
    have hid : declaredId none "A" = .ok (.top "" "A" 0) := by decide +kernel
    simp [emptyType, placeTypes, TypeDecl.place, placeMembers, calls, typeCalls, innerCalls, fillCalls, memberCalls,
      propertyCalls, hid]
  obtain ⟨p, hload, -⟩ : ∃ p, load (text emptyType) "a" none = .ok p ∧ True :=
    exists_load_text (by decide +kernel) hcalls (by decide +kernel)
  have hsource : (text emptyType).toList = ".class A".toList ++ " \x7b \x7d".toList := by decide +kernel
  have hcomment : IsGap "// x\n".toList := @IsGap.comment [' ', 'x'] [] (by decide) .nil
  have hgap : IsGap "\t// x\n".toList := .blank (by decide) hcomment
  obtain ⟨-, hinsert⟩ := load_insert hload
  refine ⟨p, hload, hsource, seam_emptyType, hgap, hcomment, ?_, ?_⟩
  · exact (hinsert _ _ _ _ _ seam_emptyType hsource hgap (by decide)).1 (.inr (by decide))
  · exact (hinsert _ _ _ _ _ seam_emptyType hsource hcomment (by decide)).2 ['A'] rfl (by decide)

end StubClosure.Listing
