import StubClosure.Proofs.Listing.Bare

/-!
# Listings one after the other

A listing that is followed by a line feed and more text is read as it is by itself: every token ends at a blank at the latest, and a line feed ends a comment as well. The rest of the text is read next, from a state that holds the types of the listing (`runFrom_append`). So texts that are listings by themselves make one listing when they stand one after the other, each on lines of its own, and places apart its types are theirs (`parse_joined`), in whatever order they are put (`parse_joined_of_perm`).
-/

namespace StubClosure.Listing

/-! ## Tokens before a blank -/

theorem token?_extend {expected : List Terminal} (hE : Plain expected) {rest : List Char} (hr : EndsWord rest)
    {cs lexeme left : List Char} {terminal : Terminal} (h : token? expected cs = some (terminal, lexeme, left)) :
    token? expected (cs ++ rest) = some (terminal, lexeme, left ++ rest) := by
  have hsplit : lexeme ++ left = cs := (token?_splits h).1
  rw [← hsplit, ← List.append_nil left] at h
  rw [← hsplit, List.append_assoc]
  exact token?_swap hE h hr.parts fun _ _ _ => hr.leaves

/-! ## Blanks and comments with more text after them -/

section
variable {inComment : Bool} {position : Position} {cs rest : List Char}

theorem skipFrom_append_of_cons (hr : EndsWord rest) {c : Char} {left : List Char}
    (h : (skipFrom inComment position cs).rest = c :: left) (start : Position) :
    ∃ place, skipFrom inComment start (cs ++ rest) = { position := place, rest := c :: left ++ rest } := by
  induction cs generalizing inComment position start with
  | nil => cases h
  | cons d cs ih =>
    rw [skipFrom] at h
    rw [List.cons_append, skipFrom]
    split at h
    next hin =>
      rw [if_pos hin]
      exact ih h _
    next hin =>
      rw [if_neg hin]
      split at h
      next hs =>
        rw [if_pos hs]
        exact ih h _
      next hs =>
        rw [if_neg hs]
        split at h
        next hc =>
          rw [if_pos ⟨hc.1, by simp [List.head?_append, hc.2]⟩]
          exact ih h _
        next hc =>
          -- a slash at the end begins no comment, for a blank comes next
          have hnot : ¬ (d = '/' ∧ (cs ++ rest).head? = some '/') := by
            rintro ⟨hd, hhead⟩
            cases cs with
            | nil =>
              rcases hr with rfl | ⟨blank, more, hb, rfl⟩
              · cases hhead
              · obtain rfl := Option.some.inj hhead
                cases hb
            | cons e cs => exact hc ⟨hd, hhead⟩
          obtain ⟨rfl, rfl⟩ := List.cons.inj h
          rw [if_neg hnot]
          exact ⟨start, rfl⟩

/-- Blanks and comments up to the end are gone over, and with a line feed any comment is. -/
theorem skipFrom_append_of_nil (h : (skipFrom inComment position cs).rest = []) (start : Position) (rest : List Char) :
    ∃ place, skipFrom inComment start (cs ++ '\n' :: rest) = skipFrom false place rest := by
  induction cs generalizing inComment position start with
  | nil =>
    refine ⟨start.next '\n', ?_⟩
    rw [List.nil_append, skipFrom]
    cases inComment <;> rfl
  | cons d cs ih =>
    rw [skipFrom] at h
    rw [List.cons_append, skipFrom]
    split at h
    next hin =>
      rw [if_pos hin]
      exact ih h _
    next hin =>
      rw [if_neg hin]
      split at h
      next hs =>
        rw [if_pos hs]
        exact ih h _
      next hs =>
        rw [if_neg hs]
        split at h
        next hc =>
          rw [if_pos ⟨hc.1, by simp [List.head?_append, hc.2]⟩]
          exact ih h _
        · cases h

end

/-! ## Reading on -/

theorem endsWord_lineFeed (more : List Char) : EndsWord ('\n' :: more) := .inr ⟨'\n', more, rfl, rfl⟩

theorem skip_of_ended {expected : List Terminal} {c : Cursor} (h : c.read expected = .ended) : c.skip.rest = [] := by
  unfold Cursor.read Cursor.readHere at h
  split at h
  next hnil => exact List.isEmpty_iff.1 hnil
  · split at h
    · cases h
    · split at h <;> cases h

/-- A token that is read is read as well, at some place, with more after the text that begins with a blank. -/
theorem exists_read_append {s : State} {c left : Cursor} {token : Token} (h : c.read s.expected = .token token left)
    (start : Position) {more : List Char} (hr : EndsWord more) : ∃ token' place,
      Cursor.read s.expected { position := start, rest := c.rest ++ more } =
        .token token' { position := place, rest := left.rest ++ more } ∧ token'.bare = token.bare := by
  unfold Cursor.read Cursor.readHere at h
  split at h
  · cases h
  next hne =>
    split at h
    next terminal lexeme rest htoken =>
      obtain ⟨rfl, rfl⟩ := Reading.token.inj h
      obtain ⟨d, ds, hskip⟩ := List.exists_cons_of_ne_nil (mt List.isEmpty_iff.2 hne)
      obtain ⟨place, hplace⟩ := skipFrom_append_of_cons hr hskip start
      have hext := token?_extend (plain_expected s) hr htoken
      rw [hskip] at hext
      refine ⟨{ terminal, text := String.ofList lexeme, position := place }, place.after lexeme, ?_, rfl⟩
      · unfold Cursor.read Cursor.skip
        dsimp only
        rw [hplace]
        unfold Cursor.readHere
        dsimp only
        rw [if_neg (by simp), hext]
    · split at h <;> cases h

/-- **A listing is read alike with more text after it.** Reading comes to a state with the types of the listing, places apart, and goes on with the text after the line feed. -/
theorem runFrom_append {s : State} {last : Position} {c : Cursor} {types : List TypeDecl}
    (h : runFrom s last c = .ok types) {s' : State} {closed : List TypeDecl}
    (hs : s'.bareAfter [] = s.bareAfter closed) (last' start : Position) (more : List Char) :
    ∃ types' last'' place, types'.map TypeDecl.bare = closed ++ types.map TypeDecl.bare ∧
      runFrom s' last' { position := start, rest := c.rest ++ '\n' :: more } =
        runFrom { types := types' } last'' { position := place, rest := more } := by
  fun_induction runFrom s last c generalizing s' last' start with
  | case1 s last c hread hcomplete =>
    obtain ⟨place, hplace⟩ := skipFrom_append_of_nil (skip_of_ended hread) start more
    obtain ⟨hs', htypes⟩ := State.eq_of_bareAfter_complete hs hcomplete
    obtain rfl := Except.ok.inj h
    refine ⟨s'.types, last', place, htypes, ?_⟩
    rw [← hs']
    exact runFrom_congr hplace
  | case5 s last c token left hread next hnext ih =>
    rw [← State.expected_eq_of_bareAfter hs] at hread
    obtain ⟨token', place, hread', htoken⟩ := exists_read_append hread start (endsWord_lineFeed more)
    obtain ⟨next', hnext', hs'⟩ := State.exists_shift_of_bareAfter hs htoken hnext
    obtain ⟨types', last'', stop, htypes, hrun⟩ := ih h hs' token'.position place
    refine ⟨types', last'', stop, htypes, ?_⟩
    rw [runFrom_of_token hread' hnext', hrun]
  | case2 | case3 | case4 | case6 => cases h

/-! ## Several listings -/

/-- The texts one after the other, each with a line feed after it. -/
def joined (texts : List String) : String := String.join (texts.map (· ++ "\n"))

theorem toList_joined_cons (source : String) (rest : List String) :
    (joined (source :: rest)).toList = source.toList ++ '\n' :: (joined rest).toList := by
  simp [joined, String.join_cons]

/-- The types that a text declares, if it is a listing. -/
def declared (source : String) : List TypeDecl := (parse source).toOption.getD []

theorem runFrom_joined {texts : List String} (h : ∀ source ∈ texts, parse source = .ok (declared source))
    (closed : List TypeDecl) (last start : Position) :
    ∃ types, runFrom { types := closed } last { position := start, rest := (joined texts).toList } = .ok types ∧
      types.map TypeDecl.bare = closed.map TypeDecl.bare ++ (texts.flatMap declared).map TypeDecl.bare := by
  induction texts generalizing closed last start with
  | nil => exact ⟨closed, runFrom_of_ended rfl last start, by simp⟩
  | cons source rest ih =>
    have hstate : ({ types := closed } : State).bareAfter [] = ({} : State).bareAfter (closed.map TypeDecl.bare) := by
      simp [State.bareAfter]
    obtain ⟨types', last', place, htypes, hrun⟩ :=
      runFrom_append (h source List.mem_cons_self) hstate last start (joined rest).toList
    obtain ⟨types, hrest, hall⟩ := ih (fun other ho => h other (List.mem_cons_of_mem _ ho)) types' last' place
    refine ⟨types, ?_, ?_⟩
    · rw [toList_joined_cons, ← hrest]
      exact hrun
    · rw [hall, htypes, List.flatMap_cons, List.map_append, List.append_assoc]

/-- **Listings can be put one after the other.** -/
theorem parse_joined {texts : List String} (h : ∀ source ∈ texts, parse source = .ok (declared source)) :
    ∃ types, parse (joined texts) = .ok types ∧
      types.map TypeDecl.bare = (texts.flatMap declared).map TypeDecl.bare := by
  obtain ⟨types, hparse, htypes⟩ := runFrom_joined h [] {} {}
  exact ⟨types, hparse, htypes⟩

theorem parse_eq_declared {source : String} (h : ∃ types, parse source = .ok types) :
    parse source = .ok (declared source) := by
  obtain ⟨types, h⟩ := h
  rw [declared, h]
  rfl

/-- **Listings may be put in any order.** Both orders make a listing, and the types of the two are the same, places and order apart. -/
theorem parse_joined_of_perm {texts texts' : List String} (hperm : texts'.Perm texts)
    (h : ∀ source ∈ texts, ∃ types, parse source = .ok types) :
    ∃ types types', parse (joined texts) = .ok types ∧ parse (joined texts') = .ok types' ∧
      (types'.map TypeDecl.bare).Perm (types.map TypeDecl.bare) := by
  have hdeclared : ∀ source ∈ texts, parse source = .ok (declared source) := fun source hmem =>
    parse_eq_declared (h source hmem)
  obtain ⟨types, hparse, htypes⟩ := parse_joined hdeclared
  obtain ⟨types', hparse', htypes'⟩ := parse_joined fun source hmem => hdeclared source (hperm.mem_iff.1 hmem)
  refine ⟨types, types', hparse, hparse', ?_⟩
  rw [htypes, htypes']
  exact (hperm.flatMap_right declared).map TypeDecl.bare

end StubClosure.Listing
