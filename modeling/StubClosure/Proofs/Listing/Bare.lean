import StubClosure.Proofs.Listing.Written

/-!
# Reading apart from places

A place goes from a token into the tree and decides nothing on the way. So the machine of the grammar may be followed without places: taking them out of a state and a token, and putting closed types before those of the state, goes together with every step (`shift_bareAfter`).
-/

namespace StubClosure.Listing

/-! ## States without places -/

def NameList.bare : NameList → NameList
  | .params m => .params m.bare
  | .locals m names => .locals m.bare names
  | .signature m i marked type owner name names => .signature m.bare i.bare marked type owner name names

def Mode.bare : Mode → Mode
  | .members => .members
  | .typeStart h => .typeStart { h with position := {} }
  | .typeNamed h => .typeNamed { h with position := {} }
  | .typeBase h => .typeBase { h with position := {} }
  | .typeBased h => .typeBased { h with position := {} }
  | .typeInterface h => .typeInterface { h with position := {} }
  | .typeInterfaced h => .typeInterfaced { h with position := {} }
  | .fieldStart f => .fieldStart { f with position := {} }
  | .fieldTyped f => .fieldTyped { f with position := {} }
  | .propertyStart d => .propertyStart { d with position := {} }
  | .propertyTyped d => .propertyTyped { d with position := {} }
  | .propertyNamed d => .propertyNamed { d with position := {} }
  | .accessors d => .accessors { d with position := {} }
  | .accessorName d accessor => .accessorName { d with position := {} } accessor
  | .methodStart m => .methodStart m.bare
  | .methodTyped m => .methodTyped m.bare
  | .methodNamed m => .methodNamed m.bare
  | .methodSigned m => .methodSigned m.bare
  | .bodyStart m => .bodyStart m.bare
  | .localsStart m => .localsStart m.bare
  | .listOpen l => .listOpen l.bare
  | .listNext l => .listNext l.bare
  | .listMore l => .listMore l.bare
  | .code m => .code m.bare
  | .mnemonic m i => .mnemonic m.bare i.bare
  | .operand m i => .operand m.bare i.bare
  | .memberType m i => .memberType m.bare i.bare
  | .memberOwner m i type => .memberOwner m.bare i.bare type
  | .operandName m i word => .operandName m.bare i.bare word
  | .memberColons m i marked type owner => .memberColons m.bare i.bare marked type owner
  | .memberName m i marked type owner => .memberName m.bare i.bare marked type owner
  | .memberNamed m i marked type owner name => .memberNamed m.bare i.bare marked type owner name

def Token.bare (t : Token) : Token := { t with position := {} }

/-- The state without places, and with closed types before its own. -/
def State.bareAfter (closed : List TypeDecl) (s : State) : State where
  enclosing := s.enclosing.map TypeDecl.bare
  types := closed ++ s.types.map TypeDecl.bare
  mode := s.mode.bare

theorem expected_bareAfter (closed : List TypeDecl) (s : State) : (s.bareAfter closed).expected = s.expected := by
  have hmode : ∀ isOpen, ∀ mode : Mode, mode.bare.expected isOpen = mode.expected isOpen := by
    intro isOpen mode
    cases mode <;> rfl
  unfold State.expected State.bareAfter
  rw [hmode, List.isEmpty_map]

theorem isComplete_bareAfter (closed : List TypeDecl) (s : State) : (s.bareAfter closed).isComplete = s.isComplete := by
  unfold State.isComplete State.bareAfter
  cases s.mode <;> simp [Mode.bare]

/-! ## Steps without places -/

variable {closed : List TypeDecl}

namespace State

theorem bareMembers_append (members : List Decl) (d : Decl) :
    bareMembers (members ++ [d]) = bareMembers members ++ [d.bare] := by
  induction members with
  | nil => rfl
  | cons first rest ih => rw [List.cons_append, bareMembers, ih, bareMembers, List.cons_append]

theorem bareAfter_goto (s : State) (mode : Mode) :
    (s.goto mode).bareAfter closed = (s.bareAfter closed).goto mode.bare := rfl

theorem bareAfter_addMember (s : State) (d : Decl) :
    (s.addMember d).bareAfter closed = (s.bareAfter closed).addMember d.bare := by
  obtain ⟨enclosing, types, mode⟩ := s
  cases enclosing with
  | nil => rfl
  | cons t outer => simp [addMember, bareAfter, TypeDecl.bare, bareMembers_append]

theorem bareAfter_endMember (s : State) (d : Decl) :
    (s.endMember d).bareAfter closed = (s.bareAfter closed).endMember d.bare := by
  unfold endMember
  rw [bareAfter_goto, bareAfter_addMember]
  rfl

theorem bareAfter_closeType (s : State) :
    s.closeType.map (bareAfter closed) = (s.bareAfter closed).closeType := by
  obtain ⟨enclosing, types, mode⟩ := s
  rcases enclosing with _ | ⟨t, _ | ⟨other, outer⟩⟩
  · rfl
  · simp [closeType, bareAfter, Mode.bare]
  · simp [closeType, bareAfter, addMember, TypeDecl.bare, bareMembers_append, Decl.bare, Mode.bare]

theorem shiftMember_bareAfter (s : State) (t : Token) :
    (s.shiftMember t).map (bareAfter closed) = (s.bareAfter closed).shiftMember t.bare := by
  obtain ⟨terminal, text, position⟩ := t
  unfold shiftMember Token.bare
  dsimp only
  split
  · rfl
  · rfl
  · rfl
  · rfl
  · exact bareAfter_closeType s
  · rfl

theorem bare_inBody (m : MethodDecl) (names : List String) :
    (inBody m fun body => { body with locals := some names }).bare =
      inBody m.bare fun body => { body with locals := some names } := by
  unfold inBody MethodDecl.bare
  cases m.body <;> rfl

theorem bare_endInstruction (m : MethodDecl) (i : InstructionDecl) (operand : Option OperandText) :
    (endInstruction m i operand).bare = endInstruction m.bare i.bare operand := by
  unfold endInstruction inBody MethodDecl.bare
  cases m.body <;> simp [InstructionDecl.bare]

theorem shiftCode_bareAfter (s : State) (m : MethodDecl) (t : Token) :
    (s.shiftCode m t).map (bareAfter closed) = (s.bareAfter closed).shiftCode m.bare t.bare := by
  obtain ⟨terminal, text, position⟩ := t
  unfold shiftCode Token.bare
  dsimp only
  split
  · rfl
  · exact congrArg some (bareAfter_endMember s (.method m))
  · rfl

theorem bare_addName (l : NameList) (name : String) : (addName l name).bare = addName l.bare name := by
  cases l <;> rfl

theorem bare_endList (l : NameList) : (endList l).bare = endList l.bare := by
  cases l with
  | params m => rfl
  | locals m names => exact congrArg Mode.code (bare_inBody m names)
  | signature m i marked type owner name names => exact congrArg Mode.code (bare_endInstruction m i _)

theorem bareAfter_goto_addName (s : State) (l : NameList) (name : String) :
    (s.goto (.listMore (addName l name))).bareAfter closed =
      (s.bareAfter closed).goto (.listMore (addName l.bare name)) := by
  rw [bareAfter_goto, Mode.bare, bare_addName]

theorem bareAfter_goto_endList (s : State) (l : NameList) :
    (s.goto (endList l)).bareAfter closed = (s.bareAfter closed).goto (endList l.bare) := by
  rw [bareAfter_goto, bare_endList]

theorem bareAfter_goto_endInstruction (s : State) (m : MethodDecl) (i : InstructionDecl) (operand : Option OperandText) :
    (s.goto (.code (endInstruction m i operand))).bareAfter closed =
      (s.bareAfter closed).goto (.code (endInstruction m.bare i.bare operand)) := by
  rw [bareAfter_goto, Mode.bare, bare_endInstruction]

theorem shiftModifier_bareAfter (s : State) (t : Token) (modified named : String → Mode) :
    (s.shiftModifier t modified named).map (bareAfter closed) =
      (s.bareAfter closed).shiftModifier t.bare (fun word => (modified word).bare) fun name => (named name).bare := by
  obtain ⟨terminal, text, position⟩ := t
  cases terminal <;> rfl

/-- **Reading goes on alike without places.** -/
theorem shift_bareAfter (s : State) (t : Token) :
    (s.shift t).map (bareAfter closed) = (s.bareAfter closed).shift t.bare := by
  obtain ⟨enclosing, types, mode⟩ := s
  obtain ⟨terminal, text, position⟩ := t
  cases mode <;> unfold shift
  case members => exact shiftMember_bareAfter _ _
  case typeStart h => exact shiftModifier_bareAfter ⟨enclosing, types, _⟩ _ _ _
  case fieldStart f => exact shiftModifier_bareAfter ⟨enclosing, types, _⟩ _ _ _
  case methodStart m => exact shiftModifier_bareAfter ⟨enclosing, types, _⟩ _ _ _
  case typeNamed h | typeBased h | typeInterfaced h =>
    unfold Token.bare bareAfter Mode.bare
    dsimp only
    split <;> rfl
  case fieldTyped f => exact congrArg some (bareAfter_endMember _ _)
  case accessors d =>
    unfold Token.bare
    dsimp only [bareAfter, Mode.bare]
    split
    · rfl
    · rfl
    · exact congrArg some (bareAfter_endMember ⟨enclosing, types, _⟩ _)
    · rfl
  case methodSigned m =>
    unfold Token.bare
    dsimp only [bareAfter, Mode.bare]
    split
    · show some (bareAfter closed (goto _ (.bodyStart (inBody m id)))) = _
      rw [bareAfter_goto]
      unfold inBody MethodDecl.bare
      cases m.body <;> rfl
    · rw [shiftMember_bareAfter, bareAfter_endMember]
      rfl
  case bodyStart m =>
    unfold Token.bare
    dsimp only [bareAfter, Mode.bare]
    split
    · rfl
    · exact shiftCode_bareAfter ⟨enclosing, types, _⟩ m ⟨terminal, text, position⟩
  case listNext l => exact congrArg some (bareAfter_goto_addName _ l text)
  case listOpen l =>
    unfold Token.bare
    dsimp only [bareAfter, Mode.bare]
    split
    · exact congrArg some (bareAfter_goto_addName ⟨enclosing, types, _⟩ l text)
    · exact congrArg some (bareAfter_goto_endList ⟨enclosing, types, _⟩ l)
    · rfl
  case listMore l =>
    unfold Token.bare
    dsimp only [bareAfter, Mode.bare]
    split
    · rfl
    · exact congrArg some (bareAfter_goto_endList ⟨enclosing, types, _⟩ l)
    · rfl
  case code m => exact shiftCode_bareAfter _ m _
  case operand m i =>
    unfold Token.bare
    dsimp only [bareAfter, Mode.bare]
    split
    · rfl
    · rfl
    · exact congrArg some (bareAfter_goto_endInstruction ⟨enclosing, types, _⟩ m i _)
    · exact congrArg some (bareAfter_goto_endInstruction ⟨enclosing, types, _⟩ m i _)
    · rw [shiftCode_bareAfter, bare_endInstruction]
      rfl
  case operandName m i word =>
    unfold Token.bare
    dsimp only [bareAfter, Mode.bare]
    split
    · rfl
    · rw [shiftCode_bareAfter, bare_endInstruction]
      rfl
  case memberNamed m i marked type owner name =>
    unfold Token.bare
    dsimp only [bareAfter, Mode.bare]
    split
    · rfl
    · rw [shiftCode_bareAfter, bare_endInstruction]
      rfl
  all_goals rfl

/-- States that are the same apart from places, and from types closed before, take the same tokens. -/
theorem exists_shift_of_bareAfter {s s' next : State} (hs : s'.bareAfter [] = s.bareAfter closed) {t t' : Token}
    (ht : t'.bare = t.bare) (h : s.shift t = some next) :
    ∃ next', s'.shift t' = some next' ∧ next'.bareAfter [] = next.bareAfter closed := by
  have hshift : (s'.shift t').map (bareAfter []) = some (next.bareAfter closed) := by
    rw [shift_bareAfter, hs, ht, ← shift_bareAfter, h]
    rfl
  exact Option.map_eq_some_iff.1 hshift

theorem expected_eq_of_bareAfter {s s' : State} (hs : s'.bareAfter [] = s.bareAfter closed) :
    s'.expected = s.expected := by
  rw [← expected_bareAfter [] s', hs, expected_bareAfter]

theorem eq_of_isComplete {s : State} (h : s.isComplete = true) : s = { types := s.types } := by
  obtain ⟨enclosing, types, mode⟩ := s
  cases mode <;> try cases h
  obtain rfl : enclosing = [] := List.isEmpty_iff.1 h
  rfl

theorem eq_of_bareAfter_complete {s s' : State} (hs : s'.bareAfter [] = s.bareAfter closed) (h : s.isComplete = true) :
    s' = { types := s'.types } ∧ s'.types.map TypeDecl.bare = closed ++ s.types.map TypeDecl.bare := by
  have hcomplete : s'.isComplete = true := by
    rw [← isComplete_bareAfter [] s', hs, isComplete_bareAfter, h]
  exact ⟨eq_of_isComplete hcomplete, congrArg State.types hs⟩

end State

end StubClosure.Listing
