import StubClosure.Proofs.Listing.Calls
import StubClosure.Proofs.Listing.Written

/-!
# Every listing is read back

The machine of the grammar goes through the words of a well-formed listing and comes to its tree, with every declaration and instruction at its place in the text (`accepts_types`). There is a rule for each construct of the grammar, and the rule of a construct is put together from those of its parts. Some constructs are over only when something else begins: a method may or may not have a body, an instruction an operand, a member operand parameters. The rules for these look at the state behind the construct as the next word finds it.
-/

namespace StubClosure.Listing

open Word

variable {s : State} {position : Position} {words : List Word} {types : List TypeDecl}

-- Whether a word is expected in a mode is found by writing out the list of what is.
attribute [local simp] Mode.expected memberStarts codeStarts literals

@[simp] theorem expected_goto (s : State) (mode : Mode) :
    (s.goto mode).expected = mode.expected (!s.enclosing.isEmpty) := rfl

/-! ## One word -/

theorem not_isName_of_mem_marks {text : String} (h : text ∈ marks) : ¬ IsName text := by
  obtain ⟨-, -, hname, -⟩ := lexemes_of_mark h []
  rw [List.append_nil] at hname
  intro hn
  cases hname.symm.trans hn

theorem ne_mark {text mark : String} (h : IsName text) (hm : mark ∈ marks) : text ≠ mark :=
  fun he => not_isName_of_mem_marks hm (he ▸ h)

theorem Accepts.fixed {text : String} {next : State} (ht : text ∈ fixedWords) (hE : .literal text ∈ s.expected)
    (hs : s.shift { terminal := .literal text, text, position } = some next)
    (h : Accepts next (position.past (fixed text)) words types) :
    Accepts s position (fixed text :: words) types :=
  .word (.fixed ht) ⟨hE, by rintro ⟨⟩⟩ hs h

theorem Accepts.name {text : String} {next : State} (hn : IsName text) (hE : .name ∈ s.expected)
    (hnot : .literal text ∉ s.expected) (hs : s.shift { terminal := .name, text, position } = some next)
    (h : Accepts next (position.past (ofName text)) words types) :
    Accepts s position (ofName text :: words) types :=
  .word (.name hn) ⟨hE, fun _ => hnot⟩ hs h

theorem Accepts.member {text : String} {next : State} (hn : IsMemberName text)
    (hE : s.expected = [.name, .constructorName])
    (hs : ∀ terminal, s.shift { terminal, text, position } = some next)
    (h : Accepts next (position.past (ofMember text)) words types) :
    Accepts s position (ofMember text :: words) types := by
  unfold ofMember at h ⊢
  split at h
  next hc =>
    rw [if_pos hc]
    exact .word (.constructorName hc) ⟨by simp [hE], by rintro ⟨⟩⟩ (hs _) h
  next hc =>
    rw [if_neg hc]
    exact .name (hn.resolve_right hc) (by simp [hE]) (by simp [hE]) (hs _) h

/-! ## Modifiers and lists of names -/

theorem accepts_modifiers (mode : List String → Mode)
    (hE : ∀ before, (s.goto (mode before)).expected = .name :: literals modifiers)
    (hshift : ∀ before word position, (s.goto (mode before)).shift { terminal := .literal word, text := word, position } =
      some (s.goto (mode (before ++ [word]))))
    {more : List String} (hm : ∀ word ∈ more, word ∈ modifiers) {before : List String}
    (h : Accepts (s.goto (mode (before ++ more))) (position.pastAll (more.map fixed)) words types) :
    Accepts (s.goto (mode before)) position (more.map fixed ++ words) types := by
  induction more generalizing before position with
  | nil => simpa using h
  | cons word rest ih =>
    have hword := hm word List.mem_cons_self
    have hfixed : word ∈ fixedWords := List.mem_append_right _ hword
    refine .fixed hfixed ?_ (hshift before word position) ?_
    · rw [hE]
      simpa using hword
    · refine ih (fun other ho => hm other (List.mem_cons_of_mem _ ho)) ?_
      simpa using h

theorem accepts_moreNames (next more : List String → Mode)
    (hcommaE : ∀ names, .literal "," ∈ (s.goto (more names)).expected)
    (hnameE : ∀ names, (s.goto (next names)).expected = [.name])
    (hcomma : ∀ names position, (s.goto (more names)).shift { terminal := .literal ",", text := ",", position } =
      some (s.goto (next names)))
    (hname : ∀ names text position, (s.goto (next names)).shift { terminal := .name, text, position } =
      some (s.goto (more (names ++ [text]))))
    {rest : List String} (hn : ∀ text ∈ rest, IsName text) (names : List String)
    (h : Accepts (s.goto (more (names ++ rest))) (position.pastAll (moreNames rest)) words types) :
    Accepts (s.goto (more names)) position (moreNames rest ++ words) types := by
  induction rest generalizing names position with
  | nil => simpa [moreNames] using h
  | cons text rest ih =>
    have hwords : moreNames (text :: rest) = fixed "," :: ofName text :: moreNames rest := rfl
    rw [hwords] at h ⊢
    refine .fixed (by decide) (hcommaE names) (hcomma names position) ?_
    refine .name (hn text List.mem_cons_self) (by simp [hnameE]) (by simp [hnameE]) (hname names text _) ?_
    refine ih (fun other ho => hn other (List.mem_cons_of_mem _ ho)) (names ++ [text]) ?_
    simpa using h

open State in
theorem accepts_inParens {mode : Mode} {l : NameList} (hE : .literal "(" ∈ (s.goto mode).expected)
    (hs : ∀ position, (s.goto mode).shift { terminal := .literal "(", text := "(", position } =
      some (s.goto (.listOpen l)))
    {names : List String} (hn : ∀ text ∈ names, IsName text)
    (h : Accepts (s.goto (endList (names.foldl addName l))) (position.pastAll (inParens names)) words types) :
    Accepts (s.goto mode) position (inParens names ++ words) types := by
  simp only [inParens, List.cons_append, List.append_assoc, pastAll_cons, pastAll_append] at h ⊢
  refine .fixed (by decide) hE (hs position) ?_
  cases names with
  | nil => exact .fixed (by decide) (by simp) rfl h
  | cons text rest =>
    have hname := hn text List.mem_cons_self
    have hrest : ∀ other ∈ rest, IsName other := fun other ho => hn other (List.mem_cons_of_mem _ ho)
    have hclose := ne_mark hname (show ")" ∈ marks by decide)
    rw [nameList, List.cons_append]
    rw [nameList, pastAll_cons] at h
    refine .name hname (by simp) (by simp [hclose]) rfl ?_
    refine accepts_moreNames (fun names => .listNext (names.foldl addName l))
      (fun names => .listMore (names.foldl addName l)) ?_ ?_ ?_ ?_ hrest [text] ?_
    · simp
    · simp
    · exact fun names position => rfl
    · intro names text position
      rw [List.foldl_append]
      rfl
    · exact .fixed (by decide) (by simp) rfl h

/-! ## What is over only with the next word -/

theorem endMember_goto (s : State) (mode : Mode) (d : Decl) : (s.goto mode).endMember d = s.endMember d := by
  obtain ⟨enclosing, closed, _⟩ := s
  cases enclosing <;> rfl

theorem shiftCode_goto (s : State) (mode : Mode) (m : MethodDecl) (t : Token) :
    (s.goto mode).shiftCode m t = s.shiftCode m t := by
  unfold State.shiftCode
  rw [endMember_goto]
  rfl

/-- A construct is over if what comes next is read as in the state behind it. -/
theorem Accepts.over {later : State} (h : Accepts later position words types) (hmore : later.isComplete = false)
    (hE : ∀ terminal ∈ later.expected, terminal ≠ .name ∧ terminal ∈ s.expected)
    (hs : ∀ t : Token, t.terminal ∈ later.expected → s.shift t = later.shift t) : Accepts s position words types := by
  cases h with
  | ended h =>
    rw [hmore] at h
    cases h
  | word hw hf hnext h =>
    obtain ⟨hname, hmem⟩ := hE _ hf.1
    exact .word hw ⟨hmem, fun hn => absurd hn hname⟩ ((hs _ hf.1).trans hnext) h

/-- The next instruction, and the end of the body, find the code so far to be that of the given method. -/
theorem accepts_code {mode : Mode} {m : MethodDecl} (hE : codeStarts ⊆ (s.goto mode).expected)
    (hshift : ∀ t : Token, t.terminal = .label ∨ t.terminal = .literal "\x7d" →
      (s.goto mode).shift t = (s.goto mode).shiftCode m t)
    (h : Accepts (s.goto (.code m)) position words types) : Accepts (s.goto mode) position words types := by
  refine h.over rfl (fun terminal hmem => ⟨?_, hE hmem⟩) (fun t hmem => ?_)
  · rintro rfl
    exact absurd hmem (show .name ∉ codeStarts by decide)
  · have hstart : t.terminal = .label ∨ t.terminal = .literal "\x7d" := by
      simpa using hmem
    rw [hshift t hstart, shiftCode_goto]
    exact (shiftCode_goto s _ m t).symm

/-! ## Instructions -/

section
open State

theorem foldl_addName_params (m : MethodDecl) (names : List String) :
    names.foldl addName (.params m) = .params { m with params := m.params ++ names } := by
  induction names generalizing m with
  | nil => simp
  | cons text rest ih => simp [addName, ih]

theorem foldl_addName_locals (m : MethodDecl) (before names : List String) :
    names.foldl addName (.locals m before) = .locals m (before ++ names) := by
  induction names generalizing before with
  | nil => simp
  | cons text rest ih => simp [addName, ih]

theorem foldl_addName_signature (m : MethodDecl) (i : InstructionDecl) (marked : Bool) (type owner called : String)
    (before names : List String) : names.foldl addName (.signature m i marked type owner called before) =
      .signature m i marked type owner called (before ++ names) := by
  induction names generalizing before with
  | nil => simp
  | cons text rest ih => simp [addName, ih]

variable {m : MethodDecl} {i : InstructionDecl}

theorem accepts_colons {marked : Bool} {type owner called : String} {params : Option (List String)}
    (hcalled : IsMemberName called) (hparams : ∀ names ∈ params, ∀ text ∈ names, IsName text)
    (h : Accepts (s.goto (.code (endInstruction m i (some (.member marked type owner called params)))))
      (position.pastAll (fixed "::" :: ofMember called :: params.elim [] inParens)) words types) :
    Accepts (s.goto (.memberColons m i marked type owner)) position
      (fixed "::" :: ofMember called :: (params.elim [] inParens ++ words)) types := by
  refine .fixed (by decide) (by simp) rfl ?_
  have hname : ∀ terminal position, (s.goto (.memberName m i marked type owner)).shift
      { terminal, text := called, position } = some (s.goto (.memberNamed m i marked type owner called)) :=
    fun _ _ => rfl
  refine .member hcalled (by simp) (fun terminal => hname terminal _) ?_
  cases params with
  | none =>
    refine accepts_code ?_ ?_ h
    · simp
    · rintro ⟨_, _, _⟩ (rfl | rfl) <;> rfl
  | some names =>
    have hopen : ∀ position, (s.goto (.memberNamed m i marked type owner called)).shift
        { terminal := .literal "(", text := "(", position } =
          some (s.goto (.listOpen (.signature m i marked type owner called []))) := fun _ => rfl
    refine accepts_inParens (by simp) hopen (hparams names rfl) ?_
    rw [foldl_addName_signature]
    exact h

theorem accepts_operand {operand : Option OperandText} (ho : ∀ o ∈ operand, o.WellFormed)
    (h : Accepts (s.goto (.code (endInstruction m i operand))) (position.pastAll (operand.elim [] OperandText.words))
      words types) :
    Accepts (s.goto (.operand m i)) position (operand.elim [] OperandText.words ++ words) types := by
  cases operand with
  | none =>
    refine accepts_code ?_ ?_ h
    · simp
    · rintro ⟨_, _, _⟩ (rfl | rfl) <;> rfl
  | some operand =>
    have hwell := ho operand rfl
    cases operand with
    | number digits => exact .word (.number hwell) ⟨by simp, by rintro ⟨⟩⟩ rfl h
    | string quoted => exact .word (.string hwell) ⟨by simp, by rintro ⟨⟩⟩ rfl h
    | name word =>
      obtain ⟨hn, hinstance⟩ := hwell
      have hbrace := ne_mark hn (show "\x7d" ∈ marks by decide)
      refine .name hn (by simp) (by simp [hinstance, hbrace]) rfl ?_
      refine accepts_code ?_ ?_ h
      · simp
      · rintro ⟨_, _, _⟩ (rfl | rfl) <;> rfl
    | member marked type owner called params =>
      obtain ⟨htype, hinstance, howner, hcalled, hparams⟩ := hwell
      cases marked with
      | true =>
        have hwords : (OperandText.member true type owner called params).words = fixed "instance" :: ofName type ::
            ofName owner :: fixed "::" :: ofMember called :: params.elim [] inParens := rfl
        rw [Option.elim_some, hwords] at h ⊢
        rw [pastAll_cons, pastAll_cons, pastAll_cons] at h
        refine .fixed (by decide) (by simp) rfl ?_
        refine .name htype (by simp) (by simp) rfl ?_
        refine .name howner (by simp) (by simp) rfl ?_
        exact accepts_colons hcalled hparams h
      | false =>
        have htypeBrace := ne_mark htype (show "\x7d" ∈ marks by decide)
        have hownerBrace := ne_mark howner (show "\x7d" ∈ marks by decide)
        have hwords : (OperandText.member false type owner called params).words = ofName type :: ofName owner ::
            fixed "::" :: ofMember called :: params.elim [] inParens := rfl
        rw [Option.elim_some, hwords] at h ⊢
        rw [pastAll_cons, pastAll_cons] at h
        refine .name htype (by simp) (by simp [hinstance rfl, htypeBrace]) rfl ?_
        refine .name howner (by simp) (by simp [hownerBrace]) rfl ?_
        exact accepts_colons hcalled hparams h

theorem accepts_instruction {b : BodyDecl} (hi : i.WellFormed)
    (h : Accepts (s.goto (.code { m with body := some { b with instructions := b.instructions ++ [{ i with position }] } }))
      (position.pastAll i.words) words types) :
    Accepts (s.goto (.code { m with body := some b })) position (i.words ++ words) types := by
  refine .word (.label hi.label) ⟨by simp, by rintro ⟨⟩⟩ rfl ?_
  refine .name hi.mnemonic (by simp) (by simp) rfl ?_
  exact accepts_operand hi.operand h

theorem accepts_instructions {b : BodyDecl} {instructions : List InstructionDecl}
    (hi : ∀ i ∈ instructions, i.WellFormed)
    (h : Accepts (s.goto (.code { m with
        body := some { b with instructions := b.instructions ++ placeInstructions position instructions } }))
      (position.pastAll (instructions.flatMap InstructionDecl.words)) words types) :
    Accepts (s.goto (.code { m with body := some b })) position
      (instructions.flatMap InstructionDecl.words ++ words) types := by
  induction instructions generalizing b position with
  | nil => simpa [placeInstructions] using h
  | cons i rest ih =>
    rw [List.flatMap_cons, List.append_assoc]
    rw [List.flatMap_cons, pastAll_append] at h
    refine accepts_instruction (hi i List.mem_cons_self) ?_
    refine ih (fun other ho => hi other (List.mem_cons_of_mem _ ho)) ?_
    rw [placeInstructions] at h
    simpa using h

/-! ## Bodies and methods -/

theorem accepts_bodyStart {b : BodyDecl} (hl : ∀ names ∈ b.locals, ∀ text ∈ names, IsName text)
    (h : Accepts (s.goto (.code { m with body := some { locals := b.locals } })) (position.pastAll b.start) words types) :
    Accepts (s.goto (.methodSigned { m with body := none })) position (b.start ++ words) types := by
  unfold BodyDecl.start at h ⊢
  rw [List.cons_append]
  rw [pastAll_cons] at h
  refine .fixed (by decide) (by simp) rfl ?_
  cases hlocals : b.locals with
  | none =>
    rw [hlocals] at h
    refine accepts_code ?_ ?_ h
    · simp
    · rintro ⟨_, _, _⟩ (rfl | rfl) <;> rfl
  | some names =>
    rw [hlocals, Option.elim_some, pastAll_cons] at h
    rw [Option.elim_some, List.cons_append]
    refine .fixed (by decide) (by simp) rfl ?_
    have hopen : ∀ position, (s.goto (.localsStart { m with body := some {} })).shift
        { terminal := .literal "(", text := "(", position } =
          some (s.goto (.listOpen (.locals { m with body := some {} } []))) := fun _ => rfl
    refine accepts_inParens (by simp) hopen (hl names hlocals) ?_
    rw [foldl_addName_locals]
    exact h

theorem accepts_body {b : BodyDecl} (hl : ∀ names ∈ b.locals, ∀ text ∈ names, IsName text)
    (hi : ∀ i ∈ b.instructions, i.WellFormed)
    (h : Accepts (s.endMember (.method { m with body := some (b.place position) })) (position.pastAll b.words) words types) :
    Accepts (s.goto (.methodSigned { m with body := none })) position (b.words ++ words) types := by
  unfold BodyDecl.words at h ⊢
  rw [List.append_assoc, List.append_assoc]
  rw [pastAll_append, pastAll_append] at h
  refine accepts_bodyStart hl (accepts_instructions hi ?_)
  refine .fixed (by decide) (by simp) (congrArg some (endMember_goto s _ _)) ?_
  exact h

theorem accepts_signed (hopen : s.enclosing ≠ []) (h : Accepts (s.endMember (.method m)) position words types) :
    Accepts (s.goto (.methodSigned m)) position words types := by
  obtain ⟨_ | ⟨t, outer⟩, closed, mode⟩ := s
  · exact absurd rfl hopen
  · refine h.over rfl (fun terminal hmem => ⟨?_, List.mem_cons_of_mem _ hmem⟩) (fun next hmem => ?_)
    · rintro rfl
      exact absurd hmem (show .name ∉ memberStarts by decide)
    · obtain ⟨terminal, text, place⟩ := next
      have hstart : terminal ∈ memberStarts := hmem
      simp only [memberStarts, literals, List.map_cons, List.map_nil, List.mem_cons, List.not_mem_nil, or_false] at hstart
      rcases hstart with rfl | rfl | rfl | rfl | rfl <;> rfl

theorem accepts_methodStart (hopen : s.enclosing ≠ []) (hm : m.WellFormed)
    (h : Accepts (s.goto (.methodSigned { m with position, body := none })) (position.pastAll m.start) words types) :
    Accepts (s.goto .members) position (m.start ++ words) types := by
  simp only [MethodDecl.start, List.cons_append, List.append_assoc, pastAll_cons, pastAll_append] at h ⊢
  refine .fixed (by decide) (by simp [hopen]) rfl ?_
  refine accepts_modifiers (fun before => .methodStart { position, modifiers := before }) ?_ ?_ hm.modifiers ?_
  · exact fun before => rfl
  · exact fun before word position => rfl
  · have hreturns := hm.returns.2
    refine .name hm.returns.1 (by simp) (by simpa using hreturns) rfl ?_
    have hname : ∀ terminal place, (s.goto (.methodTyped { position, modifiers := m.modifiers, returns := m.returns })).shift
        { terminal, text := m.name, position := place } =
          some (s.goto (.methodNamed { position, modifiers := m.modifiers, returns := m.returns, name := m.name })) :=
      fun _ _ => rfl
    refine .member hm.name rfl (fun terminal => hname terminal _) ?_
    refine accepts_inParens (by simp) (fun position => rfl) hm.params ?_
    rw [foldl_addName_params]
    exact h

theorem accepts_method (hopen : s.enclosing ≠ []) (hm : m.WellFormed)
    (h : Accepts (s.endMember (.method (m.place position))) (position.pastAll m.words) words types) :
    Accepts (s.goto .members) position (m.words ++ words) types := by
  unfold MethodDecl.words at h ⊢
  rw [List.append_assoc]
  rw [pastAll_append] at h
  refine accepts_methodStart hopen hm ?_
  unfold MethodDecl.place at h
  cases hb : m.body with
  | none =>
    rw [hb] at h
    exact accepts_signed hopen h
  | some b =>
    rw [hb] at h
    exact accepts_body (m := { m with position }) (hm.locals b hb) (hm.instructions b hb) h

/-! ## Fields and properties -/

theorem accepts_field (hopen : s.enclosing ≠ []) {f : FieldDecl} (hf : f.WellFormed)
    (h : Accepts (s.endMember (.field { f with position })) (position.pastAll f.words) words types) :
    Accepts (s.goto .members) position (f.words ++ words) types := by
  simp only [FieldDecl.words, List.cons_append, List.append_assoc, pastAll_cons, pastAll_append] at h ⊢
  refine .fixed (by decide) (by simp [hopen]) rfl ?_
  refine accepts_modifiers (fun before => .fieldStart { position, modifiers := before }) ?_ ?_ hf.modifiers ?_
  · exact fun before => rfl
  · exact fun before word position => rfl
  · have htype := hf.type.2
    refine .name hf.type.1 (by simp) (by simpa using htype) rfl ?_
    exact .name hf.name (by simp) (by simp) (congrArg some (endMember_goto s _ _)) h

theorem accepts_accessors {d : PropertyDecl} {accessors : List Accessor} (ha : ∀ a ∈ accessors, IsName a.method)
    (h : Accepts (s.goto (.accessors { d with accessors := d.accessors ++ accessors }))
      (position.pastAll (accessors.flatMap Accessor.words)) words types) :
    Accepts (s.goto (.accessors d)) position (accessors.flatMap Accessor.words ++ words) types := by
  induction accessors generalizing d position with
  | nil => simpa using h
  | cons a rest ih =>
    have hname := ha a List.mem_cons_self
    have hrest : ∀ other ∈ rest, IsName other.method := fun other ho => ha other (List.mem_cons_of_mem _ ho)
    rw [List.flatMap_cons, List.append_assoc]
    rw [List.flatMap_cons, pastAll_append] at h
    cases a with
    | getter method =>
      refine .fixed (by decide) (by simp) rfl ?_
      refine .name hname (by simp) (by simp) rfl (ih hrest ?_)
      simpa [Accessor.words] using h
    | setter method =>
      refine .fixed (by decide) (by simp) rfl ?_
      refine .name hname (by simp) (by simp) rfl (ih hrest ?_)
      simpa [Accessor.words] using h

theorem accepts_property (hopen : s.enclosing ≠ []) {d : PropertyDecl} (hd : d.WellFormed)
    (h : Accepts (s.endMember (.property { d with position })) (position.pastAll d.words) words types) :
    Accepts (s.goto .members) position (d.words ++ words) types := by
  simp only [PropertyDecl.words, List.cons_append, List.append_assoc, pastAll_cons, pastAll_append] at h ⊢
  refine .fixed (by decide) (by simp [hopen]) rfl ?_
  refine .name hd.type (by simp) (by simp) rfl ?_
  refine .name hd.name (by simp) (by simp) rfl ?_
  refine .fixed (by decide) (by simp) rfl ?_
  refine accepts_accessors hd.accessors ?_
  exact .fixed (by decide) (by simp) (congrArg some (endMember_goto s _ _)) h

/-! ## Types -/

theorem accepts_interfaces {h : TypeHead} (hh : ∀ text ∈ h.interfaces, IsName text) (hne : h.interfaces ≠ [])
    (ha : Accepts (s.openType h) (position.pastAll (nameList h.interfaces ++ [fixed "\x7b"])) words types) :
    Accepts (s.goto (.typeInterface { h with interfaces := [] })) position
      (nameList h.interfaces ++ ([fixed "\x7b"] ++ words)) types := by
  cases hi : h.interfaces with
  | nil => exact absurd hi hne
  | cons first rest =>
    rw [hi] at hh ha
    rw [nameList, List.cons_append, pastAll_cons, pastAll_append] at ha
    rw [nameList, List.cons_append]
    have hrest : ∀ other ∈ rest, IsName other := fun other ho => hh other (List.mem_cons_of_mem _ ho)
    refine .name (hh first List.mem_cons_self) (by simp) (by simp) rfl ?_
    refine accepts_moreNames (fun names => .typeInterface { h with interfaces := names })
      (fun names => .typeInterfaced { h with interfaces := names }) ?_ ?_ ?_ ?_ hrest [first] ?_
    · simp
    · simp
    · exact fun names position => rfl
    · exact fun names text position => rfl
    · refine .fixed (by decide) (by simp) rfl ?_
      have hsame : { h with interfaces := [first] ++ rest } = h := by
        rw [List.singleton_append, ← hi]
      rw [hsame]
      exact ha

theorem accepts_implements {mode : Mode} {h : TypeHead} (hh : ∀ text ∈ h.interfaces, IsName text)
    (hE : literals ["implements", "\x7b"] ⊆ (s.goto mode).expected)
    (himplements : ∀ position, (s.goto mode).shift { terminal := .literal "implements", text := "implements", position } =
      some (s.goto (.typeInterface { h with interfaces := [] })))
    (hbrace : ∀ position, (s.goto mode).shift { terminal := .literal "\x7b", text := "\x7b", position } =
      some (s.openType { h with interfaces := [] }))
    (ha : Accepts (s.openType h) (position.pastAll
      ((if h.interfaces = [] then [] else fixed "implements" :: nameList h.interfaces) ++ [fixed "\x7b"])) words types) :
    Accepts (s.goto mode) position
      ((if h.interfaces = [] then [] else fixed "implements" :: nameList h.interfaces) ++ ([fixed "\x7b"] ++ words))
      types := by
  by_cases hi : h.interfaces = []
  · rw [if_pos hi] at ha ⊢
    have hsame : { h with interfaces := [] } = h := by rw [← hi]
    rw [hsame] at hbrace
    exact .fixed (by decide) (hE (by simp)) (hbrace position) ha
  · rw [if_neg hi] at ha ⊢
    rw [List.cons_append]
    rw [List.cons_append, pastAll_cons] at ha
    exact .fixed (by decide) (hE (by simp)) (himplements position) (accepts_interfaces hh hi ha)

theorem accepts_head {h : TypeHead} (hh : h.WellFormed)
    (ha : Accepts (s.openType { h with position }) (position.pastAll h.words) words types) :
    Accepts (s.goto .members) position (h.words ++ words) types := by
  obtain ⟨_, modifiers, name, base, interfaces⟩ := h
  unfold TypeHead.words at ha ⊢
  rw [List.cons_append, List.append_assoc, List.cons_append, List.append_assoc, List.append_assoc]
  rw [pastAll_cons, pastAll_append, pastAll_cons, pastAll_append] at ha
  have hclass : .literal ".class" ∈ (s.goto .members).expected := by
    rw [expected_goto, Mode.expected]
    split <;> simp
  refine .fixed (by decide) hclass rfl ?_
  refine accepts_modifiers (fun before => .typeStart { position, modifiers := before }) ?_ ?_ hh.modifiers ?_
  · exact fun before => rfl
  · exact fun before word position => rfl
  · have hname := hh.name.2
    refine .name hh.name.1 (by simp) (by simpa using hname) rfl ?_
    cases base with
    | none =>
      refine accepts_implements (h := { position, modifiers, name, interfaces }) hh.interfaces ?_ (fun place => rfl)
        (fun place => rfl) ha
      simp
    | some base =>
      have hbase := hh.base base rfl
      refine .fixed (by decide) (by simp) rfl ?_
      refine .name hbase (by simp) (by simp) rfl ?_
      refine accepts_implements (h := { position, modifiers, name, base := some base, interfaces }) hh.interfaces ?_
        (fun place => rfl) (fun place => rfl) ha
      simp

end

/-! ## Members of every kind -/

/-- Inside the braces of a type, as far as it has been read. -/
def inside (s : State) (t : TypeDecl) : State where
  enclosing := t :: s.enclosing
  types := s.types
  mode := .members

mutual

/-- **Each declaration** becomes a member of the type around it, at its place. -/
theorem accepts_decl (s : State) (t : TypeDecl) (position : Position) (words : List Word) : ∀ d : Decl, d.WellFormed →
    Accepts (inside s { t with members := t.members ++ [d.place position] }) (position.pastAll d.words) words types →
      Accepts (inside s t) position (d.words ++ words) types
  | .field f, hf, h => accepts_field (s := inside s t) (List.cons_ne_nil _ _) hf h
  | .property d, hd, h => accepts_property (s := inside s t) (List.cons_ne_nil _ _) hd h
  | .method m, hm, h => accepts_method (s := inside s t) (List.cons_ne_nil _ _) hm h
  | .type head members, hd, h => by
    obtain ⟨hh, hm⟩ := hd
    rw [Decl.words] at h ⊢
    rw [List.append_assoc, List.append_assoc]
    rw [pastAll_append, pastAll_append] at h
    refine accepts_head (s := inside s t) hh ?_
    refine accepts_members (inside s t) { head := { head with position } } _ _ members hm ?_
    refine .fixed (by decide) ?_ rfl h
    simp [inside, State.expected]

theorem accepts_members (s : State) (t : TypeDecl) (position : Position) (words : List Word) : ∀ members : List Decl,
    MembersWellFormed members →
    Accepts (inside s { t with members := t.members ++ placeMembers position members })
      (position.pastAll (memberWords members)) words types →
      Accepts (inside s t) position (memberWords members ++ words) types
  | [], _, h => by simpa [placeMembers, memberWords] using h
  | d :: rest, hd, h => by
    rw [memberWords] at h ⊢
    rw [List.append_assoc]
    rw [pastAll_append, placeMembers] at h
    refine accepts_decl s t position _ d hd.1 ?_
    refine accepts_members s _ _ _ rest hd.2 ?_
    simpa using h

end

/-! ## Listings -/

theorem accepts_type {t : TypeDecl} (ht : t.WellFormed) {closed : List TypeDecl}
    (h : Accepts { types := closed ++ [t.place position] } (position.pastAll t.words) words types) :
    Accepts { types := closed } position (t.words ++ words) types := by
  unfold TypeDecl.words at h ⊢
  rw [List.append_assoc, List.append_assoc]
  rw [pastAll_append, pastAll_append] at h
  refine accepts_head (s := { types := closed }) ht.1 ?_
  refine accepts_members { types := closed } { head := { t.head with position } } _ _ t.members ht.2 ?_
  refine .fixed (by decide) ?_ rfl h
  simp [inside, State.expected]

theorem accepts_types {list : List TypeDecl} (hl : ∀ t ∈ list, t.WellFormed) (closed : List TypeDecl)
    (position : Position) : Accepts { types := closed } position (list.flatMap TypeDecl.words)
      (closed ++ placeTypes position list) := by
  induction list generalizing closed position with
  | nil =>
    rw [placeTypes, List.append_nil]
    exact .ended rfl
  | cons t rest ih =>
    have hrest := ih (fun other ho => hl other (List.mem_cons_of_mem _ ho)) (closed ++ [t.place position])
      (position.pastAll t.words)
    rw [List.append_assoc] at hrest
    exact accepts_type (hl t List.mem_cons_self) hrest

theorem parse_text {list : List TypeDecl} (hl : ∀ t ∈ list, t.WellFormed) :
    parse (text list) = .ok (placeTypes {} list) := by
  have haccepts := accepts_types hl [] {}
  unfold parse text
  rw [toList_joinWith]
  exact runFrom_of_accepts haccepts {}

/-- **Every listing is read back.** The text of a well-formed listing, its words separated by single blanks, is read as its tree, in which nothing but places has changed. So loading it comes to what the calls come to that its types make, made in the order of the reader. -/
theorem load_text {list : List TypeDecl} (hl : ∀ t ∈ list, t.WellFormed) (name : String) (file : Option String) :
    parse (text list) = .ok (placeTypes {} list) ∧
    (placeTypes {} list).map TypeDecl.bare = list.map TypeDecl.bare ∧
    load (text list) name file =
      (makeAll file (calls file (placeTypes {} list)) { name }).map Program.resolveOperands := by
  refine ⟨parse_text hl, bare_placeTypes {} list, ?_⟩
  unfold load
  rw [parse_text hl]
  exact elaborate_eq name (placeTypes {} list)

/-- A listing in writing loads, and what is loaded can be computed from its calls. -/
theorem exists_load_text {list : List TypeDecl} (hl : ∀ t ∈ list, t.WellFormed) {name : String} {file : Option String}
    {made : List Call} (hc : calls file (placeTypes {} list) = made) {P : Program → Prop} [DecidablePred P]
    (h : (makeAll file made { name }).toOption.any (fun p => P p.resolveOperands) = true) :
    ∃ p, load (text list) name file = .ok p ∧ P p := by
  unfold load
  rw [parse_text hl]
  dsimp only
  rw [elaborate_eq, hc]
  cases hm : makeAll file made { name } with
  | error e =>
    rw [hm] at h
    cases h
  | ok p =>
    rw [hm] at h
    exact ⟨p.resolveOperands, rfl, of_decide_eq_true h⟩

/-- A type with a property, the method that reads it and an inner type. -/
def shop : List TypeDecl :=
  [{ head := { position := {}, modifiers := ["public"], name := "Shop", base := some "Base", interfaces := ["I", "J"] }
     members :=
      [.property { position := {}, type := "int32", name := "Total", accessors := [.getter "Sum"] },
       .method
        { position := {}, returns := "int32", name := "Sum", params := []
          body := some
            { locals := some ["int32"]
              instructions :=
                [{ position := {}, label := "IL_0:", mnemonic := "call"
                   operand := some (.member false "int32" "Base" "Sum" (some [])) },
                 { position := {}, label := "IL_5:", mnemonic := "ret" }] } },
       .type { position := {}, modifiers := ["nested"], name := "Inner" } []] }]

theorem load_text_shop :
    (∀ t ∈ shop, t.WellFormed) ∧
    text shop = ".class public Shop extends Base implements I , J \x7b .property int32 Total \x7b .get Sum \x7d " ++
      ".method int32 Sum ( ) \x7b .locals ( int32 ) IL_0: call int32 Base :: Sum ( ) IL_5: ret \x7d " ++
      ".class nested Inner \x7b \x7d \x7d" ∧
    parse (text shop) = .ok (placeTypes {} shop) ∧
    (placeTypes {} shop).map TypeDecl.bare = shop.map TypeDecl.bare ∧
    load (text shop) "shop" none =
      (makeAll none (calls none (placeTypes {} shop)) { name := "shop" }).map Program.resolveOperands := by
  have hl : ∀ t ∈ shop, t.WellFormed := by decide +kernel
  refine ⟨hl, ?_, load_text hl "shop" none⟩
  decide +kernel

end StubClosure.Listing
