import StubClosure.Proofs.Listing.Accepted

/-!
# What is read is well-formed

The trees of the reader are well-formed: every name in one is a name, every label a label, and no name stands where it would be taken for a modifier. In every mode the machine knows this of what it has read so far, and each word keeps it so (`State.WellFormed.shift`). A tree that is not complete yet is told by what it comes to with any fitting names in the places that are left.

With `parse_text` this says that well-formed trees are just those that the reader makes of texts, places apart.
-/

namespace StubClosure.Listing

/-! ## Well-formed so far -/

/-- A body whose locals are names and whose instructions are well-formed. -/
structure BodyDecl.WellFormed (b : BodyDecl) : Prop where
  locals : ∀ names ∈ b.locals, ∀ text ∈ names, IsName text
  instructions : ∀ i ∈ b.instructions, i.WellFormed

def NameList.WellFormed : NameList → Prop
  | .params m => m.WellFormed
  | .locals m names => m.WellFormed ∧ ∀ text ∈ names, IsName text
  | .signature m i marked type owner name names =>
    m.WellFormed ∧ i.WellFormed ∧ (OperandText.member marked type owner name (some names)).WellFormed

/-- What has been read in a mode is well-formed as far as it goes. -/
def Mode.WellFormed : Mode → Prop
  | .members => True
  | .typeStart h => ∀ name, IsPlainName name → { h with name }.WellFormed
  | .typeNamed h | .typeBase h | .typeBased h | .typeInterface h | .typeInterfaced h => h.WellFormed
  | .fieldStart f => ∀ type name, IsPlainName type → IsName name → { f with type, name }.WellFormed
  | .fieldTyped f => ∀ name, IsName name → { f with name }.WellFormed
  | .propertyStart p => ∀ type name, IsName type → IsName name → { p with type, name }.WellFormed
  | .propertyTyped p => ∀ name, IsName name → { p with name }.WellFormed
  | .propertyNamed p | .accessors p => p.WellFormed
  | .accessorName p accessor => p.WellFormed ∧ ∀ method, (accessor method).method = method
  | .methodStart m => ∀ returns name, IsPlainName returns → IsMemberName name → { m with returns, name }.WellFormed
  | .methodTyped m => ∀ name, IsMemberName name → { m with name }.WellFormed
  | .methodNamed m | .methodSigned m | .bodyStart m | .localsStart m | .code m => m.WellFormed
  | .listOpen l | .listNext l | .listMore l => l.WellFormed
  | .mnemonic m i => m.WellFormed ∧ ∀ mnemonic, IsName mnemonic → { i with mnemonic }.WellFormed
  | .operand m i | .memberType m i => m.WellFormed ∧ i.WellFormed
  | .memberOwner m i type => m.WellFormed ∧ i.WellFormed ∧ IsName type
  | .operandName m i word => m.WellFormed ∧ i.WellFormed ∧ (OperandText.name word).WellFormed
  | .memberColons m i marked type owner | .memberName m i marked type owner =>
    m.WellFormed ∧ i.WellFormed ∧ IsName type ∧ (marked = false → type ≠ "instance") ∧ IsName owner
  | .memberNamed m i marked type owner name =>
    m.WellFormed ∧ i.WellFormed ∧ (OperandText.member marked type owner name none).WellFormed

structure State.WellFormed (s : State) : Prop where
  enclosing : ∀ t ∈ s.enclosing, t.WellFormed
  types : ∀ t ∈ s.types, t.WellFormed
  mode : s.mode.WellFormed

/-! ## Parts of trees -/

theorem membersWellFormed_append {members more : List Decl} :
    MembersWellFormed (members ++ more) ↔ MembersWellFormed members ∧ MembersWellFormed more := by
  induction members with
  | nil => exact (true_and _).symm.to_iff
  | cons d rest ih =>
    show d.WellFormed ∧ MembersWellFormed (rest ++ more) ↔ (d.WellFormed ∧ MembersWellFormed rest) ∧ _
    rw [ih, and_assoc]

namespace State

variable {s : State} {m : MethodDecl} {i : InstructionDecl}

theorem WellFormed.goto (hs : s.WellFormed) {mode : Mode} (hm : mode.WellFormed) : (s.goto mode).WellFormed :=
  ⟨hs.enclosing, hs.types, hm⟩

theorem WellFormed.addMember (hs : s.WellFormed) {d : Decl} (hd : d.WellFormed) : (s.addMember d).WellFormed := by
  obtain ⟨enclosing, types, mode⟩ := s
  cases enclosing with
  | nil => exact hs
  | cons t outer =>
    have henclosing := List.forall_mem_cons.1 hs.enclosing
    have hmembers : MembersWellFormed (t.members ++ [d]) := membersWellFormed_append.2 ⟨henclosing.1.2, hd, trivial⟩
    exact ⟨List.forall_mem_cons.2 ⟨⟨henclosing.1.1, hmembers⟩, henclosing.2⟩, hs.types, hs.mode⟩

theorem WellFormed.endMember (hs : s.WellFormed) {d : Decl} (hd : d.WellFormed) : (s.endMember d).WellFormed :=
  (hs.addMember hd).goto trivial

theorem WellFormed.openType (hs : s.WellFormed) {h : TypeHead} (hh : h.WellFormed) : (s.openType h).WellFormed :=
  ⟨List.forall_mem_cons.2 ⟨⟨hh, trivial⟩, hs.enclosing⟩, hs.types, trivial⟩

theorem WellFormed.closeType (hs : s.WellFormed) {next : State} (h : s.closeType = some next) : next.WellFormed := by
  obtain ⟨enclosing, types, mode⟩ := s
  match enclosing with
  | [] => cases h
  | [t] =>
    obtain rfl := Option.some.inj h
    have ht := hs.enclosing t List.mem_cons_self
    exact ⟨List.forall_mem_nil _, List.forall_mem_append.2 ⟨hs.types, by simpa using ht⟩, trivial⟩
  | t :: other :: outer =>
    obtain rfl := Option.some.inj h
    have henclosing := List.forall_mem_cons.1 hs.enclosing
    have houter : ({ enclosing := other :: outer, types, mode := .members } : State).WellFormed :=
      ⟨henclosing.2, hs.types, trivial⟩
    exact houter.addMember (d := .type t.head t.members) henclosing.1

theorem WellFormed.shiftMember (hs : s.WellFormed) {t : Token} {next : State} (h : s.shiftMember t = some next) :
    next.WellFormed := by
  have hmodifiers : ∀ word ∈ ([] : List String), word ∈ modifiers := List.forall_mem_nil _
  unfold State.shiftMember at h
  split at h
  · obtain rfl := Option.some.inj h
    exact hs.goto fun name hn => ⟨hmodifiers, hn, nofun, List.forall_mem_nil _⟩
  · obtain rfl := Option.some.inj h
    exact hs.goto fun type name ht hn => ⟨hmodifiers, ht, hn⟩
  · obtain rfl := Option.some.inj h
    exact hs.goto fun type name ht hn => ⟨ht, hn, List.forall_mem_nil _⟩
  · obtain rfl := Option.some.inj h
    exact hs.goto fun returns name hr hn => ⟨hmodifiers, hr, hn, List.forall_mem_nil _, nofun, nofun⟩
  · exact hs.closeType h
  · cases h

end State

open State

/-! ## Bodies -/

section
variable {s : State} {m : MethodDecl} {i : InstructionDecl}

theorem MethodDecl.WellFormed.inBody (hm : m.WellFormed) {change : BodyDecl → BodyDecl}
    (hc : ∀ b : BodyDecl, b.WellFormed → (change b).WellFormed) : (inBody m change).WellFormed := by
  have hbody : (m.body.getD {}).WellFormed := by
    cases hb : m.body with
    | none => exact ⟨nofun, List.forall_mem_nil _⟩
    | some b => exact ⟨hm.locals b hb, hm.instructions b hb⟩
  have hchanged := hc _ hbody
  refine ⟨hm.modifiers, hm.returns, hm.name, hm.params, ?_, ?_⟩
  · rintro b hb
    obtain rfl := Option.some.inj hb
    exact hchanged.locals
  · rintro b hb
    obtain rfl := Option.some.inj hb
    exact hchanged.instructions

theorem MethodDecl.WellFormed.endInstruction (hm : m.WellFormed) (hi : i.WellFormed) {operand : Option OperandText}
    (ho : ∀ o ∈ operand, o.WellFormed) : (endInstruction m i operand).WellFormed := by
  refine hm.inBody fun b hb => ⟨hb.locals, List.forall_mem_append.2 ⟨hb.instructions, ?_⟩⟩
  rw [List.forall_mem_singleton]
  exact ⟨hi.label, hi.mnemonic, ho⟩

/-! ## Lists of names -/

theorem NameList.WellFormed.addName {l : NameList} (hl : l.WellFormed) {text : String} (hn : IsName text) :
    (addName l text).WellFormed := by
  have hadd : ∀ {names : List String}, (∀ text ∈ names, IsName text) → ∀ other ∈ names ++ [text], IsName other :=
    fun h => List.forall_mem_append.2 ⟨h, by simpa using hn⟩
  cases l with
  | params m => exact ⟨hl.modifiers, hl.returns, hl.name, hadd hl.params, hl.locals, hl.instructions⟩
  | locals m names => exact ⟨hl.1, hadd hl.2⟩
  | signature m i marked type owner name names =>
    obtain ⟨hm, hi, htype, hmarked, howner, hname, hnames⟩ := hl
    refine ⟨hm, hi, htype, hmarked, howner, hname, ?_⟩
    rintro list hlist
    obtain rfl := Option.some.inj hlist
    exact hadd (hnames names rfl)

theorem NameList.WellFormed.endList {l : NameList} (hl : l.WellFormed) : (endList l).WellFormed := by
  cases l with
  | params m => exact hl
  | locals m names =>
    refine hl.1.inBody fun b hb => ⟨?_, hb.instructions⟩
    rintro list hlist
    obtain rfl := Option.some.inj hlist
    exact hl.2
  | signature m i marked type owner name names =>
    refine hl.1.endInstruction hl.2.1 ?_
    rintro o ho
    obtain rfl := Option.some.inj ho
    exact hl.2.2

/-! ## Words -/

theorem IsWord.isName {text : String} (hw : IsWord ⟨.name, text⟩) : IsName text := by
  cases hw
  assumption

theorem IsWord.text_eq {word text : String} (hw : IsWord ⟨.literal word, text⟩) : text = word := by
  cases hw
  rfl

variable {terminal : Terminal} {text : String} {position : Position} {next : State}

theorem IsWord.isName_of_fits (hw : IsWord ⟨terminal, text⟩) (hf : Fits [.name] ⟨terminal, text⟩) : IsName text := by
  obtain rfl : terminal = .name := List.mem_singleton.1 hf.1
  exact hw.isName

theorem IsWord.isMemberName_of_fits (hw : IsWord ⟨terminal, text⟩) (hf : Fits [.name, .constructorName] ⟨terminal, text⟩) :
    IsMemberName text := by
  cases hw with
  | name h => exact .inl h
  | constructorName h => exact .inr h
  | label | number | string | fixed => exact absurd hf.1 (by simp)

namespace State

theorem WellFormed.shiftModifier (hs : s.WellFormed) {modified named : String → Mode}
    (hm : ∀ word ∈ modifiers, (modified word).WellFormed) (hn : ∀ name, IsPlainName name → (named name).WellFormed)
    (hw : IsWord ⟨terminal, text⟩) (hf : Fits (.name :: literals modifiers) ⟨terminal, text⟩)
    (h : s.shiftModifier ⟨terminal, text, position⟩ modified named = some next) : next.WellFormed := by
  unfold State.shiftModifier at h
  cases terminal with
  | name =>
    obtain rfl := Option.some.inj h
    refine hs.goto (hn text ⟨hw.isName, fun hmem => hf.2 rfl ?_⟩)
    exact List.mem_cons_of_mem _ (List.mem_map_of_mem hmem)
  | literal word =>
    obtain rfl := Option.some.inj h
    obtain rfl := hw.text_eq
    have hmem : .literal text ∈ literals modifiers := List.mem_of_ne_of_mem (by rintro ⟨⟩) hf.1
    obtain ⟨other, hother, heq⟩ := List.mem_map.1 hmem
    obtain rfl := Terminal.literal.inj heq
    exact hs.goto (hm other hother)
  | label | number | string | constructorName => cases h

theorem WellFormed.shiftCode (hs : s.WellFormed) (hm : m.WellFormed) (hw : IsWord ⟨terminal, text⟩)
    (h : s.shiftCode m ⟨terminal, text, position⟩ = some next) : next.WellFormed := by
  unfold State.shiftCode at h
  dsimp only at h
  split at h
  · obtain rfl := Option.some.inj h
    refine hs.goto ⟨hm, fun mnemonic hn => ⟨?_, hn, nofun⟩⟩
    cases hw
    assumption
  · obtain rfl := Option.some.inj h
    exact hs.endMember (d := .method m) hm
  · cases h

/-- **Each word keeps what has been read well-formed.** -/
theorem WellFormed.shift (hs : s.WellFormed) (hw : IsWord ⟨terminal, text⟩) (hf : Fits s.expected ⟨terminal, text⟩)
    (h : s.shift ⟨terminal, text, position⟩ = some next) : next.WellFormed := by
  have hmode := hs.mode
  obtain ⟨enclosing, types, mode⟩ := s
  cases mode <;> unfold State.shift at h <;> dsimp only [State.expected, Mode.expected] at hf h hmode
  case members => exact hs.shiftMember h
  case typeStart hd =>
    refine hs.shiftModifier ?_ ?_ hw hf h
    · intro word hword name hn
      have hwell := hmode name hn
      exact { hwell with modifiers := List.forall_mem_append.2 ⟨hwell.modifiers, by simpa using hword⟩ }
    · exact hmode
  case typeNamed hd =>
    split at h
    · obtain rfl := Option.some.inj h
      exact hs.goto hmode
    · obtain rfl := Option.some.inj h
      exact hs.goto hmode
    · obtain rfl := Option.some.inj h
      exact hs.openType hmode
    · cases h
  case typeBase hd =>
    obtain rfl := Option.some.inj h
    exact hs.goto { hmode with base := by simpa using hw.isName_of_fits hf }
  case typeBased hd =>
    split at h
    · obtain rfl := Option.some.inj h
      exact hs.goto hmode
    · obtain rfl := Option.some.inj h
      exact hs.openType hmode
    · cases h
  case typeInterface hd =>
    obtain rfl := Option.some.inj h
    exact hs.goto { hmode with
      interfaces := List.forall_mem_append.2 ⟨hmode.interfaces, by simpa using hw.isName_of_fits hf⟩ }
  case typeInterfaced hd =>
    split at h
    · obtain rfl := Option.some.inj h
      exact hs.goto hmode
    · obtain rfl := Option.some.inj h
      exact hs.openType hmode
    · cases h
  case fieldStart f =>
    refine hs.shiftModifier ?_ ?_ hw hf h
    · intro word hword type name ht hn
      have hwell := hmode type name ht hn
      exact { hwell with modifiers := List.forall_mem_append.2 ⟨hwell.modifiers, by simpa using hword⟩ }
    · exact fun type ht name hn => hmode type name ht hn
  case fieldTyped f =>
    obtain rfl := Option.some.inj h
    exact hs.endMember (d := .field { f with name := text }) (hmode text (hw.isName_of_fits hf))
  case propertyStart d =>
    obtain rfl := Option.some.inj h
    exact hs.goto fun name hn => hmode text name (hw.isName_of_fits hf) hn
  case propertyTyped d =>
    obtain rfl := Option.some.inj h
    exact hs.goto (hmode text (hw.isName_of_fits hf))
  case propertyNamed d =>
    obtain rfl := Option.some.inj h
    exact hs.goto hmode
  case accessors d =>
    split at h
    · obtain rfl := Option.some.inj h
      exact hs.goto ⟨hmode, fun _ => rfl⟩
    · obtain rfl := Option.some.inj h
      exact hs.goto ⟨hmode, fun _ => rfl⟩
    · obtain rfl := Option.some.inj h
      exact hs.endMember (d := .property d) hmode
    · cases h
  case accessorName d accessor =>
    obtain rfl := Option.some.inj h
    have hname : IsName (accessor text).method := by
      rw [hmode.2]
      exact hw.isName_of_fits hf
    exact hs.goto { hmode.1 with accessors := List.forall_mem_append.2 ⟨hmode.1.accessors, by simpa using hname⟩ }
  case methodStart m =>
    refine hs.shiftModifier ?_ ?_ hw hf h
    · intro word hword returns name hr hn
      have hwell := hmode returns name hr hn
      exact { hwell with modifiers := List.forall_mem_append.2 ⟨hwell.modifiers, by simpa using hword⟩ }
    · exact fun returns hr name hn => hmode returns name hr hn
  case methodTyped m =>
    obtain rfl := Option.some.inj h
    exact hs.goto (hmode text (hw.isMemberName_of_fits hf))
  case methodNamed m =>
    obtain rfl := Option.some.inj h
    exact hs.goto hmode
  case methodSigned m =>
    split at h
    · obtain rfl := Option.some.inj h
      exact hs.goto (hmode.inBody fun _ hb => hb)
    · exact (hs.endMember (d := .method m) hmode).shiftMember h
  case bodyStart m =>
    split at h
    · obtain rfl := Option.some.inj h
      exact hs.goto hmode
    · exact hs.shiftCode hmode hw h
  case localsStart m =>
    obtain rfl := Option.some.inj h
    exact hs.goto ⟨hmode, List.forall_mem_nil _⟩
  case listOpen l =>
    split at h
    · obtain rfl := Option.some.inj h
      exact hs.goto (hmode.addName hw.isName)
    · obtain rfl := Option.some.inj h
      exact hs.goto hmode.endList
    · cases h
  case listNext l =>
    obtain rfl := Option.some.inj h
    exact hs.goto (hmode.addName (hw.isName_of_fits hf))
  case listMore l =>
    split at h
    · obtain rfl := Option.some.inj h
      exact hs.goto hmode
    · obtain rfl := Option.some.inj h
      exact hs.goto hmode.endList
    · cases h
  case code m => exact hs.shiftCode hmode hw h
  case mnemonic m i =>
    obtain rfl := Option.some.inj h
    exact hs.goto ⟨hmode.1, hmode.2 text (hw.isName_of_fits hf)⟩
  case operand m i =>
    split at h
    · obtain rfl := Option.some.inj h
      exact hs.goto hmode
    · obtain rfl := Option.some.inj h
      refine hs.goto ⟨hmode.1, hmode.2, hw.isName, ?_⟩
      rintro rfl
      exact hf.2 rfl (by simp)
    · obtain rfl := Option.some.inj h
      refine hs.goto (hmode.1.endInstruction hmode.2 ?_)
      cases hw
      simpa
    · obtain rfl := Option.some.inj h
      refine hs.goto (hmode.1.endInstruction hmode.2 ?_)
      cases hw
      simpa
    · exact hs.shiftCode (hmode.1.endInstruction hmode.2 (by simp)) hw h
  case memberType m i =>
    obtain rfl := Option.some.inj h
    exact hs.goto ⟨hmode.1, hmode.2, hw.isName_of_fits hf⟩
  case memberOwner m i type =>
    obtain rfl := Option.some.inj h
    exact hs.goto ⟨hmode.1, hmode.2.1, hmode.2.2, nofun, hw.isName_of_fits hf⟩
  case operandName m i word =>
    obtain ⟨hm, hi, hword⟩ := hmode
    split at h
    · obtain rfl := Option.some.inj h
      exact hs.goto ⟨hm, hi, hword.1, fun _ => hword.2, hw.isName⟩
    · refine hs.shiftCode (hm.endInstruction hi ?_) hw h
      simpa
  case memberColons m i marked type owner =>
    obtain rfl := Option.some.inj h
    exact hs.goto hmode
  case memberName m i marked type owner =>
    obtain rfl := Option.some.inj h
    obtain ⟨hm, hi, htype, hmarked, howner⟩ := hmode
    exact hs.goto ⟨hm, hi, htype, hmarked, howner, hw.isMemberName_of_fits hf, nofun⟩
  case memberNamed m i marked type owner name =>
    obtain ⟨hm, hi, hmember⟩ := hmode
    split at h
    · obtain rfl := Option.some.inj h
      obtain ⟨htype, hmarked, howner, hname, -⟩ := hmember
      exact hs.goto ⟨hm, hi, htype, hmarked, howner, hname, by simp⟩
    · refine hs.shiftCode (hm.endInstruction hi ?_) hw h
      simpa

end State

/-! ## Reading -/

theorem isWord_of_read {c left : Cursor} {t : Token} (h : c.read s.expected = .token t left) :
    IsWord ⟨t.terminal, t.text⟩ ∧ Fits s.expected ⟨t.terminal, t.text⟩ := by
  unfold Cursor.read Cursor.readHere at h
  split at h
  · cases h
  · split at h
    next terminal lexeme rest htoken =>
      obtain ⟨rfl, -⟩ := Reading.token.inj h
      obtain ⟨hw, hf, -⟩ := isWord_of_token? (plain_expected s) htoken
      exact ⟨hw, hf⟩
    · split at h <;> cases h

theorem wellFormed_of_runFrom {last : Position} {c : Cursor} {types : List TypeDecl} (hs : s.WellFormed)
    (h : runFrom s last c = .ok types) : ∀ t ∈ types, t.WellFormed := by
  fun_induction runFrom s last c with
  | case1 =>
    obtain rfl := Except.ok.inj h
    exact hs.types
  | case5 s last c token left hread next hnext ih =>
    obtain ⟨hw, hf⟩ := isWord_of_read hread
    exact ih (hs.shift hw hf hnext) h
  | case2 | case3 | case4 | case6 => cases h

end

/-- **What is read is well-formed.** -/
theorem wellFormed_of_parse {source : String} {types : List TypeDecl} (h : parse source = .ok types) :
    ∀ t ∈ types, t.WellFormed :=
  wellFormed_of_runFrom (s := {}) ⟨List.forall_mem_nil _, List.forall_mem_nil _, trivial⟩ h

end StubClosure.Listing
