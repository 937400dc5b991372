import StubClosure.Proofs.Listing.Names
import StubClosure.Proofs.Listing.Operands
import StubClosure.Proofs.Listing.Reordered
import StubClosure.Proofs.Program.Reencoding

/-!
# Rendered instructions

Reports write an instruction as a line of a listing, and these lines can be read. An instruction that was read is what its mnemonic makes of its operand (`Instruction.Legible`), and rendered it is the words of a declaration that is read as the same (`Instruction.Legible.instructionOf_written`, `Instruction.Legible.render_eq`). So the lines of a whole body make a listing, with a class and a method around them, and what it loads as has the instructions of the body (`load_rendered`). This needs operands that are read as themselves. The types are not all that counts there: a type named like a slot comes back as a number (`exists_load_rendered_ne`).
-/

namespace StubClosure

open Listing

namespace Instruction

variable {ins : Instruction} {file : Option String}

/-! ## Instructions that were read -/

/-- The instruction is one that can be read: at the offset of a label, its mnemonic a name in small letters, and what the mnemonic makes of its operand. -/
structure Legible (ins : Instruction) : Prop where
  offset : ∃ n : Nat, ins.offset = n
  mnemonic : IsName ins.mnemonic
  lower : Mnemonic.lower ins.mnemonic = ins.mnemonic
  operand : ∀ o ∈ ins.operand, o.Legible ins.mnemonic
  made : make ins.offset ins.mnemonic (if ins.impliesSlot then none else ins.operand) = .ok ins

theorem offset_of_make {offset : Int} {mnemonic : String} {operand : Option Operand}
    (h : make offset mnemonic operand = .ok ins) : ins.offset = offset := by
  unfold make at h
  dsimp only at h
  split at h
  · obtain rfl := Except.ok.inj h
    rfl
  · split at h <;> cases h

/-- What was made of an operand is made of it again, and needs none if the mnemonic implies the slot. -/
theorem make_again {offset : Int} {mnemonic : String} {operand : Option Operand}
    (h : make offset mnemonic operand = .ok ins) (hl : Mnemonic.lower ins.mnemonic = ins.mnemonic) :
    make ins.offset ins.mnemonic (if ins.impliesSlot then none else ins.operand) = .ok ins := by
  obtain ⟨-, hcategory, hoperand, hpushes, haccepts⟩ := eq_of_make h
  have hagain : ((Mnemonic.classify ins.mnemonic).2.map Operand.number).or
      (if ins.impliesSlot then none else ins.operand) = ins.operand := by
    split
    next himplies =>
      have hs : ins.category.isSlot = true := by
        simpa using (Bool.and_eq_true_iff.1 himplies).1
      obtain ⟨k, hk, -⟩ := (namesSlot_of_make h hs).exists_implied himplies
      rw [hoperand, hk]
      rfl
    · rw [hoperand]
      cases (Mnemonic.classify ins.mnemonic).2 <;> rfl
  unfold make
  dsimp only
  rw [hl, hagain, ← hcategory, if_pos haccepts, ← hpushes]

theorem legible_of_instructionOf {i : InstructionDecl} (hi : i.WellFormed) (h : instructionOf file i = .ok ins) :
    ins.Legible := by
  obtain ⟨operand, hread, hmade⟩ := exists_of_bind_eq_ok (mapError_eq_ok_iff.1 h)
  replace hmade := mapError_eq_ok_iff.1 hmade
  obtain ⟨hmnemonic, -, hoperand, -⟩ := eq_of_make hmade
  obtain ⟨hname, hlower⟩ := isName_lower hi.mnemonic
  rw [← hmnemonic] at hname hlower
  refine ⟨⟨_, offset_of_make hmade⟩, hname, hlower, ?_, make_again hmade hlower⟩
  intro o ho
  rw [hoperand] at ho
  cases himplied : (Mnemonic.classify ins.mnemonic).2 with
  | some k =>
    rw [himplied] at ho
    obtain rfl := Option.some.inj ho
    trivial
  | none =>
    rw [himplied] at ho
    obtain rfl : operand = some o := ho
    cases htext : i.operand with
    | none =>
      rw [htext] at hread
      cases hread
    | some text =>
      rw [htext, optionMapM_some] at hread
      obtain ⟨o', ho', heq⟩ := exists_of_bind_eq_ok hread
      obtain rfl := Option.some.inj (Except.ok.inj heq)
      rw [hmnemonic]
      exact Operand.legible_of_operandOf (hi.operand text htext) ho'

theorem Legible.plain_eq (h : ins.Legible) : ins.plain = ins := by
  have hoperand : ins.operand.map Operand.plain = ins.operand := by
    cases ho : ins.operand with
    | none => rfl
    | some o =>
      have hlegible := h.operand o ho
      cases o with
      | member m => exact congrArg (fun m => some (Operand.member m)) hlegible.1
      | type | number | text => rfl
  unfold plain
  rw [hoperand]

/-! ## Instructions written again -/

/-- The operand is read as itself where it is written. -/
def Canonical (ins : Instruction) : Prop := ∀ o ∈ ins.operand, o.Canonical

instance (ins : Instruction) : Decidable ins.Canonical := inferInstanceAs (Decidable (∀ o ∈ ins.operand, o.Canonical))

/-- The instruction as a listing writes it. A slot that the mnemonic implies is not written. -/
def written (ins : Instruction) : InstructionDecl where
  position := {}
  label := "IL_" ++ Text.hexFour ins.offset ++ ":"
  mnemonic := ins.mnemonic
  operand := if ins.impliesSlot then none else ins.operand.map Operand.written

theorem label_hexFour (n : Nat) : IsWhole label? ("IL_" ++ Text.hexFour n ++ ":") ∧
    labelOffset ("IL_" ++ Text.hexFour n ++ ":") = n := by
  have hlabel : ("IL_" ++ Text.hexFour n ++ ":").toList = 'I' :: 'L' :: '_' :: ((Text.hexFour n).toList ++ [':']) := by
    rw [String.toList_append, String.toList_append]
    rfl
  have hrun : run? Text.isHex ((Text.hexFour n).toList ++ [':']) = some ((Text.hexFour n).toList, [':']) :=
    run?_append_iff.2 ⟨⟨Text.hexFour_ne_nil, fun _ => Text.isHex_of_mem_hexFour _⟩, leaves_cons.2 (by decide)⟩
  constructor
  · unfold IsWhole
    rw [hlabel, label?, hrun]
    rfl
  · unfold labelOffset
    rw [hlabel, List.drop_succ_cons, List.drop_succ_cons, List.drop_succ_cons, List.drop_zero, List.dropLast_concat,
      Text.readHex_hexFour]

theorem Legible.wellFormed_written (h : ins.Legible) (hc : ins.Canonical) : ins.written.WellFormed := by
  obtain ⟨n, hn⟩ := h.offset
  refine ⟨?_, h.mnemonic, ?_⟩
  · show IsWhole label? ("IL_" ++ Text.hexFour ins.offset ++ ":")
    rw [hn]
    exact (label_hexFour n).1
  · intro text htext
    unfold written at htext
    split at htext
    · cases htext
    · obtain ⟨o, ho, rfl⟩ := Option.map_eq_some_iff.1 htext
      exact (h.operand o ho).written_wellFormed (hc o ho)

/-- **An instruction that is written again is read as itself.** -/
theorem Legible.instructionOf_written (h : ins.Legible) (hc : ins.Canonical) (file : Option String) :
    instructionOf file ins.written = .ok ins := by
  obtain ⟨n, hn⟩ := h.offset
  have hoperand : ins.written.operand.mapM (operandOf (Mnemonic.lower ins.mnemonic)) =
      .ok (if ins.impliesSlot then none else ins.operand) := by
    unfold written
    rw [h.lower]
    split
    · rfl
    · cases ho : ins.operand with
      | none => rfl
      | some o =>
        rw [Option.map_some, optionMapM_some, (h.operand o ho).operandOf_written (hc o ho)]
        rfl
  have hoffset : (labelOffset ins.written.label : Int) = ins.offset := by
    unfold written
    rw [hn, (label_hexFour n).2]
  refine mapError_eq_ok_iff.2 ?_
  show (ins.written.operand.mapM (operandOf (Mnemonic.lower ins.mnemonic)) >>= _) = _
  rw [hoperand]
  show orFault .instruction (make (labelOffset ins.written.label) ins.mnemonic _) = _
  rw [hoffset, h.made]
  rfl

/-- **The line of an instruction is what it is written as**, word by word. -/
theorem Legible.render_eq (h : ins.Legible) (hc : ins.Canonical) : ins.render = .ok (lineOf ins.written.words) := by
  have hlabel : "IL_" ++ Text.hexFour ins.offset ++ ": " = ins.written.label ++ " " := by
    exact (@String.append_assoc ("IL_" ++ Text.hexFour ins.offset) ":" " ").symm
  have hshort : lineOf [⟨.label, ins.written.label⟩, Word.ofName ins.mnemonic] =
      ins.written.label ++ " " ++ ins.mnemonic := by
    rw [lineOf_cons_cons rfl rfl, lineOf_singleton, String.append_assoc]
    rfl
  unfold render InstructionDecl.words
  dsimp only
  rw [hlabel]
  cases ho : ins.operand with
  | none =>
    have hnone : ins.written.operand = none := by simp [written, ho]
    rw [hnone]
    exact congrArg Except.ok hshort.symm
  | some o =>
    dsimp only
    by_cases himplies : ins.impliesSlot = true
    · have hnone : ins.written.operand = none := by simp [written, himplies]
      rw [if_pos himplies, hnone]
      exact congrArg Except.ok hshort.symm
    · have hsome : ins.written.operand = some o.written := by simp [written, himplies, ho]
      obtain ⟨next, rest, hwords, hjoint, -⟩ := o.exists_words_written
      rw [if_neg himplies, (h.operand o ho).render_eq (hc o ho), hsome, Option.elim, hwords]
      refine congrArg Except.ok ?_
      dsimp only
      rw [lineOf_cons_cons rfl rfl, lineOf_cons_cons rfl hjoint]
      simp only [String.append_assoc]
      rfl

theorem Canonical.clear_written (hc : ins.Canonical) : Clear ins.written.words := by
  have hoperand : ∃ words, ins.written.operand.elim [] OperandText.words = words ∧ Clear words ∧
      ∀ w ∈ words.head?, w.terminal ≠ .literal "::" := by
    cases htext : ins.written.operand with
    | none => exact ⟨[], rfl, .nil, nofun⟩
    | some text =>
      unfold written at htext
      split at htext
      · cases htext
      · obtain ⟨o, ho, rfl⟩ := Option.map_eq_some_iff.1 htext
        obtain ⟨next, rest, hwords, -, hnext⟩ := o.exists_words_written
        refine ⟨_, rfl, (hc o ho).clear_written, fun w hw => ?_⟩
        rw [Option.elim, hwords] at hw
        exact Option.some.inj hw ▸ hnext
  obtain ⟨words, hwords, hclear, hhead⟩ := hoperand
  unfold InstructionDecl.words
  rw [hwords]
  exact (hclear.cons fun w hw _ => hhead w hw).cons fun w hw _ => Option.some.inj hw ▸ nofun

theorem canonical_plain_iff : ins.plain.Canonical ↔ ins.Canonical := by
  unfold Canonical plain
  cases ins.operand with
  | none => exact Iff.rfl
  | some o =>
    simp only [Option.map_some, Option.mem_def, Option.some.injEq, forall_eq']
    cases o <;> exact Iff.rfl

end Instruction

namespace Listing

open Build Program Word

variable {source name : String} {file : Option String} {p : Program}

/-! ## Instructions of bodies -/

theorem MethodIn.wellFormed {m : MethodDecl} {members : List Decl} (h : MethodIn m members)
    (hm : MembersWellFormed members) : m.WellFormed := by
  induction h with
  | here => exact hm.1
  | inside _ ih => exact ih hm.1.2
  | later _ ih => exact ih hm.2

/-- Operands are resolved last. Before that, the instructions are those that were read. -/
theorem exists_legible_of_load (h : load source name file = .ok p) : ∃ q : Program, q.Built ∧ p = q.resolveOperands ∧
    ∀ key b, q.bodies.find? key = some b → ∀ ins ∈ b.instructions, ins.Legible := by
  obtain ⟨types, hparse, helaborate⟩ := exists_elaborate_of_load h
  obtain ⟨steps, hsteps, -, rfl⟩ := exists_steps_of_elaborate helaborate
  refine ⟨Program.build name steps, built_build name steps, ?_, forall_instructions_build (fun hmem => ?_) name ?_⟩
  · unfold Program.build
    rw [List.foldl_append]
    rfl
  · obtain ⟨c, hc, he⟩ := exists_call_of_mem hsteps hmem
    exact absurd he (step_ne_operands hc)
  · intro step hs list hlist ins hins
    obtain ⟨c, hc, he⟩ := exists_call_of_mem hsteps hs
    obtain ⟨t, ht, m, hm, b, hb, i, hi, hmade⟩ := exists_of_gives hc he hlist hins
    exact Instruction.legible_of_instructionOf ((hm.wellFormed (wellFormed_of_parse hparse t ht).2).instructions b hb i hi) hmade

theorem legible_of_load (h : load source name file = .ok p) :
    ∀ key b, p.bodies.find? key = some b → ∀ ins ∈ b.instructions, ins.plain.Legible := by
  obtain ⟨q, hq, rfl, hlegible⟩ := exists_legible_of_load h
  intro key b hb ins hins
  obtain ⟨b', hb', rfl⟩ := Option.map_eq_some_iff.1 ((find?_resolveOperands key).symm.trans hb)
  obtain ⟨ins', hins', rfl⟩ := List.mem_map.1 hins
  have hread := hlegible key b' hb' ins' hins'
  rwa [hq.enters.plain_rebind, hread.plain_eq]

theorem injOn_operands_of_load (h : load source name file = .ok p) : Set.InjOn Member.toSignature p.operands := by
  obtain ⟨q, hq, rfl, hlegible⟩ := exists_legible_of_load h
  refine hq.enters.injOn_operands ?_
  -- what was read of a member is its signature
  have hplain : ∀ m ∈ q.operands, m.plain = m := by
    rintro m ⟨key, b, hb, ins, hins, hm⟩
    obtain ⟨o, ho, hm⟩ := Option.bind_eq_some_iff.1 hm
    have hread := (hlegible key b hb ins hins).operand o ho
    cases o with
    | member m' =>
      obtain rfl := Option.some.inj hm
      exact hread.1
    | type | number | text => cases hm
  intro m hm other hother hsame
  rw [← hplain m hm, ← hplain other hother, Member.plain_eq_iff.2 hsame]

/-! ## A class with one method -/

/-- A class whose only member is a method with the given instructions. -/
def aroundBody (type method : String) (list : List InstructionDecl) : TypeDecl where
  head := { position := {}, name := type }
  members := [.method { position := {}, returns := "void", name := method, body := some { instructions := list } }]

section
variable {type : String} {t : TypeId} (method : String) {instructions : List Instruction}

/-- The steps that build the class: the type, and the method with its body. -/
def typeStep (t : TypeId) : BuildStep := .type (.id t) none [] false

def methodStep (t : TypeId) (method : String) (instructions : List Instruction) : BuildStep :=
  .method t { name := method, returns := .id .void, body := some instructions }

theorem exists_calls_aroundBody (ht : TypeId.parse type = .ok t) {list : List InstructionDecl}
    (hmade : list.mapM (instructionOf file) = .ok instructions) :
    ∃ c c', calls file [aroundBody type method list] = [c, c'] ∧ c.step = .ok (typeStep t) ∧
      c'.step = .ok (methodStep t method instructions) := by
  have hid : declaredId none type = .ok t := ht
  refine ⟨headCall file none { position := {}, name := type },
    methodCall file t { position := {}, returns := "void", name := method, body := some { instructions := list } }, ?_, ?_, ?_⟩
  · simp [aroundBody, calls, typeCalls, innerCalls, fillCalls, memberCalls, propertyCalls, hid]
  · unfold headCall
    dsimp only
    rw [hid]
    rfl
  · unfold methodCall
    dsimp only
    rw [optionMapM_some, hmade]
    rfl

theorem exists_run_methodStep (ho : t.outer? = none) (instructions : List Instruction) (name : String) :
    ∃ p q b, (typeStep t).perform.run.run { name } = (.ok (), p) ∧
      (methodStep t method instructions).perform.run.run p = (.ok (), q) ∧
      q.bodies.entries = [(b.method.toSignature, b)] ∧ b.instructions = instructions := by
  let m : Member := { Member.method t method [] .void with role := newRole method false }
  let b : Body := { method := m, instructions, locals := [] }
  let p : Program := ({ name } : Program).define t { id := t, base := none, interfaces := [], isPublic := false }
  refine ⟨p, (p.declare t m).setBody b, b, ?_, ?_, rfl, rfl⟩
  · have hnew : ({ name } : Program).defines t = false := rfl
    show (do let _ ← Build.addType (.id t) none [] false : Build Unit).run.run { name } = _
    rw [Step.run_forget, run_addType rfl, hnew, if_neg Bool.false_ne_true, ho]
    rfl
  · have hadds : AddsMethod p t { name := method, returns := .id .void, body := some instructions } m :=
      ⟨(Program.defines_define_iff _ _).2 (.inl rfl), [], .void, rfl, rfl, rfl⟩
    have hnew : p.members.contains m.toSignature = false := rfl
    show (do let _ ← Build.addMethod t _ : Build Unit).run.run p = _
    rw [Step.run_forget, hadds.run, hnew, if_neg Bool.false_ne_true]
    rfl

theorem exists_elaborate_aroundBody (ht : TypeId.parse type = .ok t) (ho : t.outer? = none)
    {list : List InstructionDecl} (hmade : list.mapM (instructionOf file) = .ok instructions) (name : String) :
    ∃ p b, elaborate file name [aroundBody type method list] = .ok p ∧ p.bodies.values = [b] ∧
      b.instructions.map Instruction.plain = instructions.map Instruction.plain := by
  obtain ⟨c, c', hcalls, hc, hc'⟩ := exists_calls_aroundBody method ht hmade
  obtain ⟨p, q, b, hp, hq, hbodies, hinstructions⟩ := exists_run_methodStep method ho instructions name
  have hbuilt : q.Built := by
    have hp' : (typeStep t).after { name } = p := congrArg Prod.snd hp
    have hq' : (methodStep t method instructions).after p = q := congrArg Prod.snd hq
    rw [← hq', ← hp']
    exact ((Built.new name).step _).step _
  refine ⟨q.resolveOperands, { b with instructions := b.instructions.map q.rebind }, ?_, ?_, ?_⟩
  · rw [elaborate_eq, hcalls, makeAll_cons, Call.make_of_step hc hp]
    show ((c'.make file p >>= makeAll file []).map resolveOperands) = _
    rw [Call.make_of_step hc' hq]
    rfl
  · unfold Table.values resolveOperands
    rw [hbodies]
    rfl
  · rw [List.map_map, hinstructions]
    exact List.map_congr_left fun ins _ => hbuilt.enters.plain_rebind ins

end

/-- The listing that has lines for the body of a method, the only member of a class. -/
def listingAround (type method : String) (lines : List String) : String :=
  joined ([".class " ++ type, "\x7b", ".method void " ++ method ++ "()", "\x7b"] ++ lines ++ ["\x7d", "\x7d"])

/-- The words of the class, line by line. -/
def linesAround (type method : String) (list : List InstructionDecl) : List (List Word) :=
  [[fixed ".class", ofName type], [fixed "\x7b"],
    [fixed ".method", ofName "void", ofMember method, fixed "(", fixed ")"], [fixed "\x7b"]] ++
      list.map InstructionDecl.words ++ [[fixed "\x7d"], [fixed "\x7d"]]

section
variable {type method : String} {list : List InstructionDecl}

theorem joined_linesAround : joined ((linesAround type method list).map lineOf) =
    listingAround type method (list.map fun i => lineOf i.words) := by
  have hclass : lineOf [fixed ".class", ofName type] = ".class " ++ type := by
    rw [lineOf_cons_cons rfl rfl, lineOf_singleton, ← String.append_assoc]
    rfl
  have hcalled : lineOf [ofMember method, fixed "(", fixed ")"] = method ++ "()" := by
    obtain ⟨htext, hterminal⟩ := ofMember_cases method
    rw [← String.toList_inj, lineOf, String.toList_ofList, inLine, inLine, between_joint hterminal rfl,
      between_of_isJoint rfl, htext, String.toList_append]
    rfl
  have hmethod : lineOf [fixed ".method", ofName "void", ofMember method, fixed "(", fixed ")"] =
      ".method void " ++ method ++ "()" := by
    rw [lineOf_cons_cons rfl rfl, lineOf_cons_cons rfl (isJoint_ofMember method), hcalled]
    simp only [← String.append_assoc]
    rfl
  unfold linesAround listingAround
  simp only [List.map_append, List.map_map, List.map_cons, List.map_nil, hclass, hmethod, lineOf_singleton]
  rfl

theorem flatten_linesAround : (linesAround type method list).flatten =
    [aroundBody type method list].flatMap TypeDecl.words := by
  simp [linesAround, aroundBody, TypeDecl.words, TypeHead.words, memberWords, Decl.words, MethodDecl.words,
    MethodDecl.start, BodyDecl.words, BodyDecl.start, Word.inParens, Word.nameList, List.flatMap_def]

theorem clear_of_mem_linesAround (hl : ∀ i ∈ list, Clear i.words) :
    ∀ words ∈ linesAround type method list, Clear words := by
  have hmark : ∀ text ∈ [".class", "\x7b", "\x7d", ".method", "(", ")"], (fixed text).terminal ≠ .literal "::" := by
    decide
  simp only [List.forall_mem_cons] at hmark
  obtain ⟨hclass, hopen, hclose, hmethod, hleft, hright, -⟩ := hmark
  unfold linesAround
  simp only [List.forall_mem_append, List.forall_mem_cons, List.forall_mem_map]
  refine ⟨⟨⟨?_, List.isChain_singleton _, ?_, List.isChain_singleton _, nofun⟩, hl⟩, List.isChain_singleton _,
    List.isChain_singleton _, nofun⟩
  · exact clear_of_forall (List.forall_mem_cons.2 ⟨hclass, List.forall_mem_singleton.2 nofun⟩)
  · refine clear_of_forall ?_
    simp only [List.forall_mem_cons]
    exact ⟨hmethod, nofun, terminal_ofMember_ne method _, hleft, hright, nofun⟩

/-- Instructions that are written in lines load as what they are declared to be. -/
theorem exists_load_listingAround (htype : IsPlainName type) {t : TypeId} (ht : TypeId.parse type = .ok t)
    (ho : t.outer? = none) (hmethod : IsMemberName method) (hl : ∀ i ∈ list, i.WellFormed ∧ Clear i.words)
    {instructions : List Instruction} (hmade : list.mapM (instructionOf file) = .ok instructions) (name : String) :
    ∃ p b, load (listingAround type method (list.map fun i => lineOf i.words)) name file = .ok p ∧
      p.bodies.values = [b] ∧ b.instructions.map Instruction.plain = instructions.map Instruction.plain := by
  have hvoid : IsPlainName "void" := by decide +kernel
  have hwell : ∀ d ∈ [aroundBody type method list], d.WellFormed := by
    rintro d hd
    obtain rfl := List.mem_singleton.1 hd
    refine ⟨⟨nofun, htype, nofun, nofun⟩, ⟨⟨nofun, hvoid, hmethod, nofun, ?_, ?_⟩, trivial⟩⟩
    · rintro b hb names hnames
      obtain rfl := Option.some.inj hb
      cases hnames
    · rintro b hb i hi
      obtain rfl := Option.some.inj hb
      exact (hl i hi).1
  obtain ⟨types, hparse, htypes⟩ := exists_parse_lines hwell flatten_linesAround
    (clear_of_mem_linesAround fun i hi => (hl i hi).2)
  obtain ⟨p, b, helaborate, hbodies, hsame⟩ := exists_elaborate_aroundBody method ht ho hmade name
  refine ⟨p, b, ?_, hbodies, hsame⟩
  rw [← joined_linesAround]
  unfold load
  rw [hparse]
  exact elaborate_congr helaborate htypes

end

/-- **Rendered instructions are read back.** -/
theorem load_rendered (h : load source name file = .ok p) {key : Signature} {b : Body}
    (hb : p.bodies.find? key = some b) (hc : ∀ ins ∈ b.instructions, ins.Canonical) {type method : String}
    (htype : IsPlainName type) {t : TypeId} (ht : TypeId.parse type = .ok t) (ho : t.outer? = none)
    (hmethod : IsMemberName method) (name' : String) (file' : Option String) :
    ∃ lines p' b', b.instructions.mapM Instruction.render = .ok lines ∧
      load (listingAround type method lines) name' file' = .ok p' ∧ p'.bodies.values = [b'] ∧
      b'.instructions.map Instruction.plain = b.instructions.map Instruction.plain := by
  have hread : ∀ ins ∈ b.instructions, ins.plain.Legible ∧ ins.plain.Canonical := fun ins hins =>
    ⟨legible_of_load h key b hb ins hins, Instruction.canonical_plain_iff.2 (hc ins hins)⟩
  let declared (ins : Instruction) : InstructionDecl := ins.plain.written
  have hlist : ∀ i ∈ b.instructions.map declared, i.WellFormed ∧ Clear i.words := by
    rw [List.forall_mem_map]
    exact fun ins hins => ⟨(hread ins hins).1.wellFormed_written (hread ins hins).2, (hread ins hins).2.clear_written⟩
  have hmade : (b.instructions.map declared).mapM (instructionOf file') = .ok (b.instructions.map Instruction.plain) := by
    rw [List.mapM_map]
    exact mapM_eq_ok_of_forall _ fun ins hins => (hread ins hins).1.instructionOf_written (hread ins hins).2 file'
  have hlines : b.instructions.mapM Instruction.render = .ok (b.instructions.map fun ins => lineOf (declared ins).words) := by
    refine mapM_eq_ok_of_forall _ fun ins hins => ?_
    rw [← Instruction.render_plain]
    exact (hread ins hins).1.render_eq (hread ins hins).2
  obtain ⟨p', b', hload, hbodies, hsame⟩ := exists_load_listingAround htype ht ho hmethod hlist hmade name'
  rw [List.map_map] at hload hsame
  refine ⟨_, p', b', hlines, hload, hbodies, hsame.trans ?_⟩
  exact List.map_congr_left fun ins hins => (hread ins hins).1.plain_eq

/-- A constructor with operands of all kinds. -/
def constructorBody : List InstructionDecl :=
  [{ position := {}, label := "IL_0:", mnemonic := "ldarg.0" },
   { position := {}, label := "IL_1:", mnemonic := "call"
     operand := some (.member true "void" "System.Object" ".ctor" (some [])) },
   { position := {}, label := "IL_6:", mnemonic := "ldc.i4", operand := some (.number "0x1F") },
   { position := {}, label := "IL_B:", mnemonic := "box", operand := some (.name "int32") },
   { position := {}, label := "IL_10:", mnemonic := "ldstr", operand := some (.string "\"a, b\"") },
   { position := {}, label := "IL_15:", mnemonic := "stfld"
     operand := some (.member false "string" "A" "x" none) },
   { position := {}, label := "IL_1A:", mnemonic := "RET" }]

theorem load_rendered_constructorBody : ∃ p key b t,
    load (listingAround "A" ".ctor" (constructorBody.map fun i => lineOf i.words)) "a" none = .ok p ∧
    p.bodies.find? key = some b ∧ (∀ ins ∈ b.instructions, ins.Canonical) ∧ IsPlainName "A" ∧
    TypeId.parse "A" = .ok t ∧ t.outer? = none ∧ IsMemberName ".ctor" ∧
    ∃ lines p' b', b.instructions.mapM Instruction.render = .ok lines ∧
      load (listingAround "A" ".ctor" lines) "b" none = .ok p' ∧ p'.bodies.values = [b'] ∧
      b'.instructions.map Instruction.plain = b.instructions.map Instruction.plain := by
  have htype : IsPlainName "A" := by decide +kernel
  have ht : TypeId.parse "A" = .ok (.top "" "A" 0) := by decide +kernel
  have hmethod : IsMemberName ".ctor" := .inr (by decide)
  have hlist : ∀ i ∈ constructorBody, i.WellFormed ∧ Clear i.words := by decide +kernel
  obtain ⟨instructions, hmade, hcanonical⟩ : ∃ instructions, constructorBody.mapM (instructionOf none) = .ok instructions ∧
      ∀ ins ∈ instructions, ins.Canonical := by
    have hread : (constructorBody.mapM (instructionOf none)).toOption.any
        (fun list => decide (∀ ins ∈ list, ins.Canonical)) = true := by decide +kernel
    cases hmade : constructorBody.mapM (instructionOf none) with
    | error e =>
      rw [hmade] at hread
      cases hread
    | ok instructions =>
      rw [hmade] at hread
      exact ⟨instructions, rfl, of_decide_eq_true hread⟩
  obtain ⟨p, b, hload, hbodies, hsame⟩ := exists_load_listingAround htype ht rfl hmethod hlist hmade "a"
  obtain ⟨key, hb⟩ := Table.exists_find?_of_values hbodies
  have hc : ∀ ins ∈ b.instructions, ins.Canonical := by
    intro ins hins
    obtain ⟨ins', hins', heq⟩ := List.mem_map.1 (hsame ▸ List.mem_map_of_mem hins)
    rw [← Instruction.canonical_plain_iff, ← heq, Instruction.canonical_plain_iff]
    exact hcanonical ins' hins'
  exact ⟨p, key, b, _, hload, hb, hc, htype, ht, rfl, hmethod, load_rendered hload hb hc htype ht rfl hmethod "b" none⟩

/-- A type that is named like a slot. -/
def slotNamed : TypeId := .top "" "V_1" 0

/-- **Rendered instructions may come back as others** although the types in them are named so that they can be read: `box` with a type `V_1` is read as `box` with the number 1. -/
theorem exists_load_rendered_ne : ∃ p b lines p',
    load (listingAround "A" "M" ["IL_0: box V_1\x600"]) "a" none = .ok p ∧ p.bodies.values = [b] ∧
    (∀ ins ∈ b.instructions, ∃ t, ins.operand = some (.type t) ∧ TypeId.parse t.fullName = .ok t ∧
      typeNamed t.fullName = .ok t) ∧
    b.instructions.mapM Instruction.render = .ok lines ∧ load (listingAround "A" "M" lines) "a" none = .ok p' ∧
    ∀ b' ∈ p'.bodies.values, b'.instructions.map Instruction.plain ≠ b.instructions.map Instruction.plain := by
  have htype : IsPlainName "A" := by decide +kernel
  have ht : TypeId.parse "A" = .ok (.top "" "A" 0) := by decide +kernel
  have hmethod : IsMemberName "M" := .inl (by decide +kernel)
  let boxing : Instruction := { offset := 0, category := .other, mnemonic := "box", operand := some (.type slotNamed) }
  let boxed : Instruction := { offset := 0, category := .other, mnemonic := "box", operand := some (.number 1) }
  let declared (label name : String) : List InstructionDecl :=
    [{ position := {}, label, mnemonic := "box", operand := some (.name name) }]
  have hboxing : (declared "IL_0:" "V_1\x600").mapM (instructionOf none) = .ok [boxing] := by decide +kernel
  have hboxed : (declared "IL_0000:" "V_1").mapM (instructionOf none) = .ok [boxed] := by decide +kernel
  obtain ⟨p, b, hload, hbodies, hsame⟩ := exists_load_listingAround htype ht rfl hmethod (by decide +kernel) hboxing "a"
  obtain ⟨p', b', hload', hbodies', hsame'⟩ := exists_load_listingAround htype ht rfl hmethod (by decide +kernel) hboxed "a"
  have hline : (declared "IL_0:" "V_1\x600").map (fun i => lineOf i.words) = ["IL_0: box V_1\x600"] := by decide +kernel
  have hline' : (declared "IL_0000:" "V_1").map (fun i => lineOf i.words) = ["IL_0000: box V_1"] := by decide +kernel
  rw [hline] at hload
  rw [hline'] at hload'
  obtain ⟨ins, hinstructions, hins⟩ := List.map_eq_singleton_iff.1 hsame
  have hoperand : ins.operand = some (.type slotNamed) := by
    have hplain : ins.operand.map Operand.plain = some (.type slotNamed) := congrArg Instruction.operand hins
    obtain ⟨o, ho, hplain⟩ := Option.map_eq_some_iff.1 hplain
    cases o with
    | type t => rw [ho, show t = slotNamed from Operand.type.inj hplain]
    | member | number | text => cases hplain
  have hrender : ins.render = .ok "IL_0000: box V_1" := by
    rw [← Instruction.render_plain, hins]
    decide +kernel
  refine ⟨p, b, _, p', hload, hbodies, ?_, ?_, hload', ?_⟩
  · rw [hinstructions, List.forall_mem_singleton]
    exact ⟨slotNamed, hoperand, by decide +kernel, by decide +kernel⟩
  · rw [hinstructions, List.mapM_cons, hrender]
    rfl
  · rw [hbodies', List.forall_mem_singleton, hsame, hsame']
    decide

end Listing

end StubClosure
