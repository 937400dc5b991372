import StubClosure.Proofs.Program.Reencoding
import StubClosure.Proofs.Closure.Operands

/-!
# Re-encoded bodies and runs

Runs of two programs that differ only in the encoding of bodies. What is scanned and where it stands depends on the encoding; what is found does not. A session on the one program and a session on the other go side by side (`SameReading`): they have folded the same members and scanned the same bodies, they have been asked about calls at corresponding places, and report by report the code and the severity are the same. Texts are not, for a warning writes the instruction with its offset and in the form in which it stands. By `alongside_run`, whole runs then come to the same.
-/

namespace StubClosure

open Instruction

/-- Reports of one kind, whatever they say. -/
structure Diagnostic.SameKind (d d' : Diagnostic) : Prop where
  code : d'.code = d.code
  severity : d'.severity = d.severity

/-! ## Receivers -/

namespace Receiver

variable {p : Program} {b b' : Body} {i j : Nat} {call call' : Instruction} {m : Member}

theorem pushedBelow_reencoded (h : Corresponds b.instructions b'.instructions i j) (others : Nat) :
    Option.Rel Recoded (pushedBelow b i others) (pushedBelow b' j others) := by
  have hpushed := List.forall₂_reverse_iff.2 h.before.filter_pushes
  unfold pushedBelow
  rw [Int.toNat_natCast, Int.toNat_natCast, List.filter_reverse, List.filter_reverse]
  generalize (List.filter (·.pushes) (b.instructions.take i)).reverse = pushed,
    (List.filter (·.pushes) (b'.instructions.take j)).reverse = pushed' at hpushed ⊢
  induction hpushed generalizing others with
  | nil => exact .none
  | cons h _ ih =>
    cases others with
    | zero => exact .some h
    | succ others => exact ih others

theorem shape_recoded {ins ins' : Instruction} (h : Recoded ins ins') : shape (some ins') = shape (some ins) := by
  simp only [shape, h.category, h.operand]

theorem loadedType?_recoded (hb : b.Reencodes b') {ins ins' : Instruction} (h : Recoded ins ins') :
    loadedType? b' ins' = loadedType? b ins := by
  simp only [loadedType?, Body.localType?, h.operand, hb.locals]

theorem quoted_recoded {ins ins' : Instruction} (h : Recoded ins ins') :
    (∃ text text', quoted ins = .ok text ∧ quoted ins' = .ok text') ∨
      ∃ e, quoted ins = .error e ∧ quoted ins' = .error e := by
  rcases h.render with ⟨text, text', hr, hr'⟩ | ⟨e, hr, hr'⟩
  · exact .inl ⟨text, text', quoted_of_render hr, quoted_of_render hr'⟩
  · exact .inr ⟨_, quoted_of_render_error hr, quoted_of_render_error hr'⟩

/-- The same refinement, and reports of the same kinds. -/
def SameFinding (found found' : Option Refinement × List Diagnostic) : Prop :=
  found'.1 = found.1 ∧ List.Forall₂ Diagnostic.SameKind found.2 found'.2

theorem refine_reencoded (p : Program) (hb : b.Reencodes b') (hcall : Recoded call call') (hm : call.member? = some m)
    {producer producer' : Option Instruction} (h : Option.Rel Recoded producer producer') :
    Together SameFinding (refine p b call m producer) (refine p b' call' m producer') := by
  obtain ⟨written, hw⟩ := Instruction.exists_render hm
  obtain ⟨written', hw'⟩ := Instruction.exists_render (hcall.member?_eq.trans hm)
  replace hw := quoted_of_render hw
  replace hw' := quoted_of_render hw'
  cases h with
  | none =>
    simp only [refine, shape, hw, hw']
    exact .ok ⟨rfl, .cons ⟨rfl, rfl⟩ .nil⟩
  | @some ins ins' h =>
    have hshape := shape_recoded h
    cases hs : shape (some ins) with
    | self =>
      simp only [refine, hshape, hs]
      exact .ok ⟨rfl, .nil⟩
    | unrecognized =>
      simp only [refine, hshape, hs, hw, hw']
      rcases quoted_recoded h with ⟨text, text', hr, hr'⟩ | ⟨e, hr, hr'⟩ <;> rw [hr, hr']
      · exact .ok ⟨rfl, .cons ⟨rfl, rfl⟩ .nil⟩
      · exact .error e
    | «local» =>
      simp only [refine, hshape, hs, loadedType?_recoded hb h]
      cases loadedType? b ins with
      | error e => exact .error e
      | ok found =>
        cases found with
        | none =>
          simp only [hw, hw']
          rcases quoted_recoded h with ⟨text, text', hr, hr'⟩ | ⟨e, hr, hr'⟩ <;> rw [hr, hr']
          · exact .ok ⟨rfl, .cons ⟨rfl, rfl⟩ .nil⟩
          · exact .error e
        | some receiver =>
          show Together SameFinding (if _ then _ else _) (if _ then _ else _)
          split
          · exact .ok ⟨rfl, .nil⟩
          · exact .ok ⟨rfl, .cons ⟨rfl, rfl⟩ .nil⟩

/-- **A virtual call comes to the same** at the place that corresponds to its own. -/
theorem resolveHere_reencoded (p : Program) (hb : b.Reencodes b') (h : Corresponds b.instructions b'.instructions i j)
    (hi : b.instructions[i]? = some call) (hv : call.category = .virtualCall) (hm : call.member? = some m) :
    Together SameFinding (resolveHere p b i) (resolveHere p b' j) := by
  obtain ⟨found, call', hfound, hj, hcall, -⟩ := h.here
  obtain rfl : call = found := Option.some.inj (hi.symm.trans hfound)
  rw [resolveHere_eq hi hv hm, resolveHere_eq hj (hcall.category.trans hv) (hcall.member?_eq.trans hm)]
  exact refine_reencoded p hb hcall hm (pushedBelow_reencoded h m.params.length)

end Receiver

/-! ## What is mentioned -/

/-- Mentions of one member by instructions of one category, at corresponding places. -/
structure Mention.Reencodes (l l' : List Instruction) (o o' : Mention) : Prop where
  category : o'.category = o.category
  target : o'.target = o.target
  declared : o'.declared = o.declared
  place : Corresponds l l' o.index o'.index

namespace Mention

variable {p : Program} {ins ins' : Instruction}

theorem ofInstruction?_of_isIdle (h : ins.IsIdle) (index : Nat) : ofInstruction? p index ins = none := by
  unfold ofInstruction?
  cases ins.member? with
  | none => rfl
  | some m => simp [h.2.1, h.2.2]

theorem not_isIdle_of_ofInstruction? {index : Nat} {o : Mention} (h : ofInstruction? p index ins = some o) :
    ¬ ins.IsIdle := by
  intro hidle
  rw [ofInstruction?_of_isIdle hidle] at h
  cases h

theorem ofInstruction?_recoded (h : Recoded ins ins') (i j : Nat) : ofInstruction? p j ins' =
    (ofInstruction? p i ins).map fun o => { o with index := j } := by
  unfold ofInstruction? isCall isFieldAccess
  rw [h.category, h.member?_eq]
  cases ins.member? with
  | none => rfl
  | some m =>
    dsimp only [Option.bind_some]
    split
    · rfl
    · split <;> rfl

theorem ofInstructions_reencoded (p : Program) {done done' rest rest' : List Instruction} (hdone : Reencoded done done')
    (h : Reencoded rest rest') : List.Forall₂ (Reencodes (done ++ rest) (done' ++ rest'))
      (ofInstructions p done.length rest) (ofInstructions p done'.length rest') := by
  induction h generalizing done done' with
  | nil => exact .nil
  | @keep ins ins' rest rest' h hrest ih =>
    have hnext := ih (hdone.append (.keep h .nil))
    rw [List.append_assoc, List.append_assoc, List.length_append, List.length_append] at hnext
    rw [ofInstructions, ofInstructions, ofInstruction?_recoded h done.length done'.length]
    cases ho : ofInstruction? p done.length ins with
    | none => exact hnext
    | some o =>
      refine .cons ⟨rfl, rfl, rfl, ?_⟩ hnext
      rw [index_eq ho]
      refine ⟨?_, ins, ins', by simp, by simp, h, not_isIdle_of_ofInstruction? ho⟩
      rwa [List.take_left, List.take_left]
  | @remove ins rest rest' h hrest ih =>
    have hnext := ih (hdone.append (.remove h .nil))
    rw [List.append_nil, List.append_assoc, List.length_append] at hnext
    rw [ofInstructions, ofInstruction?_of_isIdle h]
    exact hnext
  | @insert ins' rest rest' h hrest ih =>
    have hnext := ih (hdone.append (.insert h .nil))
    rw [List.append_nil, List.append_assoc, List.length_append] at hnext
    rw [ofInstructions, ofInstruction?_of_isIdle h]
    exact hnext

theorem ofBody_reencoded (p : Program) {b b' : Body} (hb : b.Reencodes b') :
    List.Forall₂ (Reencodes b.instructions b'.instructions) (ofBody p b) (ofBody p b') :=
  ofInstructions_reencoded p .nil hb.instructions

end Mention

/-! ## Sessions -/

/-- Sessions that have been asked the same, about calls at corresponding places, and have made reports of the same kinds. -/
structure SameAsked (p q : Program) (s s' : Session) : Prop where
  told : List.Forall₂ Diagnostic.SameKind s.sink.diagnostics s'.sink.diagnostics
  folded : s'.memory.folded = s.memory.folded
  scanned : s'.memory.scanned.keys = s.memory.scanned.keys
  refined : ∀ b b', p.Has b → q.Has b' → b.Reencodes b' → ∀ i j : Nat,
    Corresponds b.instructions b'.instructions i j →
    ((b'.method.toSignature, (j : Int)) ∈ s'.memory.refined.keys ↔
      (b.method.toSignature, (i : Int)) ∈ s.memory.refined.keys)

/-- Sessions that go side by side, each remembering what its own program says. -/
structure SameReading (p q : Program) (s s' : Session) : Prop extends SameAsked p q s s' where
  faithful : s.memory.Faithful p
  faithful' : s'.memory.Faithful q

theorem Diagnostic.sameKind_refl (ds : List Diagnostic) : List.Forall₂ SameKind ds ds :=
  List.forall₂_same.2 fun _ _ => ⟨rfl, rfl⟩

theorem Sink.sameKind_emitAll {sink sink' : Sink} {ds ds' : List Diagnostic}
    (h : List.Forall₂ Diagnostic.SameKind sink.diagnostics sink'.diagnostics)
    (hds : List.Forall₂ Diagnostic.SameKind ds ds') :
    List.Forall₂ Diagnostic.SameKind (sink.emitAll ds).diagnostics (sink'.emitAll ds').diagnostics := by
  rw [diagnostics_emitAll, diagnostics_emitAll]
  exact List.rel_append h hds

namespace Reference

open Scan

variable {p q r : Program}

theorem parallel_normalize_sameAsked (m : Member) (site : Option Signature) :
    Parallel (SameAsked p q) Eq (normalize r m site) (normalize r m site) := by
  intro s s' hs
  rw [run_normalize, run_normalize, hs.folded]
  cases s.memory.folded.find? (m.toSignature, site) with
  | some known => exact ⟨rfl, hs⟩
  | none =>
    exact ⟨rfl, Sink.sameKind_emitAll hs.told (Diagnostic.sameKind_refl _), rfl, hs.scanned, hs.refined⟩

theorem ofInstruction?_of_isIdle {ins : Instruction} (h : ins.IsIdle) (site : Signature) (index : Nat) :
    ofInstruction? r site index ins = pure none := by
  unfold ofInstruction?
  cases ins.member? with
  | none => rfl
  | some m =>
    dsimp only
    rw [h.2.1, h.2.2]
    rfl

theorem ofInstructions_cons_of_isIdle {ins : Instruction} (h : ins.IsIdle) (site : Signature) (index : Nat)
    (rest : List Instruction) : ofInstructions r site index (ins :: rest) = ofInstructions r site (index + 1) rest := by
  rw [ofInstructions, ofInstruction?_of_isIdle h]
  simp

theorem parallel_ofInstruction?_recoded {ins ins' : Instruction} (h : Recoded ins ins') (site : Signature) (i j : Nat) :
    Parallel (SameAsked p q) (fun _ _ => True) (ofInstruction? r site i ins) (ofInstruction? r site j ins') := by
  unfold ofInstruction? isCall isFieldAccess
  rw [h.category, h.member?_eq]
  cases ins.member? with
  | none => exact parallel_pure trivial
  | some m =>
    dsimp only
    split
    · exact (parallel_normalize_sameAsked m (some site)).bind fun _ _ _ => parallel_pure trivial
    · split <;> exact parallel_pure trivial

theorem parallel_ofInstructions_reencoded {l l' : List Instruction} (h : Reencoded l l') (site : Signature) (i j : Nat) :
    Parallel (SameAsked p q) (fun _ _ => True) (ofInstructions r site i l) (ofInstructions r site j l') := by
  induction h generalizing i j with
  | nil => exact parallel_pure trivial
  | keep h _ ih =>
    refine (parallel_ofInstruction?_recoded h site i j).bind fun _ _ _ => ?_
    exact (ih (i + 1) (j + 1)).bind fun _ _ _ => parallel_pure trivial
  | remove h _ ih =>
    rw [ofInstructions_cons_of_isIdle h]
    exact ih (i + 1) j
  | insert h _ ih =>
    rw [ofInstructions_cons_of_isIdle h]
    exact ih i (j + 1)

theorem parallel_ofBody_reencoded (ht : p.SameTypes q) {b b' : Body} (hb : b.Reencodes b') :
    Parallel (SameAsked p q) (fun _ _ => True) (ofBody p b) (ofBody q b') := by
  intro s s' hs
  rw [ofBody_congr ht, run_ofBody, run_ofBody, hb.method]
  cases hk : s.memory.scanned.find? b.method.toSignature with
  | some known =>
    have hmem : b.method.toSignature ∈ s'.memory.scanned.keys := by
      rw [hs.scanned]
      exact Table.mem_keys_of_find? hk
    obtain ⟨known', hk'⟩ := Table.exists_find?_of_mem hmem
    rw [hk']
    exact ⟨trivial, hs⟩
  | none =>
    have hk' : s'.memory.scanned.find? b.method.toSignature = none := by
      rw [Table.find?_eq_none_iff, hs.scanned]
      exact Table.find?_eq_none_iff.1 hk
    rw [hk']
    obtain ⟨-, hafter⟩ := parallel_ofInstructions_reencoded (r := p) hb.instructions b.method.toSignature 0 0 s s' hs
    refine ⟨trivial, hafter.told, hafter.folded, ?_, hafter.refined⟩
    dsimp only
    rw [Table.keys_insert, Table.keys_insert, hafter.scanned]

end Reference

section
variable {p q : Program} {b b' : Body} {i j : Nat}

/-- A question is known at a place exactly if it is at the place that corresponds to it, also after it was asked there. -/
theorem SameAsked.refined_insert {s s' : Session} (hs : SameAsked p q s s') (hb : p.Has b) (hb' : q.Has b')
    (h : b.Reencodes b') (hplace : Corresponds b.instructions b'.instructions i j) (found : Option Refinement) :
    ∀ c c', p.Has c → q.Has c' → c.Reencodes c' → ∀ k l : Nat, Corresponds c.instructions c'.instructions k l →
      ((c'.method.toSignature, (l : Int)) ∈
          (s'.memory.refined.insert (b'.method.toSignature, (j : Int)) found).keys ↔
        (c.method.toSignature, (k : Int)) ∈ (s.memory.refined.insert (b.method.toSignature, (i : Int)) found).keys) := by
  intro c c' hc hc' hcc k l hkl
  rw [Table.mem_keys_insert, Table.mem_keys_insert, hs.refined c c' hc hc' hcc k l hkl]
  refine or_congr_left ?_
  rw [Prod.mk.injEq, Prod.mk.injEq, hcc.method, h.method]
  refine and_congr_right fun hsame => ?_
  obtain rfl := hc.eq hb hsame
  obtain rfl := hc'.eq hb' (by rw [h.method, hcc.method])
  rw [Int.natCast_inj, Int.natCast_inj]
  exact (hkl.eq_iff hplace).symm

/-- A virtual call comes to the same, from memory or not, and the reports on it are of the same kinds. -/
theorem Closing.parallel_resolve_reencoded (hb : p.Has b) (hb' : q.Has b') (h : b.Reencodes b')
    (hplace : Corresponds b.instructions b'.instructions i j)
    (hh : Together Receiver.SameFinding (Receiver.resolveHere p b i) (Receiver.resolveHere q b' j)) {run run' : Run}
    (hr : run.Parallel (SameReading p q) run') :
    Closing.Parallel (SameReading p q) Eq (receiver (Receiver.resolve p b i)) (receiver (Receiver.resolve q b' j))
      run run' := by
  obtain ⟨-, hf, -⟩ := finds_resolveHere hb i run hr.session.faithful
  obtain ⟨-, hf', -⟩ := finds_resolveHere hb' j run' hr.session.faithful'
  have hasked := hr.session.refined b b' hb hb' h i j hplace
  unfold Closing.Parallel
  rw [run_receiver, Receiver.run_resolve] at hf hf' ⊢
  rw [run_receiver, Receiver.run_resolve]
  cases hk : run.session.memory.refined.find? (b.method.toSignature, (i : Int)) with
  | some known =>
    obtain ⟨known', hk'⟩ := Table.exists_find?_of_mem (hasked.2 (Table.mem_keys_of_find? hk))
    obtain ⟨reports, hfound⟩ := hr.session.faithful.refined b i known hb hk
    obtain ⟨reports', hfound'⟩ := hr.session.faithful'.refined b' j known' hb' hk'
    rw [hfound, hfound'] at hh
    rw [hk']
    cases hh with
    | ok hsame => exact ⟨.ok hsame.1.symm, hr⟩
  | none =>
    have hk' : run'.session.memory.refined.find? (b'.method.toSignature, (j : Int)) = none := by
      rw [Table.find?_eq_none_iff, hasked]
      exact Table.find?_eq_none_iff.1 hk
    rw [hk] at hf
    rw [hk'] at hf' ⊢
    generalize Receiver.resolveHere p b i = outcome, Receiver.resolveHere q b' j = outcome' at hh hf hf' ⊢
    cases hh with
    | error e => exact ⟨.error _, hr⟩
    | @ok found found' hsame =>
      obtain ⟨refinement, reports⟩ := found
      obtain ⟨_, reports'⟩ := found'
      obtain ⟨rfl, hreports⟩ := hsame
      refine ⟨.ok rfl, ⟨⟨?_, hr.session.folded, hr.session.scanned, ?_⟩, hf, hf'⟩, hr.stubs, hr.origins⟩
      · exact Sink.sameKind_emitAll hr.session.told hreports
      · exact hr.session.refined_insert hb hb' h hplace _

theorem sameReference_reencoded (ht : p.SameTypes q) (hb : p.Has b) (hb' : q.Has b') (h : b.Reencodes b')
    {r r' : Reference} (hr : Mention.Reencodes b.instructions b'.instructions r.mention r'.mention)
    (hmention : r.mention ∈ Mention.ofBody p b) : SameReference (SameReading p q) p q b b' r r' := by
  refine ⟨hr.category, hr.target, congrArg Member.toSignature hr.declared, fun hv run run' hrun => ?_⟩
  obtain ⟨call, hi, hone⟩ := Mention.mem_ofBody.1 hmention
  obtain ⟨hcall, hm⟩ := Mention.of_ofInstruction? hone
  refine Closing.parallel_resolve_reencoded hb hb' h hr.place ?_ hrun
  rw [Receiver.resolveHere_congr ht]
  exact Receiver.resolveHere_reencoded p h hr.place hi (hcall.symm.trans hv) hm

theorem sameBody_reencoded (hp : p.Coherent) (hq : q.Coherent) (ht : p.SameTypes q) (hb : p.Has b) (hb' : q.Has b')
    (h : b.Reencodes b') : SameBody (SameReading p q) p q b b' := by
  intro s s' hs
  obtain ⟨-, hasked⟩ := Reference.parallel_ofBody_reencoded ht h s s' hs.toSameAsked
  obtain ⟨hfound, hfaithful⟩ := Reference.finds_ofBody hp hb s hs.faithful
  obtain ⟨hfound', hfaithful'⟩ := Reference.finds_ofBody hq hb' s' hs.faithful'
  refine ⟨?_, hasked, hfaithful, hfaithful'⟩
  have hmentions := Mention.ofBody_reencoded p h
  rw [← Mention.ofBody_congr ht b', ← hfound, ← hfound', List.forall₂_map_left_iff, List.forall₂_map_right_iff]
    at hmentions
  have hmentioned : ∀ r ∈ ((Reference.ofBody p b).run s).1, r.mention ∈ Mention.ofBody p b := by
    intro r hr
    rw [← hfound]
    exact List.mem_map_of_mem hr
  refine ((List.forall₂_and_left _ _).2 ⟨hmentioned, hmentions⟩).imp ?_
  rintro r r' ⟨hr, hsame⟩
  exact sameReference_reencoded ht hb hb' h hsame hr

theorem forall₂_bodiesOf (hp : p.Coherent) (h : p.Reencodes q) (t : TypeId) :
    List.Forall₂ (fun b b' => q.Has b' ∧ p.Has b ∧ b.Reencodes b') (p.bodiesOf t) (q.bodiesOf t) := by
  have hq := hp.reencodes h
  have hhas : ∀ b ∈ p.bodiesOf t, p.Has b := fun b => hp.has_of_mem_bodiesOf
  have hhas' : ∀ b' ∈ q.bodiesOf t, q.Has b' := fun b' => hq.has_of_mem_bodiesOf
  have hpairs : List.Forall₂ (flip fun b b' => p.Has b ∧ b.Reencodes b') (q.bodiesOf t) (p.bodiesOf t) :=
    ((List.forall₂_and_left _ _).2 ⟨hhas, h.bodiesOf t⟩).flip
  exact ((List.forall₂_and_left _ _).2 ⟨hhas', hpairs⟩).flip

/-- A program and one that differs from it in the encoding of bodies answer alike. -/
theorem alongside_reencodes (hp : p.Built) (h : p.Reencodes q) : Alongside (SameReading p q) p q where
  types := Program.sameTypes_of_eq h.types
  names := h.findType?_eq
  bodies := by
    intro t
    refine (forall₂_bodiesOf hp.coherent h t).imp fun b b' hpair => ?_
    obtain ⟨hb', hb, hbody⟩ := hpair
    exact sameBody_reencoded hp.coherent (hp.coherent.reencodes h) (Program.sameTypes_of_eq h.types) hb hb' hbody
  folds := by
    intro m s s' hs
    obtain ⟨hsame, hasked⟩ := Reference.parallel_normalize_sameAsked (r := p) m none s s' hs.toSameAsked
    have hf := (Reference.finds_normalize hp.coherent m none s hs.faithful).2
    have hf' := (Reference.finds_normalize (hp.coherent.reencodes h) m none s' hs.faithful').2
    rw [Reference.normalize_congr (Program.sameTypes_of_eq h.types)] at hf' ⊢
    exact ⟨congrArg Member.plain hsame.symm, hasked, hf, hf'⟩
  traces := by
    intro messages s s' hs
    refine ⟨rfl, ⟨?_, hs.folded, hs.scanned, hs.refined⟩, hs.faithful, hs.faithful'⟩
    show List.Forall₂ _ (s.sink.debugAll messages).diagnostics (s'.sink.debugAll messages).diagnostics
    rw [Sink.diagnostics_debugAll, Sink.diagnostics_debugAll]
    exact hs.told
  reports := by
    intro ds s s' hs
    refine ⟨rfl, ⟨?_, hs.folded, hs.scanned, hs.refined⟩, hs.faithful, hs.faithful'⟩
    exact Sink.sameKind_emitAll hs.told (Diagnostic.sameKind_refl ds)

end

/-! ## Runs -/

namespace Closure

/-- So many reports of one code and severity. -/
def countKind (ds : List Diagnostic) (code : Option String) (severity : Severity) : Nat :=
  ds.countP fun d => d.code = code && d.severity = severity

theorem countKind_eq {ds ds' : List Diagnostic} (h : List.Forall₂ Diagnostic.SameKind ds ds') (code : Option String)
    (severity : Severity) : countKind ds' code severity = countKind ds code severity := by
  unfold countKind
  induction h with
  | nil => rfl
  | cons h _ ih => rw [List.countP_cons, List.countP_cons, ih, h.code, h.severity]

/-- Results with the same source types, stubs, passes and origins, members told by their identities, and as many reports of each code and severity. -/
structure SameOutcome (r r' : ClosureResult) : Prop where
  sources : r'.sources = r.sources
  stubs : r'.stubs.plain = r.stubs.plain
  passes : r'.passes.map PassSummary.plain = r.passes.map PassSummary.plain
  origins : r'.origins = r.origins
  reports : ∀ code severity, countKind r'.diagnostics code severity = countKind r.diagnostics code severity

/-- **The encoding of bodies makes no difference to a run.** Take two programs that are the same but for their bodies, and these the same but for instructions that push nothing and refer to no member, inserted or removed anywhere, for offsets, and for the form, short or long, in which slots are named. Whatever the source names and the options, the runs come to the same source types, stubs, passes and origins, and to as many reports of each code and severity; or else both fail with the same error. -/
theorem run_reencoded {p q : Program} (hp : p.Built) (h : p.Reencodes q) (names : List String)
    (options : ClosureOptions) (sink : Sink) :
    Together SameOutcome (run p names options { sink }).1 (run q names options { sink }).1 ∧
      ∀ code severity, countKind (run q names options { sink }).2.sink.diagnostics code severity =
        countKind (run p names options { sink }).2.sink.diagnostics code severity := by
  have hstart : SameReading p q { sink } { sink } := by
    refine ⟨⟨Diagnostic.sameKind_refl _, rfl, rfl, fun _ _ _ _ _ _ _ _ => ?_⟩, Memory.faithful_empty p, Memory.faithful_empty q⟩
    simp
  obtain ⟨htogether, hsession⟩ := alongside_run (alongside_reencodes hp h) names options hstart
  refine ⟨?_, countKind_eq hsession.told⟩
  generalize (run p names options { sink }).1 = outcome, (run q names options { sink }).1 = outcome' at htogether ⊢
  cases htogether with
  | error e => exact .error e
  | ok h =>
    obtain ⟨hsources, hstubs, hpasses, horigins, s, s', hs, hd, hd'⟩ := h
    refine .ok ⟨hsources, hstubs, hpasses, horigins, fun code severity => ?_⟩
    rw [hd, hd']
    exact countKind_eq hs.told code severity

end Closure

namespace Zoo

/-- `Foo.Make` with a `nop` before it all, the local named in the long form, and a `ret` at the end. -/
def makeAnew : Body :=
  { make with
    instructions :=
      [{ offset := 0, category := .other, mnemonic := "nop", pushes := false },
       { offset := 1, category := .loadLocal, mnemonic := "ldloc.s", operand := some (.number 0) },
       { offset := 3, category := .loadArg, mnemonic := "ldarg.0", operand := some (.number 0) },
       { callSpeak with offset := 4 }, { offset := 9, category := .other, mnemonic := "ret", pushes := false }] }

theorem reencodes_makeAnew : make.Reencodes makeAnew where
  method := rfl
  locals := rfl
  instructions := by
    have hshort : Instruction.make 0 "ldloc.0" none = .ok
        { offset := 0, category := .loadLocal, mnemonic := "ldloc.0", operand := some (.number 0) } := rfl
    have hlong : Instruction.make 1 "ldloc.s" (some (.number 0)) = .ok
        { offset := 1, category := .loadLocal, mnemonic := "ldloc.s", operand := some (.number 0) } := rfl
    refine .insert (by decide) (.keep (Instruction.recoded_of_make hshort hlong rfl rfl rfl) ?_)
    exact .keep ⟨rfl, rfl, rfl, .inl rfl⟩ (.keep ⟨rfl, rfl, rfl, .inl rfl⟩ (.insert (by decide) .nil))

theorem reencodes_setBody : program.Reencodes (program.setBody makeAnew) where
  name := rfl
  types := rfl
  names := rfl
  members := rfl
  bodies := by
    intro key
    rw [Program.find?_setBody]
    split
    next he =>
      rw [he, show program.bodies.find? makeAnew.method.toSignature = some make by decide]
      exact .some reencodes_makeAnew
    · cases program.bodies.find? key with
      | none => exact .none
      | some b => exact .some ⟨rfl, rfl, reencoded_refl _⟩

end Zoo

/-- In the zoo, `Foo.Make` may be written otherwise, and a run comes to the same. -/
theorem Closure.run_reencoded_zoo : Zoo.program.Built ∧ Zoo.program.Reencodes (Zoo.program.setBody Zoo.makeAnew) ∧
    Together Closure.SameOutcome (Closure.run Zoo.program ["Foo"] {} {}).1
      (Closure.run (Zoo.program.setBody Zoo.makeAnew) ["Foo"] {} {}).1 :=
  ⟨Zoo.built, Zoo.reencodes_setBody, (Closure.run_reencoded Zoo.built Zoo.reencodes_setBody ["Foo"] {} {}).1⟩

end StubClosure
