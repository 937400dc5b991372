import StubClosure.Proofs.Program.Operands
import StubClosure.Proofs.Closure.Alongside
import StubClosure.Proofs.Closure.Noninterference

/-!
# Operands and runs

Three places tell what a member is: the operand that names it, the definition of its type, and the table of members. Scanning goes by the definition where there is one, and by the operand where there is none; what is remembered of a member goes by its signature. So it makes no difference to a run whether operands were resolved before: where there is a definition the operand is not asked, and where there is none it is not changed (`interchangeable_rebind`). Reports write members by their signatures, so they do not differ either.
-/

namespace StubClosure

/-! ## What is written and refined -/

/-- The operand, a member in it made plain. -/
def Operand.plain : Operand → Operand
  | .member m => .member m.plain
  | other => other

namespace Instruction

/-- The instruction, a member in its operand made plain. -/
def plain (ins : Instruction) : Instruction := { ins with operand := ins.operand.map Operand.plain }

theorem render_plain (ins : Instruction) : ins.plain.render = ins.render := by
  unfold render
  rw [show ins.plain.operand = ins.operand.map Operand.plain from rfl]
  cases ins.operand with
  | none => rfl
  | some operand => cases operand <;> rfl

theorem operand_plain_eq_number_iff {ins : Instruction} {n : Int} :
    ins.plain.operand = some (.number n) ↔ ins.operand = some (.number n) := by
  rw [show ins.plain.operand = ins.operand.map Operand.plain from rfl]
  cases ins.operand with
  | none => rfl
  | some operand => cases operand <;> simp [Operand.plain]

end Instruction

namespace Receiver

theorem shape_plain (ins : Instruction) : shape (some ins.plain) = shape (some ins) := by
  unfold shape
  simp only [Instruction.operand_plain_eq_number_iff]
  rfl

theorem loadedType?_plain (b : Body) (ins : Instruction) : loadedType? b ins.plain = loadedType? b ins := by
  unfold loadedType?
  rw [show ins.plain.operand = ins.operand.map Operand.plain from rfl]
  cases ins.operand with
  | none => rfl
  | some operand => cases operand <;> rfl

theorem quoted_plain (ins : Instruction) : quoted ins.plain = quoted ins := by
  rw [quoted, Instruction.render_plain, quoted]

/-- What a call is refined to, and what is reported on it, does not depend on roles and flags. -/
theorem refine_plain (p : Program) (b : Body) (call : Instruction) (m : Member) (producer : Option Instruction) :
    refine p b call.plain m.plain (producer.map Instruction.plain) = refine p b call m producer := by
  cases producer with
  | none => simp only [refine, Option.map_none, shape, quoted_plain]
  | some ins =>
    simp only [Option.map_some]
    unfold refine
    rw [shape_plain]
    cases shape (some ins) with
    | self => rfl
    | unrecognized => simp only [quoted_plain]
    | _ =>
      simp only [loadedType?_plain, quoted_plain]
      rfl

end Receiver

/-! ## What is remembered -/

def Reference.plain (r : Reference) : Reference := { r with target := r.target.plain, declared := r.declared.plain }

/-- What is remembered, with plain members. -/
def Memory.plain (memory : Memory) : Memory where
  folded := memory.folded.mapValues Member.plain
  scanned := memory.scanned.mapValues (·.map Reference.plain)
  refined := memory.refined

/-- Sessions that have reported the same, and remember the same as far as identities go. -/
structure SamePlain (s s' : Session) : Prop where
  sink : s'.sink = s.sink
  memory : s'.memory.plain = s.memory.plain

/-- Sessions that remember the same plainly, each what its own program says. -/
structure SameFaithful (p q : Program) (s s' : Session) : Prop extends SamePlain s s' where
  faithful : s.memory.Faithful p
  faithful' : s'.memory.Faithful q

namespace Scan

variable {p q : Program} {α β : Type} {belong : α → β → Prop}

theorem Parallel.faithful {work : Scan α} {work' : Scan β} (hw : Parallel SamePlain belong work work')
    {good : α → Prop} {good' : β → Prop} (hf : Finds p work good) (hf' : Finds q work' good') :
    Parallel (SameFaithful p q) (fun a b => belong a b ∧ good a ∧ good' b) work work' := by
  intro s s' hs
  obtain ⟨hfound, hplain⟩ := hw s s' hs.toSamePlain
  obtain ⟨hgood, hfaithful⟩ := hf s hs.faithful
  obtain ⟨hgood', hfaithful'⟩ := hf' s' hs.faithful'
  exact ⟨⟨hfound, hgood, hgood'⟩, hplain, hfaithful, hfaithful'⟩

theorem Parallel.mono {S : Session → Session → Prop} {work : Scan α} {work' : Scan β} (hw : Parallel S belong work work')
    {fits : α → β → Prop} (h : ∀ a b, belong a b → fits a b) : Parallel S fits work work' :=
  fun s s' hs => ⟨h _ _ (hw s s' hs).1, (hw s s' hs).2⟩

end Scan

namespace Reference

open Scan

variable {p : Program} {m m' : Member}

/-- References to one member that stand for the same, and call for the same report. -/
structure Interchangeable (p : Program) (m m' : Member) : Prop where
  same : m'.toSignature = m.toSignature
  target : ∀ site, (foldAccessor p m' site).1.plain = (foldAccessor p m site).1.plain
  reports : ∀ site, (foldAccessor p m' site).2 = (foldAccessor p m site).2

theorem interchangeable_refl (p : Program) (m : Member) : Interchangeable p m m := ⟨rfl, fun _ => rfl, fun _ => rfl⟩

theorem interchangeable_of_definition (hs : m'.toSignature = m.toSignature)
    (hd : m.kind = .method → p.definition m' = p.definition m) : Interchangeable p m m' := by
  have hkind : m'.kind = m.kind := congrArg Signature.kind hs
  have hplain : m'.plain = m.plain := Member.plain_eq_iff.2 hs
  by_cases hk : m.kind = .method
  · have hfoldable : p.isFoldable m' = p.isFoldable m := by
      unfold Program.isFoldable
      rw [hkind, show m'.owner = m.owner from congrArg Signature.owner hs, hd hk]
    refine ⟨hs, fun site => ?_, fun site => ?_⟩ <;> unfold foldAccessor <;> rw [hfoldable, hd hk] <;> split
    · split
      · rfl
      · exact hplain
    · exact hplain
    · split <;> rfl
    · rfl
  · have hnot : ∀ other : Member, other.kind ≠ .method → p.isFoldable other = false := by
      intro other ho
      simp [Program.isFoldable, ho]
    refine ⟨hs, fun site => ?_, fun site => ?_⟩ <;> unfold foldAccessor <;>
      rw [hnot m hk, hnot m' (by rwa [hkind])]
    · exact hplain
    · rfl

theorem parallel_normalize (h : Interchangeable p m m') (site : Option Signature) :
    Parallel SamePlain (fun a b => b.plain = a.plain) (normalize p m site) (normalize p m' site) := by
  intro s s' hs
  have hfound : (s'.memory.folded.find? (m.toSignature, site)).map Member.plain =
      (s.memory.folded.find? (m.toSignature, site)).map Member.plain := by
    rw [← Table.find?_mapValues, ← Table.find?_mapValues]
    exact congrArg (fun memory : Memory => memory.folded.find? (m.toSignature, site)) hs.memory
  rw [run_normalize, run_normalize, h.same]
  cases hk : s.memory.folded.find? (m.toSignature, site) with
  | some known =>
    obtain ⟨known', hk', he⟩ := Option.map_eq_some_iff.1 (hfound.trans (congrArg _ hk))
    rw [hk']
    exact ⟨he, hs⟩
  | none =>
    rw [hk, Option.map_none, Option.map_eq_none_iff] at hfound
    rw [hfound]
    refine ⟨h.target site, ?_, ?_⟩
    · show s'.sink.emitAll _ = s.sink.emitAll _
      rw [hs.sink, h.reports]
    · have hmemory := hs.memory
      unfold Memory.plain at hmemory ⊢
      obtain ⟨hfolded, hscanned, hrefined⟩ := Memory.mk.inj hmemory
      dsimp only
      rw [Table.mapValues_insert, Table.mapValues_insert, hfolded, hscanned, hrefined, h.target]

theorem parallel_ofInstruction? {ins ins' : Instruction} (hc : ins'.category = ins.category)
    (hm : Option.Rel (Interchangeable p) ins.member? ins'.member?) (site : Signature) (index : Nat) :
    Parallel SamePlain (fun found found' => found'.map plain = found.map plain) (ofInstruction? p site index ins)
      (ofInstruction? p site index ins') := by
  unfold ofInstruction?
  generalize ins.member? = found, ins'.member? = found' at hm ⊢
  cases hm with
  | none => exact parallel_pure rfl
  | @some m m' hsame =>
    dsimp only
    rw [show ins'.isCall = ins.isCall from congrArg OpCategory.isCall hc,
      show ins'.isFieldAccess = ins.isFieldAccess from congrArg OpCategory.isFieldAccess hc, hc]
    have hplain : m'.plain = m.plain := Member.plain_eq_iff.2 hsame.same
    split
    · refine (parallel_normalize hsame (some site)).bind fun target target' ht => parallel_pure ?_
      simp [plain, ht, hplain]
    · split
      · exact parallel_pure (by simp [plain, hplain])
      · exact parallel_pure rfl

end Reference

/-! ## Resolved operands -/

namespace Program

variable {p : Program}

theorem category_rebind (ins : Instruction) : (p.rebind ins).category = ins.category := by
  unfold rebind
  split <;> rfl

theorem pushes_rebind (ins : Instruction) : (p.rebind ins).pushes = ins.pushes := by
  unfold rebind
  split <;> rfl

/-- **Resolving an operand is of no consequence**: where the program has a definition, that is what counts. -/
theorem Enters.interchangeable_rebind (hp : p.Enters) (ins : Instruction) :
    Option.Rel (Reference.Interchangeable p) ins.member? (p.rebind ins).member? := by
  cases hm : ins.member? with
  | none =>
    have hsame : p.rebind ins = ins := by rw [rebind, hm]; rfl
    rw [hsame, hm]
    exact .none
  | some m =>
    cases hd : p.members.find? m.toSignature with
    | none =>
      have hsame : p.rebind ins = ins := by rw [rebind, hm, Option.bind_some, hd]
      rw [hsame, hm]
      exact .some (Reference.interchangeable_refl p m)
    | some d =>
      have hdef : p.rebind ins = ins.withOperand (.member d) := by rw [rebind, hm, Option.bind_some, hd]
      have hs : d.toSignature = m.toSignature := by
        rw [hp.last] at hd
        exact toSignature_of_lastDeclared? hd
      rw [hdef, member?_withOperand]
      refine .some (Reference.interchangeable_of_definition hs fun hk => ?_)
      have hfound : p.declaration? m = some d := (hp.find?_members hk).symm.trans hd
      rw [definition_eq, definition_eq, declaration?_congr hs, hfound]
      rfl

theorem Enters.plain_rebind (hp : p.Enters) (ins : Instruction) : (p.rebind ins).plain = ins.plain := by
  unfold rebind
  cases hd : ins.member?.bind fun m => p.members.find? m.toSignature with
  | none => rfl
  | some d =>
    obtain ⟨m, hm, hd⟩ := Option.bind_eq_some_iff.1 hd
    have hs : d.toSignature = m.toSignature := by
      rw [hp.last] at hd
      exact toSignature_of_lastDeclared? hd
    obtain ⟨operand, ho, hom⟩ := Option.bind_eq_some_iff.1 hm
    have hoperand : ins.operand = some (.member m) := by
      rw [ho]
      cases operand <;> cases hom
      rfl
    unfold Instruction.plain
    rw [show (ins.withOperand (.member d)).operand = some (.member d) from rfl, hoperand]
    simp only [Option.map_some, Operand.plain, Member.plain_eq_iff.2 hs]
    rfl

/-- The body with its operands resolved. -/
def resolved (p : Program) (b : Body) : Body := { b with instructions := b.instructions.map p.rebind }

theorem body?_resolveOperands (m : Member) : p.resolveOperands.body? m = (p.body? m).map p.resolved :=
  find?_resolveOperands m.toSignature

theorem Has.resolved {b : Body} (h : p.Has b) : p.resolveOperands.Has (p.resolved b) := by
  show p.resolveOperands.body? b.method = some (p.resolved b)
  rw [body?_resolveOperands, show p.body? b.method = some b from h]
  rfl

theorem bodiesOf_resolveOperands (t : TypeId) : p.resolveOperands.bodiesOf t = (p.bodiesOf t).map p.resolved := by
  unfold bodiesOf
  rw [List.map_filterMap]
  exact List.filterMap_congr fun m _ => body?_resolveOperands m

theorem pushedBelow_resolved (b : Body) (index : Int) (others : Nat) :
    Receiver.pushedBelow (p.resolved b) index others = (Receiver.pushedBelow b index others).map p.rebind := by
  have hpushes : (fun ins : Instruction => ins.pushes) ∘ p.rebind = fun ins => ins.pushes := funext pushes_rebind
  unfold Receiver.pushedBelow resolved
  rw [← List.map_take, ← List.map_reverse, List.filter_map, hpushes, List.getElem?_map]

theorem Enters.resolveHere_resolved (hp : p.Enters) {b : Body} {index : Nat} {call : Instruction} {m : Member}
    (hi : b.instructions[index]? = some call) (hv : call.category = .virtualCall) (hm : call.member? = some m) :
    Receiver.resolveHere p (p.resolved b) index = Receiver.resolveHere p b index := by
  have hrel := hp.interchangeable_rebind call
  rw [hm] at hrel
  cases hm' : (p.rebind call).member? with
  | none =>
    rw [hm'] at hrel
    cases hrel
  | some m' =>
    rw [hm'] at hrel
    obtain ⟨hsame⟩ := hrel
    have hi' : (p.resolved b).instructions[index]? = some (p.rebind call) := by
      show (b.instructions.map p.rebind)[index]? = _
      rw [List.getElem?_map, hi]
      rfl
    rw [Receiver.resolveHere_eq hi hv hm, Receiver.resolveHere_eq hi' ((category_rebind call).trans hv) hm',
      show m'.params = m.params from congrArg Signature.params hsame.same, pushedBelow_resolved,
      ← Receiver.refine_plain p b call, ← Receiver.refine_plain p (p.resolved b), hp.plain_rebind,
      Member.plain_eq_iff.2 hsame.same, Option.map_map,
      show Instruction.plain ∘ p.rebind = Instruction.plain from funext hp.plain_rebind]
    rfl

end Program

/-! ## Resolved bodies -/

section
variable {p : Program}

namespace Reference

open Scan

theorem parallel_ofInstructions (hp : p.Enters) (site : Signature) (index : Nat) (instructions : List Instruction) :
    Parallel SamePlain (fun found found' => found'.map plain = found.map plain)
      (ofInstructions p site index instructions) (ofInstructions p site index (instructions.map p.rebind)) := by
  induction instructions generalizing index with
  | nil => exact parallel_pure rfl
  | cons ins rest ih =>
    have hone := parallel_ofInstruction? (p.category_rebind ins) (hp.interchangeable_rebind ins) site index
    refine hone.bind fun first first' hfirst => (ih (index + 1)).bind fun others others' ho => parallel_pure ?_
    have hlist : first'.toList.map plain = first.toList.map plain := by
      rw [← Option.toList_map, ← Option.toList_map, hfirst]
    rw [List.map_append, List.map_append, hlist, ho]

theorem parallel_ofBody (hp : p.Enters) (b : Body) :
    Parallel SamePlain (fun found found' => found'.map plain = found.map plain) (ofBody p b)
      (ofBody p (p.resolved b)) := by
  intro s s' hs
  have hfound : (s'.memory.scanned.find? b.method.toSignature).map (·.map plain) =
      (s.memory.scanned.find? b.method.toSignature).map (·.map plain) := by
    rw [← Table.find?_mapValues, ← Table.find?_mapValues]
    exact congrArg (fun memory : Memory => memory.scanned.find? b.method.toSignature) hs.memory
  rw [run_ofBody, run_ofBody]
  show _ ∧ _
  rw [show (p.resolved b).method = b.method from rfl,
    show (p.resolved b).instructions = b.instructions.map p.rebind from rfl]
  cases hk : s.memory.scanned.find? b.method.toSignature with
  | some known =>
    obtain ⟨known', hk', he⟩ := Option.map_eq_some_iff.1 (hfound.trans (congrArg _ hk))
    rw [hk']
    exact ⟨he, hs⟩
  | none =>
    rw [hk, Option.map_none, Option.map_eq_none_iff] at hfound
    rw [hfound]
    obtain ⟨hsame, hsink, hmemory⟩ := parallel_ofInstructions hp b.method.toSignature 0 b.instructions s s' hs
    refine ⟨hsame, hsink, ?_⟩
    unfold Memory.plain at hmemory ⊢
    obtain ⟨hfolded, hscanned, hrefined⟩ := Memory.mk.inj hmemory
    dsimp only
    rw [Table.mapValues_insert, Table.mapValues_insert, hfolded, hscanned, hrefined, hsame]

end Reference

/-- A question that both bodies answer alike is answered alike, from memory or not. -/
theorem Closing.parallel_resolve {q : Program} {b b' : Body} (hb : p.Has b) (hb' : q.Has b')
    (hs : b'.method.toSignature = b.method.toSignature) {index : Int}
    (hh : Receiver.resolveHere q b' index = Receiver.resolveHere p b index) {run run' : Run}
    (hr : run.Parallel (SameFaithful p q) run') :
    Closing.Parallel (SameFaithful p q) Eq (receiver (Receiver.resolve p b index))
      (receiver (Receiver.resolve q b' index)) run run' := by
  obtain ⟨-, hf, -⟩ := finds_resolveHere hb index run hr.session.faithful
  obtain ⟨-, hf', -⟩ := finds_resolveHere hb' index run' hr.session.faithful'
  have hrefined : run'.session.memory.plain.refined = run.session.memory.plain.refined := by rw [hr.session.memory]
  change run'.session.memory.refined = run.session.memory.refined at hrefined
  unfold Closing.Parallel
  rw [run_receiver, Receiver.run_resolve] at hf hf' ⊢
  rw [run_receiver, Receiver.run_resolve]
  rw [hs, hrefined, hh] at hf' ⊢
  cases hk : run.session.memory.refined.find? (b.method.toSignature, index) with
  | some known => exact ⟨.ok rfl, hr⟩
  | none =>
    cases hfound : Receiver.resolveHere p b index with
    | error e => exact ⟨.error _, hr⟩
    | ok found =>
      rw [hk, hfound] at hf hf'
      refine ⟨.ok rfl, ⟨⟨?_, ?_⟩, hf, hf'⟩, hr.stubs, hr.origins⟩
      · show run'.session.sink.emitAll found.2 = run.session.sink.emitAll found.2
        rw [hr.session.sink]
      · have hmemory := hr.session.memory
        unfold Memory.plain at hmemory ⊢
        obtain ⟨hfolded, hscanned, -⟩ := Memory.mk.inj hmemory
        dsimp only
        rw [hfolded, hscanned]

theorem sameReference_resolved (hp : p.Enters) {b : Body} (hb : p.Has b) {r r' : Reference} (h : r'.plain = r.plain)
    (hr : r.mention ∈ Mention.ofBody p b) :
    SameReference (SameFaithful p p.resolveOperands) p p.resolveOperands b (p.resolved b) r r' := by
  obtain ⟨hcategory, htarget, hdeclared, hindex⟩ := Reference.mk.inj h
  refine ⟨hcategory, Member.plain_eq_iff.1 htarget, Member.plain_eq_iff.1 hdeclared, fun hv run run' hrun => ?_⟩
  obtain ⟨call, hi, hone⟩ := Mention.mem_ofBody.1 hr
  obtain ⟨hcall, hm⟩ := Mention.of_ofInstruction? hone
  rw [hindex]
  refine Closing.parallel_resolve hb hb.resolved rfl ?_ hrun
  rw [Receiver.resolveHere_congr (Program.sameTypes_of_eq rfl)]
  exact hp.resolveHere_resolved hi (hcall.symm.trans hv) hm

theorem sameBody_resolved (hp : p.Built) {b : Body} (hb : p.Has b) :
    SameBody (SameFaithful p p.resolveOperands) p p.resolveOperands b (p.resolved b) := by
  have hsame : Reference.ofBody p.resolveOperands = Reference.ofBody p :=
    Reference.ofBody_congr (Program.sameTypes_of_eq rfl)
  have hfinds := Reference.finds_ofBody hp.coherent.resolveOperands hb.resolved
  rw [hsame] at hfinds
  unfold SameBody
  rw [hsame]
  refine ((Reference.parallel_ofBody hp.enters b).faithful (Reference.finds_ofBody hp.coherent hb) hfinds).mono ?_
  rintro refs refs' ⟨hplain, hmentions, -⟩
  have hpairs : List.Forall₂ (fun r r' : Reference => r.plain = r'.plain) refs refs' := by
    apply List.forall₂_map_right_iff.1
    apply List.forall₂_map_left_iff.1
    rw [List.forall₂_eq_eq_eq]
    exact hplain.symm
  have hmentioned : ∀ r ∈ refs, r.mention ∈ Mention.ofBody p b := by
    intro r hr
    rw [← hmentions]
    exact List.mem_map_of_mem hr
  refine ((List.forall₂_and_left refs refs').2 ⟨hmentioned, hpairs⟩).imp ?_
  rintro r r' ⟨hr, he⟩
  exact sameReference_resolved hp.enters hb he.symm hr

/-- The program and the program with its operands resolved answer alike. -/
theorem alongside_resolveOperands (hp : p.Built) :
    Alongside (SameFaithful p p.resolveOperands) p p.resolveOperands where
  types := Program.sameTypes_of_eq rfl
  names := rfl
  bodies := by
    intro t
    rw [Program.bodiesOf_resolveOperands, List.forall₂_map_right_iff]
    exact List.forall₂_same.2 fun b hb => sameBody_resolved hp (hp.coherent.has_of_mem_bodiesOf hb)
  folds := by
    intro m
    have hfinds := Reference.finds_normalize hp.coherent.resolveOperands m none
    have hsame : Reference.normalize p.resolveOperands = Reference.normalize p :=
      Reference.normalize_congr (Program.sameTypes_of_eq rfl)
    rw [hsame] at hfinds ⊢
    have hparallel := Reference.parallel_normalize (Reference.interchangeable_refl p m) none
    exact (hparallel.faithful (Reference.finds_normalize hp.coherent m none) hfinds).mono fun _ _ h => h.1
  traces := fun messages s s' hs => ⟨rfl, ⟨congrArg (·.debugAll messages) hs.sink, hs.memory⟩, hs.faithful, hs.faithful'⟩
  reports := fun ds s s' hs => ⟨rfl, ⟨congrArg (·.emitAll ds) hs.sink, hs.memory⟩, hs.faithful, hs.faithful'⟩

end

namespace Closure

/-- **Resolving operands only adds what definitions tell.** Types, members and methods stay as they are, and in each body so do locals and instructions, but for the operands that name a member of the program: they come to be the member as it is declared, and keep its identity. Resolving them once is enough. And it is of no consequence to any run: with operands resolved or not, a run comes to the same stubs, passes, origins and reports, members told by their identities, or to the same error. -/
theorem run_resolveOperands {p : Program} (hp : p.Built) :
    let q := p.resolveOperands
    (q.name = p.name ∧ q.types = p.types ∧ q.names = p.names ∧ q.members = p.members) ∧
    (q.bodies.keys = p.bodies.keys ∧ ∀ key b, p.bodies.find? key = some b → ∃ b', q.bodies.find? key = some b' ∧
      b'.method = b.method ∧ b'.locals = b.locals ∧ List.Forall₂ p.Resolves b.instructions b'.instructions) ∧
    q.resolveOperands = q ∧
    ∀ names options sink,
      (run q names options { sink }).1.map ClosureResult.plain = (run p names options { sink }).1.map ClosureResult.plain ∧
      (run q names options { sink }).2.sink = (run p names options { sink }).2.sink := by
  intro q
  refine ⟨⟨rfl, rfl, rfl, rfl⟩, ⟨?_, fun key b hb => ?_⟩, hp.enters.resolveOperands_resolveOperands,
    fun names options sink => ?_⟩
  · exact Table.keys_mapValues (fun b : Body => p.resolved b) p.bodies
  · refine ⟨p.resolved b, ?_, rfl, rfl, ?_⟩
    · rw [Program.find?_resolveOperands, hb]
      rfl
    · rw [show (p.resolved b).instructions = b.instructions.map p.rebind from rfl, List.forall₂_map_right_iff]
      exact List.forall₂_same.2 fun ins _ => hp.enters.resolves_rebind ins
  · have hstart : SameFaithful p q { sink } { sink } :=
      ⟨⟨rfl, rfl⟩, Memory.faithful_empty p, Memory.faithful_empty q⟩
    obtain ⟨htogether, hsession⟩ := alongside_run (alongside_resolveOperands hp) names options hstart
    refine ⟨?_, hsession.sink⟩
    generalize (run p names options { sink }).1 = outcome, (run q names options { sink }).1 = outcome' at htogether ⊢
    cases htogether with
    | error e => rfl
    | ok h =>
      obtain ⟨hsources, hstubs, hpasses, horigins, s, s', hs, hd, hd'⟩ := h
      have hdiagnostics := hd'.trans ((congrArg Sink.diagnostics hs.sink).trans hd.symm)
      refine congrArg Except.ok ?_
      unfold ClosureResult.plain
      rw [hsources, hstubs, hpasses, horigins, hdiagnostics]

/-- `Animal.Speak` becomes the getter of a property. -/
def voiced : Program :=
  (BuildStep.property Zoo.animal "Voice" (.id Zoo.dog) (some (.name "Speak")) none).after Zoo.program

/-- Once it is a getter, the call in `Foo.Make` names it as one, and a run goes on as before. -/
theorem run_resolveOperands_voiced : voiced.Built ∧
    (∃ b call, voiced.resolveOperands.bodies.find? Zoo.make.method.toSignature = some b ∧ b.instructions[2]? = some call ∧
      call.operand = some (.member (Zoo.speak.withRole .getter)) ∧ call.mnemonic = "callvirt") ∧
    (run voiced.resolveOperands ["Foo"] {} { sink := {} }).1.map ClosureResult.plain =
      (run voiced ["Foo"] {} { sink := {} }).1.map ClosureResult.plain := by
  have hbuilt : voiced.Built := Zoo.built.step _
  obtain ⟨-, ⟨-, hbodies⟩, -, hrun⟩ := run_resolveOperands hbuilt
  have hbody : voiced.bodies.find? Zoo.make.method.toSignature = some Zoo.make := by decide
  have hdeclared : voiced.lastDeclared? Zoo.speak.toSignature = some (Zoo.speak.withRole .getter) := by decide
  obtain ⟨b, hb, -, -, hinstructions⟩ := hbodies _ Zoo.make hbody
  refine ⟨hbuilt, ⟨b, ?_⟩, (hrun _ _ _).1⟩
  generalize b.instructions = resolved at hinstructions ⊢
  rcases hinstructions with _ | ⟨-, _ | ⟨-, _ | ⟨hcall, _⟩⟩⟩
  exact ⟨_, hb, rfl, hcall.known Zoo.speak rfl _ hdeclared, hcall.mnemonic⟩

end Closure

end StubClosure
