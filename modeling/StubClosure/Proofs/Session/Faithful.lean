import StubClosure.Receiver
import StubClosure.StubSet
import StubClosure.Proofs.Session.Mention

/-!
# Faithful memories

A session answers from its memory what it has been asked before. A memory is faithful to a program if what it would answer is what the program says, as far as identities go. Work in a session on a coherent program finds what the program says and keeps the memory faithful: `Finds` says so, rule by rule, up to the references of a body and the contents of a stub.
-/

namespace StubClosure

/-- What is remembered is what the program says. -/
structure Memory.Faithful (p : Program) (memory : Memory) : Prop where
  folded : ∀ m site known, memory.folded.find? (m.toSignature, site) = some known →
    known.toSignature = p.folded m
  scanned : ∀ b known, p.Has b → memory.scanned.find? b.method.toSignature = some known →
    known.map Reference.mention = Mention.ofBody p b
  refined : ∀ b index known, p.Has b → memory.refined.find? (b.method.toSignature, index) = some known →
    ∃ reports, Receiver.resolveHere p b index = .ok (known, reports)

theorem Memory.faithful_empty (p : Program) : Memory.Faithful p {} where
  folded := by intro m site known h; cases h
  scanned := by intro b known hb h; cases h
  refined := by intro b index known hb h; cases h

/-! ## What each question does to a session -/

namespace Reference

theorem run_normalize (p : Program) (m : Member) (site : Option Signature) (s : Session) :
    (normalize p m site).run s =
      match s.memory.folded.find? (m.toSignature, site) with
      | some known => (known, s)
      | none =>
        ((foldAccessor p m site).1,
          { sink := s.sink.emitAll (foldAccessor p m site).2
            memory := { s.memory with
              folded := s.memory.folded.insert (m.toSignature, site) (foldAccessor p m site).1 } }) := by
  show (match s.memory.folded.find? (m.toSignature, site) with
    | some known => pure known
    | none => _ : Scan Member).run s = _
  cases s.memory.folded.find? (m.toSignature, site) <;> rfl

theorem run_ofBody (p : Program) (b : Body) (s : Session) :
    (ofBody p b).run s =
      match s.memory.scanned.find? b.method.toSignature with
      | some known => (known, s)
      | none =>
        let found := (ofInstructions p b.method.toSignature 0 b.instructions).run s
        (found.1, { found.2 with
          memory := { found.2.memory with
            scanned := found.2.memory.scanned.insert b.method.toSignature found.1 } }) := by
  show (match s.memory.scanned.find? b.method.toSignature with
    | some known => pure known
    | none => _ : Scan (List Reference)).run s = _
  cases s.memory.scanned.find? b.method.toSignature <;> rfl

end Reference

namespace Receiver

theorem run_resolve (p : Program) (b : Body) (index : Int) (s : Session) :
    (resolve p b index).run.run s =
      match s.memory.refined.find? (b.method.toSignature, index) with
      | some known => (.ok known, s)
      | none =>
        match resolveHere p b index with
        | .error e => (.error e, s)
        | .ok (refinement, reports) =>
          (.ok refinement,
            { sink := s.sink.emitAll reports
              memory := { s.memory with
                refined := s.memory.refined.insert (b.method.toSignature, index) refinement } }) := by
  show (match s.memory.refined.find? (b.method.toSignature, index) with
    | some known => pure known
    | none => _ : ExceptT ReceiverError Scan (Option Refinement)).run.run s = _
  cases s.memory.refined.find? (b.method.toSignature, index) with
  | some known => rfl
  | none => cases resolveHere p b index <;> rfl

end Receiver

/-! ## Finding what the program says -/

namespace Scan

variable {α β : Type} {p : Program}

/-- On a faithful memory the work finds something of which `good` holds, and the memory is faithful after it. -/
def Finds (p : Program) (work : Scan α) (good : α → Prop) : Prop :=
  ∀ s : Session, s.memory.Faithful p → good (work.run s).1 ∧ (work.run s).2.memory.Faithful p

theorem finds_pure {good : α → Prop} {a : α} (h : good a) : Finds p (pure a) good := fun _ hs => ⟨h, hs⟩

theorem Finds.mono {work : Scan α} {found good : α → Prop} (hw : Finds p work found) (h : ∀ a, found a → good a) :
    Finds p work good :=
  fun s hs => ⟨h _ (hw s hs).1, (hw s hs).2⟩

theorem Finds.bind {work : Scan α} {next : α → Scan β} {found : α → Prop} {good : β → Prop}
    (hw : Finds p work found) (hn : ∀ a, found a → Finds p (next a) good) : Finds p (work >>= next) good := by
  intro s hs
  obtain ⟨ha, hm⟩ := hw s hs
  exact hn _ ha _ hm

end Scan

namespace Reference

open Scan

variable {p : Program}

theorem finds_normalize (hp : p.Coherent) (m : Member) (site : Option Signature) :
    Finds p (normalize p m site) fun target => target.toSignature = p.folded m := by
  intro s hs
  rw [run_normalize]
  cases hf : s.memory.folded.find? (m.toSignature, site) with
  | some known => exact ⟨hs.folded m site known hf, hs⟩
  | none =>
    have ht := Program.foldAccessor_fst p m site
    refine ⟨ht, ?_, hs.scanned, hs.refined⟩
    intro other otherSite known h
    rw [Table.find?_insert] at h
    split at h
    next he =>
      obtain rfl := Option.some.inj h
      rw [ht]
      exact hp.folded_congr (Prod.mk.inj he).1.symm
    · exact hs.folded other otherSite known h

theorem finds_ofInstruction? (hp : p.Coherent) (site : Signature) (index : Nat) (ins : Instruction) :
    Finds p (ofInstruction? p site index ins) fun found =>
      found.map mention = Mention.ofInstruction? p index ins := by
  unfold ofInstruction? Mention.ofInstruction?
  cases ins.member? with
  | none => exact finds_pure rfl
  | some m =>
    simp only [Option.bind_some]
    split
    · refine (finds_normalize hp m (some site)).bind fun target ht => finds_pure ?_
      simp [mention, ht]
    · split
      · exact finds_pure rfl
      · exact finds_pure rfl

theorem finds_ofInstructions (hp : p.Coherent) (site : Signature) (index : Nat) (instructions : List Instruction) :
    Finds p (ofInstructions p site index instructions) fun found =>
      found.map mention = Mention.ofInstructions p index instructions := by
  induction instructions generalizing index with
  | nil => exact finds_pure rfl
  | cons ins rest ih =>
    refine (finds_ofInstruction? hp site index ins).bind fun first hf => ?_
    refine (ih (index + 1)).bind fun others ho => finds_pure ?_
    rw [Mention.ofInstructions, List.map_append, ho, ← hf]
    cases first <;> rfl

theorem finds_ofBody (hp : p.Coherent) {b : Body} (hb : p.Has b) :
    Finds p (ofBody p b) fun found => found.map mention = Mention.ofBody p b := by
  intro s hs
  rw [run_ofBody]
  cases hk : s.memory.scanned.find? b.method.toSignature with
  | some known => exact ⟨hs.scanned b known hb hk, hs⟩
  | none =>
    obtain ⟨hf, hm⟩ := finds_ofInstructions hp b.method.toSignature 0 b.instructions s hs
    refine ⟨hf, hm.folded, ?_, hm.refined⟩
    intro other known hother h
    simp only [Table.find?_insert] at h
    split at h
    next he =>
      obtain rfl := Option.some.inj h
      rw [hother.eq hb he]
      exact hf
    · exact hm.scanned other known hother h

theorem finds_ofBodies (hp : p.Coherent) {bodies : List Body} (hb : ∀ b ∈ bodies, p.Has b) :
    Finds p (ofBodies p bodies) fun found =>
      (found.flatMap (·.2)).map mention = bodies.flatMap (Mention.ofBody p) := by
  induction bodies with
  | nil => exact finds_pure rfl
  | cons b rest ih =>
    refine (finds_ofBody hp (hb b List.mem_cons_self)).bind fun found hf => ?_
    refine (ih fun other h => hb other (List.mem_cons_of_mem _ h)).bind fun others ho => finds_pure ?_
    rw [List.flatMap_cons, List.map_append, hf, ho, List.flatMap_cons]

theorem finds_into (hp : p.Coherent) (stub scanned : TypeId) :
    Finds p (into p stub scanned) fun found => found.IsKeyed ∧ ∀ s, s ∈ found.keys ↔
      s.owner = stub ∧ ∃ b ∈ p.bodiesOf scanned, ∃ o ∈ Mention.ofBody p b, o.target = s := by
  refine (finds_ofBodies hp fun b => hp.has_of_mem_bodiesOf).bind fun found hf => finds_pure ?_
  refine ⟨MemberSet.isKeyed_addAll MemberSet.isKeyed_empty _, fun s => ?_⟩
  have htargets : ((found.flatMap (·.2)).map target).map (·.toSignature) =
      ((p.bodiesOf scanned).flatMap (Mention.ofBody p)).map Mention.target := by
    rw [← hf, List.map_map, List.map_map]
    rfl
  have hmem : s ∈ ((found.flatMap (·.2)).map target).map (·.toSignature) ↔
      ∃ b ∈ p.bodiesOf scanned, ∃ o ∈ Mention.ofBody p b, o.target = s := by
    rw [htargets, List.mem_map]
    simp only [List.mem_flatMap]
    constructor
    · rintro ⟨o, ⟨b, hb, ho⟩, rfl⟩
      exact ⟨b, hb, o, ho, rfl⟩
    · rintro ⟨b, hb, o, ho, rfl⟩
      exact ⟨o, ⟨b, hb, ho⟩, rfl⟩
  rw [← hmem]
  unfold MemberSet.ofList
  rw [MemberSet.mem_keys_addAll]
  simp only [Table.keys_empty, List.not_mem_nil, false_or, List.mem_map, List.mem_filter, decide_eq_true_eq]
  constructor
  · rintro ⟨m, ⟨hm, ho⟩, rfl⟩
    exact ⟨ho, m, hm, rfl⟩
  · rintro ⟨ho, m, hm, rfl⟩
    exact ⟨m, ⟨hm, ho⟩, rfl⟩

end Reference

end StubClosure
