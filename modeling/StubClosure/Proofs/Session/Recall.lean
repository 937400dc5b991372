import StubClosure.Proofs.Plain
import StubClosure.Proofs.Program.Operands
import StubClosure.Proofs.Session.Faithful
import StubClosure.Proofs.Session.Reading

/-!
# Answers from memory

A session answers as one would who goes over the program anew each time, and reports what there is to report on first lookups. Two things have to be kept up for this. What is remembered is what would be read (`Memory.Recalls`), and the keys that are remembered are those of the lookups that were made and reported on (`Session.Told`). Each change of the memory keeps up both, so each question does: `Scan.Follows` says of some work that it finds what a reading finds, and makes the lookups that the reading makes.

A session knows a member by its signature, and to a member that differs in role or flag it may hand out what it found for the other. A view of members says how much of what is found counts. Members are `SeenAlike` in it if those of one signature stand for the same. There are two such views: members may be taken as they are where none that are asked about differ in role and flag alone (`seenAlike_id`), and in a coherent program any may be taken as plain members (`Coherent.seenAlike_plain`).
-/

namespace StubClosure

/-- The reference as a view of members shows it. The member that its instruction names is shown as it is. -/
def Reference.viewed (view : Member → Member) (r : Reference) : Reference := { r with target := view r.target }

namespace Program

/-- Members that are asked about, operands among them, stand for the same in the view if they have one signature. -/
structure SeenAlike (p : Program) (asked : Set Member) (view : Member → Member) : Prop where
  operands : p.operands ⊆ asked
  alike : ∀ m ∈ asked, ∀ other ∈ asked, m.toSignature = other.toSignature → ∀ site,
    view (Reference.foldAccessor p m site).1 = view (Reference.foldAccessor p other site).1
  signature : ∀ m, (view m).toSignature = m.toSignature

variable {p : Program} {asked : Set Member}

theorem seenAlike_id (ho : p.operands ⊆ asked) (h : Set.InjOn Member.toSignature asked) : p.SeenAlike asked id where
  operands := ho
  alike := fun m hm other hother hsame site => by rw [h hm hother hsame]
  signature := fun _ => rfl

theorem Coherent.seenAlike_plain (hp : p.Coherent) : p.SeenAlike Set.univ Member.plain where
  operands := Set.subset_univ _
  alike := by
    intro m _ other _ hsame site
    rw [Member.plain_eq_iff, foldAccessor_fst, foldAccessor_fst, hp.folded_congr hsame]
  signature := fun _ => rfl

end Program

/-! ## What is remembered -/

/-- What is remembered looks as what would be read. -/
structure Memory.Recalls (p : Program) (asked : Set Member) (view : Member → Member) (memory : Memory) : Prop where
  folded : ∀ m ∈ asked, ∀ site known, memory.folded.find? (m.toSignature, site) = some known →
    view known = view (Reference.foldAccessor p m site).1
  scanned : ∀ b known, p.Has b → memory.scanned.find? b.method.toSignature = some known →
    known.map (Reference.viewed view) = (Reference.readBody p b).found.map (Reference.viewed view)
  refined : ∀ b index known, p.Has b → memory.refined.find? (b.method.toSignature, index) = some known →
    ∃ reports, Receiver.resolveHere p b index = .ok (known, reports)

namespace Memory

variable {p : Program} {asked : Set Member} {view : Member → Member} {memory : Memory}

theorem recalls_empty (p : Program) (asked : Set Member) (view : Member → Member) : Recalls p asked view {} where
  folded := by intro m hm site known h; cases h
  scanned := by intro b known hb h; cases h
  refined := by intro b index known hb h; cases h

theorem Recalls.fold (h : memory.Recalls p asked view) (hv : p.SeenAlike asked view) {m : Member} (hm : m ∈ asked)
    (site : Option Signature) : Recalls p asked view
      { memory with folded := memory.folded.insert (m.toSignature, site) (Reference.foldAccessor p m site).1 } where
  folded := by
    intro other hother otherSite known hk
    rw [Table.find?_insert] at hk
    split at hk
    next he =>
      obtain rfl := Option.some.inj hk
      obtain ⟨hsame, rfl⟩ := Prod.mk.inj he
      exact hv.alike m hm other hother hsame.symm otherSite
    · exact h.folded other hother otherSite known hk
  scanned := h.scanned
  refined := h.refined

theorem Recalls.scan (h : memory.Recalls p asked view) {b : Body} (hb : p.Has b) {found : List Reference}
    (hf : found.map (Reference.viewed view) = (Reference.readBody p b).found.map (Reference.viewed view)) :
    Recalls p asked view { memory with scanned := memory.scanned.insert b.method.toSignature found } where
  folded := h.folded
  scanned := by
    intro other known hother hk
    rw [Table.find?_insert] at hk
    split at hk
    next he =>
      obtain rfl := Option.some.inj hk
      rw [hother.eq hb he]
      exact hf
    · exact h.scanned other known hother hk
  refined := h.refined

theorem Recalls.refine (h : memory.Recalls p asked view) {b : Body} (hb : p.Has b) {index : Int}
    {refinement : Option Refinement} {reports : List Diagnostic}
    (hhere : Receiver.resolveHere p b index = .ok (refinement, reports)) : Recalls p asked view
      { memory with refined := memory.refined.insert (b.method.toSignature, index) refinement } where
  folded := h.folded
  scanned := h.scanned
  refined := by
    intro other place known hother hk
    rw [Table.find?_insert] at hk
    split at hk
    next he =>
      obtain rfl := Option.some.inj hk
      obtain ⟨hsame, rfl⟩ := Prod.mk.inj he
      rw [hother.eq hb hsame]
      exact ⟨reports, hhere⟩
    · exact h.refined other place known hother hk

end Memory

/-! ## What was reported -/

open Lookup (Known)

/-- The lookups were made, and the first of each key was reported on, beginning with a sink. What the session remembers comes of these lookups, and it remembers all of them but calls that cannot be refined. -/
structure Session.Told (p : Program) (sink : Sink) (past : List Lookup) (s : Session) : Prop where
  sink : s.sink = sink.emitAll (Lookup.reported p past)
  folded : ∀ key, key ∈ s.memory.folded.keys ↔ Known past (.inl key)
  scanned : ∀ b, p.Has b → b.method.toSignature ∈ s.memory.scanned.keys →
    ∀ look ∈ (Reference.readBody p b).lookups, Known past look.key
  refined : ∀ key ∈ s.memory.refined.keys, Known past (.inr key)
  resolved : ∀ b index, p.Has b → Known past (.inr (b.method.toSignature, index)) →
    (∃ outcome, Receiver.resolveHere p b index = .ok outcome) →
      (b.method.toSignature, index) ∈ s.memory.refined.keys

namespace Session

variable {p : Program} {sink : Sink} {past more : List Lookup} {s : Session}

theorem told_nil (p : Program) (sink : Sink) : Told p sink [] { sink } where
  sink := rfl
  folded := by simp [Known]
  scanned := by simp
  refined := by simp
  resolved := by simp [Known]

theorem Told.known (h : s.Told p sink past) (hm : ∀ look ∈ more, Known past look.key) : s.Told p sink (past ++ more) := by
  refine ⟨?_, ?_, ?_, ?_, ?_⟩
  · rw [Lookup.reported_append_of_forall hm]
    exact h.sink
  all_goals simp only [Lookup.known_append_iff_of_forall hm]
  · exact h.folded
  · exact h.scanned
  · exact h.refined
  · exact h.resolved

theorem Told.fold (h : s.Told p sink past) {m : Member} {site : Option Signature}
    (hnew : s.memory.folded.find? (m.toSignature, site) = none) (target : Member) : Told p sink (past ++ [.fold m site])
      { sink := s.sink.emitAll (Reference.foldAccessor p m site).2
        memory := { s.memory with folded := s.memory.folded.insert (m.toSignature, site) target } } where
  sink := by
    have hunknown : ¬ Known past (Lookup.fold m site).key := fun hk =>
      Table.find?_eq_none_iff.1 hnew ((h.folded _).2 hk)
    rw [Lookup.reported_concat_of_new hunknown, Sink.emitAll_append, ← h.sink]
    rfl
  folded := by
    intro key
    rw [Table.mem_keys_insert, h.folded, Lookup.known_concat_iff, or_comm, Lookup.key, Sum.inl.injEq]
  scanned := fun b hb hk look hlook => (h.scanned b hb hk look hlook).append _
  refined := fun key hk => (h.refined key hk).append _
  resolved := fun b index hb hk =>
    h.resolved b index hb ((Lookup.known_concat_iff.1 hk).resolve_right Sum.inr_ne_inl)

theorem Told.scan (h : s.Told p sink past) {b : Body} (hb : p.Has b)
    (hread : ∀ look ∈ (Reference.readBody p b).lookups, Known past look.key) (found : List Reference) : Told p sink past
      { s with memory := { s.memory with scanned := s.memory.scanned.insert b.method.toSignature found } } where
  sink := h.sink
  folded := h.folded
  scanned := by
    intro other hother hk
    rcases Table.mem_keys_insert.1 hk with he | hk
    · rwa [hother.eq hb he]
    · exact h.scanned other hother hk
  refined := h.refined
  resolved := h.resolved

/-- A call that cannot be refined is not remembered, but there is nothing to report on it either. -/
theorem Told.fail (h : s.Told p sink past) {b : Body} (hb : p.Has b) {index : Int} {e : ReceiverError}
    (hhere : Receiver.resolveHere p b index = .error e) : s.Told p sink (past ++ [.receiver b index]) where
  sink := by
    have hsilent : (Lookup.receiver b index).reports p = [] := by rw [Lookup.reports, hhere]
    rw [Lookup.reported_concat_of_silent hsilent]
    exact h.sink
  folded := by
    intro key
    rw [h.folded, Lookup.known_concat_iff, Lookup.key, or_iff_left Sum.inl_ne_inr]
  scanned := fun b hb hk look hlook => (h.scanned b hb hk look hlook).append _
  refined := fun key hk => (h.refined key hk).append _
  resolved := by
    intro other place hother hk houtcome
    rcases Lookup.known_concat_iff.1 hk with hk | hk
    · exact h.resolved other place hother hk houtcome
    · obtain ⟨hsame, rfl⟩ := Prod.mk.inj (Sum.inr.inj hk)
      obtain ⟨outcome, houtcome⟩ := houtcome
      rw [hother.eq hb hsame, hhere] at houtcome
      cases houtcome

theorem Told.refine (h : s.Told p sink past) {b : Body} (hb : p.Has b) {index : Int}
    {refinement : Option Refinement} {reports : List Diagnostic}
    (hnew : s.memory.refined.find? (b.method.toSignature, index) = none)
    (hhere : Receiver.resolveHere p b index = .ok (refinement, reports)) : Told p sink (past ++ [.receiver b index])
      { sink := s.sink.emitAll reports
        memory := { s.memory with
          refined := s.memory.refined.insert (b.method.toSignature, index) refinement } } where
  sink := by
    have hreports : (Lookup.receiver b index).reports p = reports := by rw [Lookup.reports, hhere]
    have hunknown : ¬ Known past (Lookup.receiver b index).key := fun hk =>
      Table.find?_eq_none_iff.1 hnew (h.resolved b index hb hk ⟨_, hhere⟩)
    rw [Lookup.reported_concat_of_new hunknown, hreports, Sink.emitAll_append, ← h.sink]
  folded := by
    intro key
    rw [h.folded, Lookup.known_concat_iff, Lookup.key, or_iff_left Sum.inl_ne_inr]
  scanned := fun b hb hk look hlook => (h.scanned b hb hk look hlook).append _
  refined := by
    intro key hk
    rw [Lookup.known_concat_iff]
    exact (Table.mem_keys_insert.1 hk).symm.imp (h.refined key) (congrArg Sum.inr)
  resolved := by
    intro other place hother hk houtcome
    rw [Table.mem_keys_insert]
    exact (Lookup.known_concat_iff.1 hk).symm.imp Sum.inr.inj fun hk => h.resolved other place hother hk houtcome

end Session

/-! ## Work that follows a reading -/

namespace Scan

variable {α β α' β' : Type} {p : Program} {asked : Set Member} {view : Member → Member}

/-- In a session that recalls what it was told, the work finds the same as the reading, for all that one can see of it. The session goes on to recall that, with the lookups of the reading. -/
def Follows (p : Program) (asked : Set Member) (view : Member → Member) (work : Scan α) (reading : Reading α)
    (see : α → α') : Prop :=
  ∀ sink past s, s.Told p sink past → s.memory.Recalls p asked view →
    see (work.run s).1 = see reading.found ∧ (work.run s).2.Told p sink (past ++ reading.lookups) ∧
      (work.run s).2.memory.Recalls p asked view

theorem follows_pure {a b : α} {see : α → α'} (h : see a = see b) : Follows p asked view (pure a) (pure b) see := by
  intro sink past s hs hr
  rw [Reading.lookups_pure, List.append_nil]
  exact ⟨h, hs, hr⟩

theorem Follows.bind {work : Scan α} {reading : Reading α} {see : α → α'} {next : α → Scan β} {further : α → Reading β}
    {seeNext : β → β'} (hw : Follows p asked view work reading see)
    (hn : ∀ a b, see a = see b → Follows p asked view (next a) (further b) seeNext) :
    Follows p asked view (work >>= next) (reading >>= further) seeNext := by
  intro sink past s hs hr
  obtain ⟨ha, hs', hr'⟩ := hw sink past s hs hr
  rw [Reading.lookups_bind, ← List.append_assoc]
  exact hn _ _ ha sink _ _ hs' hr'

end Scan

namespace Reference

open Scan

variable {p : Program} {asked : Set Member} {view : Member → Member} (hv : p.SeenAlike asked view)
include hv

theorem follows_normalize {m : Member} (hm : m ∈ asked) (site : Option Signature) :
    Follows p asked view (normalize p m site) (readMember p m site) view := by
  intro sink past s hs hr
  rw [run_normalize]
  cases hf : s.memory.folded.find? (m.toSignature, site) with
  | some known =>
    have hknown : Known past (Lookup.fold m site).key := (hs.folded _).1 (Table.mem_keys_of_find? hf)
    exact ⟨hr.folded m hm site known hf, hs.known (List.forall_mem_singleton.2 hknown), hr⟩
  | none => exact ⟨rfl, hs.fold hf _, hr.fold hv hm site⟩

theorem follows_ofInstruction? {ins : Instruction} (hi : ∀ m, ins.member? = some m → m ∈ asked) (site : Signature)
    (index : Nat) : Follows p asked view (ofInstruction? p site index ins) (read? p site index ins)
      (Option.map (viewed view)) := by
  unfold ofInstruction? read?
  cases hm : ins.member? with
  | none => exact follows_pure rfl
  | some m =>
    dsimp only
    split
    · refine (follows_normalize hv (hi m hm) (some site)).bind fun target read ht => follows_pure ?_
      simp [viewed, ht]
    · split
      · exact follows_pure rfl
      · exact follows_pure rfl

theorem follows_ofInstructions {instructions : List Instruction}
    (hi : ∀ ins ∈ instructions, ∀ m, ins.member? = some m → m ∈ asked) (site : Signature) (index : Nat) :
    Follows p asked view (ofInstructions p site index instructions) (readFrom p site index instructions)
      (List.map (viewed view)) := by
  induction instructions generalizing index with
  | nil => exact follows_pure rfl
  | cons ins rest ih =>
    rw [List.forall_mem_cons] at hi
    refine (follows_ofInstruction? hv hi.1 site index).bind fun found read hf => ?_
    refine (ih hi.2 (index + 1)).bind fun others readOthers ho => follows_pure ?_
    rw [List.map_append, List.map_append, ← Option.toList_map, ← Option.toList_map, hf, ho]

theorem follows_ofBody {b : Body} (hb : p.Has b) :
    Follows p asked view (ofBody p b) (readBody p b) (List.map (viewed view)) := by
  intro sink past s hs hr
  rw [run_ofBody]
  cases hf : s.memory.scanned.find? b.method.toSignature with
  | some known =>
    have hknown := hs.scanned b hb (Table.mem_keys_of_find? hf)
    exact ⟨hr.scanned b known hb hf, hs.known hknown, hr⟩
  | none =>
    have hasked : ∀ ins ∈ b.instructions, ∀ m, ins.member? = some m → m ∈ asked := fun ins hins m hm =>
      hv.operands ⟨_, b, hb, ins, hins, hm⟩
    obtain ⟨hfound, hs', hr'⟩ := follows_ofInstructions hv hasked b.method.toSignature 0 sink past s hs hr
    exact ⟨hfound, hs'.scan hb (fun look hlook => Lookup.known_append_of_mem past hlook) _, hr'.scan hb hfound⟩

theorem follows_ofBodies {bodies : List Body} (hb : ∀ b ∈ bodies, p.Has b) :
    Follows p asked view (ofBodies p bodies) (readBodies p bodies)
      fun found => (found.flatMap (·.2)).map (viewed view) := by
  induction bodies with
  | nil => exact follows_pure rfl
  | cons b rest ih =>
    rw [List.forall_mem_cons] at hb
    refine (follows_ofBody hv hb.1).bind fun found read hf => ?_
    refine (ih hb.2).bind fun others readOthers ho => follows_pure ?_
    rw [List.flatMap_cons, List.flatMap_cons, List.map_append, List.map_append, hf, ho]

theorem follows_into (hp : p.OwnsBodies) (stub scanned : TypeId) :
    Follows p asked view (into p stub scanned) (readInto p stub scanned) (Table.mapValues view) := by
  -- a view keeps the owner of a target, so it does not matter whether targets are chosen before or after
  have howner : ∀ m, (view m).owner = m.owner := fun m => congrArg Signature.owner (hv.signature m)
  have hchosen : ∀ members : List Member,
      (members.filter (·.owner = stub)).map view = (members.map view).filter (·.owner = stub) := by
    intro members
    rw [List.filter_map]
    exact congrArg (List.map view) (List.filter_congr fun m _ => by rw [Function.comp_apply, howner])
  have hviewed : ∀ list : List Reference, (list.map target).map view = (list.map (viewed view)).map target := by
    intro list
    rw [List.map_map, List.map_map]
    rfl
  refine (follows_ofBodies hv fun b => hp.has_of_mem_bodiesOf).bind fun found read hf => follows_pure ?_
  unfold MemberSet.ofList
  rw [MemberSet.mapValues_addAll hv.signature, MemberSet.mapValues_addAll hv.signature, hchosen, hchosen, hviewed,
    hviewed, hf]

end Reference

theorem Receiver.follows_resolve {p : Program} {asked : Set Member} {view : Member → Member} {b : Body} (hb : p.Has b)
    (index : Int) : Scan.Follows p asked view (resolve p b index).run (read p b index) id := by
  intro sink past s hs hr
  rw [run_resolve]
  cases hf : s.memory.refined.find? (b.method.toSignature, index) with
  | some known =>
    obtain ⟨reports, hhere⟩ := hr.refined b index known hb hf
    have hknown : Known past (Lookup.receiver b index).key := hs.refined _ (Table.mem_keys_of_find? hf)
    refine ⟨?_, hs.known (List.forall_mem_singleton.2 hknown), hr⟩
    rw [read, hhere]
    rfl
  | none =>
    cases hhere : resolveHere p b index with
    | error e => exact ⟨by rw [read, hhere]; rfl, hs.fail hb hhere, hr⟩
    | ok outcome => exact ⟨by rw [read, hhere]; rfl, hs.refine hb hf hhere, hr.refine hb hhere⟩

end StubClosure
