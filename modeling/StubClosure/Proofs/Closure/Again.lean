import StubClosure.Proofs.Session.Settled
import StubClosure.Proofs.Closure.Pass

/-!
# A pass made again

A pass depends on the keys at its start and on nothing else that it changes: members feed nothing back, and what has been asked once is not reported again. So a pass that has added no key, made again, adds nothing at all and changes no more than the log (`runPass_again`).
-/

namespace StubClosure

/-- The other run remembers as much, and has origins for as many types. -/
structure Run.Within (run other : Run) : Prop where
  memory : run.session.memory.Within other.session.memory
  origins : run.origins.keys ⊆ other.origins.keys

theorem Run.within_refl (run : Run) : run.Within run := ⟨run.session.memory.within_refl, fun _ h => h⟩

theorem Run.Within.trans {run middle other : Run} (h : run.Within middle) (h' : middle.Within other) :
    run.Within other :=
  ⟨h.memory.trans h'.memory, fun _ ht => h'.origins (h.origins ht)⟩

/-- The other run differs in its log at most. -/
structure Run.Resembles (run other : Run) : Prop where
  session : run.session.Resembles other.session
  stubs : other.stubs = run.stubs
  origins : other.origins = run.origins

theorem Run.resembles_refl (run : Run) : run.Resembles run := ⟨run.session.resembles_refl, rfl, rfl⟩

theorem Run.Resembles.trans {run middle other : Run} (h : run.Resembles middle) (h' : middle.Resembles other) :
    run.Resembles other :=
  ⟨h.session.trans h'.session, h'.stubs.trans h.stubs, h'.origins.trans h.origins⟩

theorem Run.Resembles.within {run other : Run} (h : run.Resembles other) : run.Within other where
  memory := by rw [h.session.memory]; exact run.session.memory.within_refl
  origins := by rw [h.origins]; exact fun _ ht => ht

namespace Closing

variable {α β : Type}

/-- Work that has come to a value once comes to the same value again, and changes no more than the log. -/
def Settles (work : Closing α) : Prop :=
  ∀ run a after, work.run.run run = (.ok a, after) → run.Within after ∧ after.stubs = run.stubs ∧
    ∀ later, after.Within later → ∃ last, work.run.run later = (.ok a, last) ∧ later.Resembles last

theorem settles_pure (a : α) : Settles (pure a) := by
  rintro run _ _ ⟨⟩
  exact ⟨run.within_refl, rfl, fun later _ => ⟨later, rfl, later.resembles_refl⟩⟩

theorem Settles.bind {work : Closing α} {next : α → Closing β} (hw : Settles work) (hn : ∀ a, Settles (next a)) :
    Settles (work >>= next) := by
  intro run b after h
  obtain ⟨a, between, ha, hb⟩ := Step.exists_of_run_bind h
  obtain ⟨hgrow, hstubs, hagain⟩ := hw run a between ha
  obtain ⟨hgrow', hstubs', hagain'⟩ := hn a between b after hb
  refine ⟨hgrow.trans hgrow', hstubs'.trans hstubs, fun later hl => ?_⟩
  obtain ⟨middle, hm, hr⟩ := hagain later (hgrow'.trans hl)
  obtain ⟨last, hlast, hr'⟩ := hagain' middle (hl.trans hr.within)
  exact ⟨last, (Step.run_bind_of_ok hm).trans hlast, hr.trans hr'⟩

theorem run_scan (work : Scan α) (run : Run) :
    (scan work).run.run run = (.ok (work.run run.session).1, { run with session := (work.run run.session).2 }) := rfl

theorem settles_scan {work : Scan α} (hw : Scan.Settles work) : Settles (scan work) := by
  rintro run a after h
  rw [run_scan] at h
  cases h
  refine ⟨⟨hw.grows run.session, fun _ ht => ht⟩, rfl, fun later hl => ?_⟩
  obtain ⟨ha, hr⟩ := hw.again run.session later.session hl.memory
  exact ⟨{ later with session := (work.run later.session).2 }, by rw [run_scan, ha], hr, rfl, rfl⟩

theorem settles_resolve (p : Program) (b : Body) (index : Int) : Settles (receiver (Receiver.resolve p b index)) := by
  intro run a after h
  rw [run_receiver, Receiver.run_resolve] at h
  have hagain : ∀ later : Run, later.session.memory.refined.find? (b.method.toSignature, index) = some a →
      ∃ last, (receiver (Receiver.resolve p b index)).run.run later = (.ok a, last) ∧ later.Resembles last := by
    intro later hl
    exact ⟨later, by rw [run_receiver, Receiver.run_resolve, hl]; rfl, later.resembles_refl⟩
  cases hf : run.session.memory.refined.find? (b.method.toSignature, index) with
  | some known =>
    rw [hf] at h
    cases h
    exact ⟨run.within_refl, rfl, fun later hl => hagain later (hl.memory.refined _ _ hf)⟩
  | none =>
    rw [hf] at h
    cases hr : Receiver.resolveHere p b index with
    | error e =>
      rw [hr] at h
      cases h
    | ok found =>
      rw [hr] at h
      cases h
      refine ⟨⟨⟨Table.within_refl _, Table.within_refl _, Table.within_insert hf _⟩, fun _ ht => ht⟩, rfl, ?_⟩
      exact fun later hl => hagain later (hl.memory.refined _ _ (by simp))

end Closing

namespace Closure

open Closing

variable {p : Program} {sources : List TypeId}

/-! ## What the source types ask for -/

theorem settles_discover (p : Program) (b : Body) (r : Reference) (d : Discovery) : Settles (discover p b r d) := by
  rw [discover_eq]
  refine Settles.bind ?_ fun refinement => settles_pure _
  split
  · exact settles_resolve p b r.index
  · exact settles_pure none

theorem settles_relatedIn (p : Program) (source : TypeId) (known : List TypeId) (b : Body) (refs : List Reference)
    (d : Discovery) : Settles (relatedIn p source known b refs d) := by
  unfold relatedIn
  induction refs.filter (isRelated p source known) generalizing d with
  | nil => exact settles_pure d
  | cons r rest ih =>
    rw [List.foldlM_cons]
    exact (settles_discover p b r d).bind ih

theorem settles_relatedInBodies (p : Program) (source : TypeId) (known : List TypeId) (bodies : List Body)
    (d : Discovery) : Settles (relatedInBodies p source known bodies d) := by
  induction bodies generalizing d with
  | nil => exact settles_pure d
  | cons b rest ih =>
    exact (settles_scan (Reference.settles_ofBody p b)).bind fun refs =>
      (settles_relatedIn p source known b refs d).bind ih

theorem foldl_insertNew_eq_self {types : List TypeId} {origins : Table TypeId TypeId} (source : TypeId)
    (h : ∀ t ∈ types, t ∈ origins.keys) :
    types.foldl (fun origins t => origins.insertNew t source) origins = origins := by
  induction types with
  | nil => rfl
  | cons t rest ih =>
    rw [List.foldl_cons, Table.insertNew_eq_self source (h t List.mem_cons_self)]
    exact ih fun other ho => h other (List.mem_cons_of_mem _ ho)

theorem settles_want (source : TypeId) (d : Discovery) (wanted : Wanted) (types : List TypeId) :
    Settles (want source d wanted types) := by
  intro run a after h
  rw [run_want] at h
  cases h
  refine ⟨⟨run.session.memory.within_refl, fun t ht => mem_keys_foldl_insertNew.2 (.inl ht)⟩, rfl, fun later hl => ?_⟩
  have hsame : types.foldl (fun origins t => origins.insertNew t source) later.origins = later.origins :=
    foldl_insertNew_eq_self source fun t ht => hl.origins (mem_keys_foldl_insertNew.2 (.inr ht))
  exact ⟨later, by rw [run_want, hsame], later.resembles_refl⟩

theorem settles_wantedTypes (p : Program) (sources known rest : List TypeId) (wanted : Wanted) :
    Settles (wantedTypes p sources known rest wanted) := by
  induction rest generalizing wanted with
  | nil => exact settles_pure wanted
  | cons source rest ih =>
    refine (settles_relatedInBodies p source known (p.bodiesOf source) {}).bind fun d => ?_
    exact (settles_scan (Scan.settles_trace _)).bind fun _ => (settles_want source d wanted _).bind ih

/-! ## Keys and members -/

theorem of_run_addKeys_cons {t : TypeId} {rest : List TypeId} {run after : Run}
    (h : (addKeys (t :: rest)).run.run run = (.ok [], after)) :
    (StubSet.addType t).run.run run.stubs = (.ok false, run.stubs) ∧ (addKeys rest).run.run run = (.ok [], after) := by
  obtain ⟨stubs, ⟨hadd, hrest⟩ | ⟨-, origin, more, -, -, hnew⟩⟩ := exists_of_run_addKeys_cons h
  · obtain rfl := (StubSet.run_addType_eq_false_iff.1 hadd).1
    exact ⟨hadd, hrest⟩
  · cases hnew

theorem addKeys_again {types : List TypeId} {run after : Run} (h : (addKeys types).run.run run = (.ok [], after)) :
    after = run ∧ ∀ later : Run, run.stubs.Within later.stubs → (addKeys types).run.run later = (.ok [], later) := by
  induction types with
  | nil =>
    cases h
    exact ⟨rfl, fun later _ => rfl⟩
  | cons t rest ih =>
    obtain ⟨hadd, hrest⟩ := of_run_addKeys_cons h
    obtain ⟨-, hopen, hsrc, ht⟩ := StubSet.run_addType_eq_false_iff.1 hadd
    obtain ⟨rfl, hagain⟩ := ih hrest
    refine ⟨rfl, fun later hl => ?_⟩
    have hadd' : (StubSet.addType t).run.run later.stubs = (.ok false, later.stubs) := by
      refine StubSet.run_addType_eq_false_iff.2 ⟨rfl, hl.isFrozen.trans hopen, ?_, hl.keys ht⟩
      rw [hl.sources]
      exact hsrc
    rw [run_addKeys_cons, run_stub, hadd']
    exact hagain later hl

theorem settles_contentsFrom (p : Program) (stub : TypeId) (scanned : List TypeId) (content : MemberSet) :
    Scan.Settles (contentsFrom p stub scanned content) := by
  induction scanned generalizing content with
  | nil => exact Scan.settles_pure content
  | cons t rest ih => exact (Reference.settles_into p stub t).bind fun found => ih _

theorem settles_stubContents (p : Program) (stub : TypeId) (sources : List TypeId) :
    Scan.Settles (stubContents p stub sources) :=
  settles_contentsFrom p stub (scannedTypes p sources) {}

theorem settles_foldSeeds (p : Program) (members : List Member) : Scan.Settles (foldSeeds p members) := by
  induction members with
  | nil => exact Scan.settles_pure []
  | cons m rest ih =>
    exact (Reference.settles_normalize p m none).bind fun folded => ih.bind fun others => Scan.settles_pure _

theorem of_run_stub {α : Type} {work : Stubbing α} {run after : Run} {a : α}
    (h : (stub work).run.run run = (.ok a, after)) :
    ∃ stubs, work.run.run run.stubs = (.ok a, stubs) ∧ after = { run with stubs } := by
  rw [run_stub] at h
  rcases hw : work.run.run run.stubs with ⟨e | b, stubs⟩
  · rw [hw] at h
    cases h
  · rw [hw] at h
    cases h
    exact ⟨stubs, rfl, rfl⟩

theorem fill_again {wanted : Wanted} {types : List TypeId} {run after : Run} {added : Nat}
    (h : (fill p sources wanted types).run.run run = (.ok added, after)) :
    run.Within after ∧ run.stubs.Within after.stubs ∧ after.stubs.entries.keys = run.stubs.entries.keys ∧
      ∀ later : Run, after.Within later → after.stubs.Within later.stubs →
        ∃ last, (fill p sources wanted types).run.run later = (.ok 0, last) ∧ later.Resembles last := by
  induction types generalizing run added with
  | nil =>
    cases h
    exact ⟨after.within_refl, after.stubs.within_refl, rfl, fun later _ _ => ⟨later, rfl, later.resembles_refl⟩⟩
  | cons t rest ih =>
    unfold fill at h
    obtain ⟨content, mid, hcontent, h⟩ := Step.exists_of_run_bind h
    obtain ⟨seeds, mid', hseeds, h⟩ := Step.exists_of_run_bind h
    obtain ⟨count, mid'', hadd, h⟩ := Step.exists_of_run_bind h
    obtain ⟨more, last, hrest, h⟩ := Step.exists_of_run_bind h
    cases h
    obtain ⟨hgrow, hstubs, hagain⟩ := settles_scan (settles_stubContents p t sources) run content mid hcontent
    obtain ⟨hgrow', hstubs', hagain'⟩ := settles_scan (settles_foldSeeds p _) mid seeds mid' hseeds
    obtain ⟨stubs, hmembers, rfl⟩ := of_run_stub hadd
    obtain ⟨hwithin, hkeys, hadded⟩ := StubSet.addMembers_again hmembers
    obtain ⟨hgrow'', hwithin', hkeys', hfilled⟩ := ih hrest
    rw [hstubs', hstubs] at hwithin hkeys
    have hmid : mid'.Within after := ⟨hgrow''.memory, hgrow''.origins⟩
    refine ⟨(hgrow.trans hgrow').trans hmid, hwithin.trans hwithin', hkeys'.trans hkeys, fun later hl hs => ?_⟩
    -- each of the steps is done again in turn
    obtain ⟨later₁, h₁, hr₁⟩ := hagain later ((hgrow'.trans hmid).trans hl)
    obtain ⟨later₂, h₂, hr₂⟩ := hagain' later₁ ((hmid.trans hl).trans hr₁.within)
    have hr := hr₁.trans hr₂
    have h₃ := run_stub_of_ok (hadded later₂.stubs (by rw [hr.stubs]; exact hwithin'.trans hs))
    obtain ⟨last, h₄, hr₄⟩ := hfilled later₂ (hl.trans hr.within) (by rw [hr.stubs]; exact hs)
    refine ⟨last, ?_, hr.trans hr₄⟩
    unfold fill
    rw [Step.run_bind_of_ok h₁, Step.run_bind_of_ok h₂,
      Step.run_bind_of_ok h₃, Step.run_bind_of_ok h₄]
    rfl

/-- **A pass made again.** If a pass has added no key, another one right after it adds nothing and changes no more than the log. -/
theorem runPass_again {index : Nat} {run after : Run} {summary : PassSummary}
    (h : (runPass p sources index).run.run run = (.ok summary, after)) (hnew : summary.newTypes = []) (next : Nat)
    {later : Run} (hl : after.Resembles later) :
    ∃ last, (runPass p sources next).run.run later =
        (.ok { index := next, newTypes := [], newMembers := 0, snapshot := after.stubs.entries }, last) ∧
      after.Resembles last := by
  obtain ⟨wanted, mid, mid', hwanted, hadd, hfill, -⟩ := of_run_runPass h
  rw [hnew] at hadd
  obtain ⟨hgrow, hstubs, hagain⟩ := settles_wantedTypes p sources _ sources {} run wanted mid hwanted
  obtain ⟨rfl, hadded⟩ := addKeys_again hadd
  obtain ⟨hgrow', hwithin, hkeys, hfilled⟩ := fill_again hfill
  rw [hstubs] at hwithin hkeys
  have hknown : later.stubs.keys = run.stubs.keys := by
    rw [hl.stubs, StubSet.keys, hkeys]
    rfl
  have hlater : mid'.Within later := hgrow'.trans hl.within
  obtain ⟨later₁, h₁, hr₁⟩ := hagain later hlater
  have hr := hl.trans hr₁
  have h₂ := hadded later₁ (by rw [hr.stubs, hstubs]; exact hwithin)
  obtain ⟨later₂, h₃, hr₃⟩ := hfilled later₁ hr.within (by rw [hr.stubs]; exact after.stubs.within_refl)
  have hr' := hr.trans hr₃
  refine ⟨later₂, ?_, hr'⟩
  unfold runPass
  rw [Step.run_get_bind, hknown, Step.run_bind_of_ok h₁]
  dsimp only
  rw [← Wanted.types, Step.run_bind_of_ok h₂, Step.run_bind_of_ok h₃, ← hr'.stubs]
  rfl

end Closure

end StubClosure
