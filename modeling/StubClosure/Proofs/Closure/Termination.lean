import Mathlib.Data.Set.Card
import StubClosure.Proofs.Program.Change
import StubClosure.Proofs.Program.Nesting
import StubClosure.Proofs.Closure.Loop

/-!
# Runs end

Two things in a run have no bound of their own: the descent into nested types, which ends because each step passes a defined type, and the loop of passes. With default options every pass but the last adds a key, so there is at most one pass more than there are keys in the end, and those are types that the program defines and that are not compiled from source.
-/

namespace StubClosure.Closure

open Closing

variable {p : Program} {options : ClosureOptions} {sources : List TypeId}

/-- The number of passes that are begun: a pass that fails is not among those made. -/
def begun (passes : List PassSummary) (ended : Option ClosureError) : Nat :=
  passes.length + if ended.isSome then 1 else 0

/-- Without passes for new members, each pass but the last adds a key. -/
theorem Passes.begun_le (hp : p.Coherent) (ho : options.repassOnNewMembers = false) {index : Nat} {run after : Run}
    {passes : List PassSummary} {ended : Option ClosureError}
    (h : Passes p options sources index run passes ended after) (hr : Sound p sources run) :
    begun passes ended + run.stubs.entries.keys.length ≤ 1 + after.stubs.entries.keys.length := by
  induction h with
  | @fail index run after e h =>
    obtain ⟨-, hs⟩ := hr.failed hp h
    rw [hs]
    rfl
  | @last index run after summary h hrep =>
    have hpassed := hr.passed hp h
    have hkeys := congrArg List.length hpassed.keys
    rw [List.length_append] at hkeys
    show 1 + _ ≤ _
    omega
  | @more index run mid after summary rest ended h hrep hrest ih =>
    have hpassed := hr.passed hp h
    have hkeys := congrArg List.length hpassed.keys
    rw [List.length_append] at hkeys
    have hnew : summary.newTypes ≠ [] := hrep.resolve_right fun h => by simp [ho] at h
    have hpos := List.length_pos_iff.2 hnew
    have hle : begun rest ended + mid.stubs.entries.keys.length ≤ _ := ih (hpassed.sound.noted summary)
    have hbegun : begun (summary :: rest) ended = begun rest ended + 1 := by
      unfold begun
      rw [List.length_cons]
      omega
    omega

theorem Passes.newTypes_ne_nil (ho : options.repassOnNewMembers = false) {index : Nat} {run after : Run}
    {passes : List PassSummary} {ended : Option ClosureError}
    (h : Passes p options sources index run passes ended after) {i : Nat} {summary : PassSummary}
    (hi : passes[i]? = some summary) (hlast : i + 1 < begun passes ended) : summary.newTypes ≠ [] := by
  induction h generalizing i with
  | fail => cases hi
  | last => exact absurd hlast (by simp [begun])
  | @more index run mid after first rest ended h hrep hrest ih =>
    cases i with
    | zero =>
      obtain rfl := Option.some.inj hi
      exact hrep.resolve_right fun h => by simp [ho] at h
    | succ i =>
      refine ih hi ?_
      unfold begun at hlast ⊢
      rw [List.length_cons] at hlast
      omega

theorem Sound.size_le {run : Run} (h : Sound p sources run) :
    run.stubs.size ≤ {t | Stubbable p {t | t ∈ sources} t}.ncard := by
  have hfinite : {t | Stubbable p {t | t ∈ sources} t}.Finite :=
    (stubbables p sources).finite_toSet.subset fun t ht => mem_stubbables.2 ht
  have hsubset : (run.stubs.entries.keys.toFinset : Set TypeId) ⊆ {t | Stubbable p {t | t ∈ sources} t} := by
    intro t ht
    exact h.stubbable t (List.mem_toFinset.1 (Finset.mem_coe.1 ht))
  have hle := Set.ncard_le_ncard hsubset hfinite
  rwa [Set.ncard_coe_finset, List.toFinset_card_of_nodup h.nodup, Table.length_keys] at hle

theorem Passes.size_le (hp : p.Coherent) {index : Nat} {run after : Run} {passes : List PassSummary}
    {ended : Option ClosureError} (h : Passes p options sources index run passes ended after)
    (hr : Sound p sources run) : after.stubs.size ≤ {t | Stubbable p {t | t ∈ sources} t}.ncard := by
  induction h with
  | @fail index run after e h =>
    obtain ⟨-, hs⟩ := hr.failed hp h
    rw [hs]
    exact hr.size_le
  | @last index run after summary h =>
    have hpassed := hr.passed hp h
    exact hpassed.sound.size_le
  | @more index run mid after summary rest ended h hrep hrest ih =>
    have hpassed := hr.passed hp h
    exact ih (hpassed.sound.noted summary)

/-! ## Stubbing everything -/

theorem run_stub_addType {t : TypeId} {run : Run} (hopen : run.stubs.isFrozen = false) (ht : t ∉ run.stubs.sources) :
    ∃ isNew after new, (stub (StubSet.addType t)).run.run run = (.ok isNew, after) ∧ KeysAdded run new after ∧
      new.Nodup ∧ ∀ other, other ∈ new ↔ other = t ∧ other ∉ keySet run := by
  have hadd := StubSet.run_addType_of_open hopen ht
  by_cases hk : t ∈ run.stubs.entries.keys
  · rw [if_pos (Table.contains_iff.2 hk)] at hadd
    refine ⟨false, run, [], run_stub_of_ok hadd, .refl run, List.nodup_nil, fun other => ?_⟩
    have hin : t ∈ keySet run := hk
    simp only [List.not_mem_nil, false_iff, not_and, not_not]
    rintro rfl
    exact hin
  · rw [if_neg fun h => hk (Table.contains_iff.1 h)] at hadd
    refine ⟨true, _, [t], run_stub_of_ok hadd, ?_, List.nodup_singleton t, fun other => ?_⟩
    · have h := keysAdded_withKey t hk
      exact ⟨h.keys, h.members, rfl, rfl, rfl, rfl⟩
    · have hnot : t ∉ keySet run := hk
      simp only [List.mem_singleton]
      exact ⟨fun h => ⟨h, h ▸ hnot⟩, fun h => h.1⟩

theorem ends_stubAll (hp : p.Coherent) {types : List TypeId} {run : Run} (hr : Sound p sources run)
    (ht : ∀ t ∈ types, Stubbable p {t | t ∈ sources} t) :
    Step.Ends (stubAll p sources types) run fun outcome after => (∃ found, outcome = .ok found) ∧
      Sound p sources after ∧ after.origins = run.origins ∧ (∀ t, t ∈ keySet after ↔ t ∈ keySet run ∨ t ∈ types) ∧
        ∀ t s, s ∈ (membersAt after.stubs.entries t).keys ↔ s ∈ (membersAt run.stubs.entries t).keys ∨
          t ∈ types ∧ s.owner = t ∧ Mentioned p {t | t ∈ sources} s := by
  induction types generalizing run with
  | nil =>
    refine ⟨⟨([], 0), rfl⟩, hr, rfl, fun t => ⟨.inl, fun h => h.resolve_right List.not_mem_nil⟩, fun t s => ⟨.inl, ?_⟩⟩
    exact fun h => h.resolve_right fun h => List.not_mem_nil h.1
  | cons t rest ih =>
    have hstubbable := ht t List.mem_cons_self
    obtain ⟨isNew, keyed, new, hadd, hadded, hnodup, hnew⟩ :=
      run_stub_addType (t := t) hr.isFrozen (by rw [hr.sources_eq]; exact hstubbable.2.1)
    have hkeyed : Sound p sources keyed := hr.keysAdded hadded hnodup fun other ho => by
      obtain ⟨rfl, hk⟩ := (hnew other).1 ho
      exact ⟨hstubbable, hk⟩
    have hin : t ∈ keyed.stubs.entries.keys := by
      have := (hadded.mem_keySet t).2
      by_cases hk : t ∈ keySet run
      · exact this (.inl hk)
      · exact this (.inr ((hnew t).2 ⟨rfl, hk⟩))
    unfold stubAll
    refine Step.Ends.bind_of_run hadd ?_
    refine ends_scan_bind_of_finds (finds_stubContents hp t) hkeyed.faithful ?_
    rintro content session ⟨hck, hcontent⟩ hf
    have howner : ∀ m ∈ content.values, m.owner = t := fun m hm => ((hcontent _).1 (hck.mem_keys hm)).1
    have hfilled : Filled p (fun t => {s | s.owner = t ∧ Mentioned p {t | t ∈ sources} s}) [t] keyed
        (withMembers t content session keyed) := filled_withMembers hin hkeyed.keyed hck hcontent hf
    have hmembers := StubSet.run_addMembers_of_open hkeyed.isFrozen hin howner
    refine Step.Ends.bind_of_run (run_stub_of_ok hmembers) ?_
    refine (ih (hkeyed.filled hfilled fun _ _ s hs => .inl hs) fun other ho => ht other (List.mem_cons_of_mem _ ho)).bind
      ?_ ?_
    · rintro e after ⟨⟨found, hfound⟩, -⟩
      cases hfound
    · rintro found after ⟨-, hsound, horigins, hkeys, hall⟩
      refine ⟨⟨_, rfl⟩, hsound, horigins.trans (hfilled.origins.trans hadded.origins), fun other => ?_, fun other s => ?_⟩
      · have hmid : other ∈ keySet (withMembers t content session keyed) ↔ other ∈ keySet keyed := by
          show other ∈ (withMembers t content session keyed).stubs.entries.keys ↔ _
          rw [hfilled.keys]
          rfl
        refine (hkeys other).trans ?_
        rw [hmid, hadded.mem_keySet, hnew, List.mem_cons]
        tauto
      · refine (hall other s).trans ?_
        rw [hfilled.members, hadded.members, List.mem_singleton, List.mem_cons, or_assoc, or_and_right]
        exact Iff.rfl

/-- On demand there is a single pass, which never fails; it makes every type a key that can have a stub, without an origin, and gives it the members that are mentioned. -/
theorem exists_passes_of_generateAll (hp : p.Coherent) (hi : p.Indexed) (sources : List TypeId)
    (hg : options.generateAll = true) (session : Session) (hf : session.memory.Faithful p) :
    ∃ summary after, (passes p options sources).run.run (start sources session) = (.ok [summary], after) ∧
      Sound p sources after ∧ after.origins = {} ∧ keySet after = {t | Stubbable p {t | t ∈ sources} t} ∧
        ∀ t s, s ∈ (membersAt after.stubs.entries t).keys ↔
          t ∈ keySet after ∧ s.owner = t ∧ Mentioned p {t | t ∈ sources} s := by
  have hstubbable : ∀ t, t ∈ (sortOn TypeId.fullName (p.types.values.map (·.id))).filter (fun t => !isSourced sources t) ↔
      Stubbable p {t | t ∈ sources} t := by
    intro t
    rw [← stubbable_iff, List.mem_filter, mem_sortOn, hi.map_id_values hp, stubbable, Bool.and_eq_true]
    exact and_comm.trans (and_congr_right' Table.contains_iff.symm)
  have hpass : Step.Ends (stubEverything p sources) (start sources session) fun outcome after =>
      (∃ summary, outcome = .ok summary) ∧ Sound p sources after ∧ after.origins = {} ∧
        keySet after = {t | Stubbable p {t | t ∈ sources} t} ∧
        ∀ t s, s ∈ (membersAt after.stubs.entries t).keys ↔
          t ∈ keySet after ∧ s.owner = t ∧ Mentioned p {t | t ∈ sources} s := by
    unfold stubEverything
    refine (ends_stubAll hp (sound_start sources session hf) fun t ht => (hstubbable t).1 ht).bind ?_ ?_
    · rintro e after ⟨⟨found, hfound⟩, -⟩
      cases hfound
    · rintro found after ⟨-, hsound, horigins, hkeys, hmembers⟩
      simp only [keySet_start, Set.notMem_empty, false_or] at hkeys
      refine ⟨⟨_, rfl⟩, hsound, horigins, ?_, fun t s => ?_⟩
      · ext t
        exact (hkeys t).trans (hstubbable t)
      · refine (hmembers t s).trans ?_
        rw [← hkeys]
        exact or_iff_right List.not_mem_nil
  rcases hone : (stubEverything p sources).run.run (start sources session) with ⟨outcome, after⟩
  obtain ⟨⟨summary, rfl⟩, hsound, horigins, hkeys, hmembers⟩ := hpass.of_run hone
  refine ⟨summary, after, ?_, hsound, horigins, hkeys, hmembers⟩
  unfold passes
  rw [if_pos hg, Step.run_bind_of_ok hone]
  rfl

theorem exists_run_of_generateAll (hp : p.Coherent) (hi : p.Indexed) {names : List String}
    (hn : ∀ name ∈ names, p.findType? name ≠ none) (hg : options.generateAll = true) (session : Session) (hf : session.memory.Faithful p) :
    ∃ sources summary after, {t | t ∈ sources} = namedTypes p names ∧
      run p names options session = (.ok (result sources [summary] after), after.session) ∧ Sound p sources after ∧
        keySet after = {t | Stubbable p (namedTypes p names) t} ∧
        ∀ t s, s ∈ (membersAt after.stubs.entries t).keys ↔
          t ∈ keySet after ∧ s.owner = t ∧ Mentioned p (namedTypes p names) s := by
  obtain ⟨sources, hsources, hset⟩ := run_resolveSources hn { session }
  obtain ⟨summary, after, hpasses, hsound, -, hkeys, hmembers⟩ :=
    exists_passes_of_generateAll hp hi sources hg session hf
  rw [hset] at hkeys hmembers
  have hended : (passes p options sources).run.run (start sources session) = (ending none [summary], after) := hpasses
  exact ⟨sources, summary, after, hset, run_eq hsources hended, hsound, hkeys, hmembers⟩

/-- **Runs end.** The descent into nested types is well-founded, and is what `withNested` computes. If everything is to be stubbed there is one pass. Otherwise a run is its loop of passes, which comes to an end; and without passes for new members no more passes are begun than one more than there are keys in the end, or types that can have a stub, and each but the last adds a key. -/
theorem run_ends {p : Program} (hp : p.Built) {names : List String} (hn : ∀ name ∈ names, p.findType? name ≠ none)
    (options : ClosureOptions) (sink : Sink) :
    (WellFounded fun inner t => inner ∈ p.nestedOf t) ∧
    (∀ t, p.withNested t = t :: (p.nestedOf t).flatMap p.withNested) ∧
    (options.generateAll = true → ∃ r, (run p names options { sink }).1 = .ok r ∧ r.passes.length = 1) ∧
    (options.generateAll = false → ∃ sources passes ended after, {t | t ∈ sources} = namedTypes p names ∧
      Passes p options sources 1 (start sources { sink }) passes ended after ∧
      run p names options { sink } = (ending ended (result sources passes after), after.session) ∧
      (options.repassOnNewMembers = false →
        begun passes ended ≤ 1 + after.stubs.size ∧
        after.stubs.size ≤ {t | Stubbable p (namedTypes p names) t}.ncard ∧
        ∀ i summary, passes[i]? = some summary → i + 1 < begun passes ended → summary.newTypes ≠ [])) := by
  refine ⟨hp.coherent.wellFounded_nested, hp.coherent.withNested_eq, fun hg => ?_, fun hg => ?_⟩
  · obtain ⟨sources, summary, after, -, hrun, -⟩ :=
      exists_run_of_generateAll hp.coherent hp.indexed hn hg { sink } (Memory.faithful_empty p)
    exact ⟨_, congrArg Prod.fst hrun, rfl⟩
  · have hsound := fun sources => sound_start sources { sink } (Memory.faithful_empty p)
    obtain ⟨sources, passes, ended, after, hset, hloop, hrun⟩ :=
      exists_passes_of_run hp.coherent hn options hg { sink } (Memory.faithful_empty p)
    refine ⟨sources, passes, ended, after, hset, hloop, hrun, fun ho => ⟨?_, ?_, ?_⟩⟩
    · have hle := hloop.begun_le hp.coherent ho (hsound sources)
      rw [Table.length_keys, Table.length_keys] at hle
      exact hle
    · rw [← hset]
      exact hloop.size_le hp.coherent (hsound sources)
    · intro i summary hi hlast
      exact hloop.newTypes_ne_nil ho hi hlast

/-- In the zoo, there are at most two stub types and three passes. -/
theorem run_ends_zoo : (∀ name ∈ ["Foo"], Zoo.program.findType? name ≠ none) ∧
    ∃ sources passes ended after, Passes Zoo.program {} sources 1 (start sources { sink := {} }) passes ended after ∧
      run Zoo.program ["Foo"] {} { sink := {} } = (ending ended (result sources passes after), after.session) ∧
      begun passes ended ≤ 3 ∧ after.stubs.size ≤ 2 := by
  have hn : ∀ name ∈ ["Foo"], Zoo.program.findType? name ≠ none := by decide
  obtain ⟨-, -, -, hloop⟩ := run_ends Zoo.built hn {} {}
  obtain ⟨sources, passes, ended, after, -, hpasses, hrun, hbound⟩ := hloop rfl
  obtain ⟨hbegun, hsize, -⟩ := hbound rfl
  have htypes : {t | Stubbable Zoo.program (namedTypes Zoo.program ["Foo"]) t} ⊆ {Zoo.animal, Zoo.dog} := by
    rintro t ⟨hdefined, hsource, -⟩
    have hkeys : Zoo.program.types.keys = [Zoo.foo, Zoo.animal, Zoo.dog] := by decide
    have hmem := Table.contains_iff.1 hdefined
    rw [hkeys, List.mem_cons, List.mem_pair] at hmem
    rw [namedTypes_zoo] at hsource
    exact hmem.resolve_left hsource
  have hcard := Set.ncard_le_ncard htypes (Set.toFinite _)
  rw [Set.ncard_pair (by decide)] at hcard
  exact ⟨hn, sources, passes, ended, after, hpasses, hrun, by omega, by omega⟩

end StubClosure.Closure
