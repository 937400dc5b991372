import StubClosure.Closure.Run
import StubClosure.Proofs.Closure.Again

/-!
# The loop of passes

A run makes passes until one calls for no other; nothing in that bounds their number. `Passes` is this loop, without a bound. The passes of the model stop at a given number of them, and `exists_passes` shows that the number is never reached: every pass but the last two adds a key, and only types that the program defines become keys. So what holds along the loop holds of a run (`exists_passes_of_run`).
-/

namespace StubClosure.Closure

open Closing

variable {p : Program} {options : ClosureOptions} {sources : List TypeId}

/-- The pass calls for another one. -/
def Repeats (options : ClosureOptions) (summary : PassSummary) : Prop :=
  summary.newTypes ≠ [] ∨ options.repassOnNewMembers = true ∧ summary.newMembers ≠ 0

/-- The note in the log that another pass is made. -/
def repeatNote (summary : PassSummary) : String :=
  if summary.newTypes.length > 0 then s!"discovered {summary.newTypes.length} new stub type(s), repeating scan"
  else s!"discovered {summary.newMembers} new stub member(s), repeating scan"

/-- The run with that note made. -/
def noted (summary : PassSummary) (run : Run) : Run :=
  { run with session := { run.session with sink := run.session.sink.debugAll [repeatNote summary] } }

/-- The loop from an index on: the passes that are made, the error that ends them if there is one, and the run after them. -/
inductive Passes (p : Program) (options : ClosureOptions) (sources : List TypeId) :
    Nat → Run → List PassSummary → Option ClosureError → Run → Prop where
  | fail {index : Nat} {run after : Run} {e : ClosureError}
      (h : (runPass p sources index).run.run run = (.error e, after)) :
      Passes p options sources index run [] (some e) after
  | last {index : Nat} {run after : Run} {summary : PassSummary}
      (h : (runPass p sources index).run.run run = (.ok summary, after)) (hr : ¬ Repeats options summary) :
      Passes p options sources index run [summary] none after
  | more {index : Nat} {run mid after : Run} {summary : PassSummary} {rest : List PassSummary}
      {ended : Option ClosureError}
      (h : (runPass p sources index).run.run run = (.ok summary, mid)) (hr : Repeats options summary)
      (hrest : Passes p options sources (index + 1) (noted summary mid) rest ended after) :
      Passes p options sources index run (summary :: rest) ended after

theorem Passes.unique {index : Nat} {run after after' : Run} {passes passes' : List PassSummary}
    {ended ended' : Option ClosureError} (h : Passes p options sources index run passes ended after)
    (h' : Passes p options sources index run passes' ended' after') :
    passes = passes' ∧ ended = ended' ∧ after = after' := by
  induction h generalizing passes' with
  | fail h =>
    cases h' with
    | fail h' =>
      cases h.symm.trans h'
      exact ⟨rfl, rfl, rfl⟩
    | last h' => cases h.symm.trans h'
    | more h' => cases h.symm.trans h'
  | last h hr =>
    cases h' with
    | fail h' => cases h.symm.trans h'
    | last h' =>
      cases h.symm.trans h'
      exact ⟨rfl, rfl, rfl⟩
    | more h' hr' =>
      cases h.symm.trans h'
      exact absurd hr' hr
  | more h hr hrest ih =>
    cases h' with
    | fail h' => cases h.symm.trans h'
    | last h' hr' =>
      cases h.symm.trans h'
      exact absurd hr hr'
    | more h' hr' hrest' =>
      cases h.symm.trans h'
      obtain ⟨rfl, rfl, rfl⟩ := ih hrest'
      exact ⟨rfl, rfl, rfl⟩

/-! ## The passes of the model -/

/-- What passes come to: they themselves, or the error that ended them. -/
def ending {α : Type} (ended : Option ClosureError) (value : α) : Except ClosureError α :=
  match ended with
  | none => .ok value
  | some e => .error e

section
variable {more index : Nat} {run after : Run} {summary : PassSummary}

theorem run_passesFrom_of_error {e : ClosureError} (h : (runPass p sources index).run.run run = (.error e, after)) :
    (passesFrom p options sources (more + 1) index).run.run run = (.error e, after) := by
  rw [passesFrom, Step.run_bind_of_error h]

theorem run_passesFrom_of_not_repeats (h : (runPass p sources index).run.run run = (.ok summary, after))
    (hr : ¬ Repeats options summary) :
    (passesFrom p options sources (more + 1) index).run.run run = (.ok [summary], after) := by
  rw [passesFrom, Step.run_bind_of_ok h]
  obtain ⟨hnew, hmembers⟩ := not_or.1 hr
  have hlength : ¬ summary.newTypes.length > 0 := by simpa using hnew
  have hrepass : ¬ (options.repassOnNewMembers && decide (summary.newMembers > 0)) = true := by
    rw [Bool.and_eq_true, decide_eq_true_eq]
    exact fun h => hmembers ⟨h.1, by omega⟩
  rw [if_neg hlength, if_neg hrepass]
  rfl

theorem run_passesFrom_of_repeats (h : (runPass p sources index).run.run run = (.ok summary, after))
    (hr : Repeats options summary) :
    (passesFrom p options sources (more + 1) index).run.run run =
      (passesFrom p options sources more (index + 1) >>= fun rest => pure (summary :: rest)).run.run
        (noted summary after) := by
  rw [passesFrom, Step.run_bind_of_ok h]
  by_cases hlength : summary.newTypes.length > 0
  · have hnote : repeatNote summary =
        s!"discovered {summary.newTypes.length} new stub type(s), repeating scan" := if_pos hlength
    rw [if_pos hlength, noted, hnote]
    rfl
  · have hnote : repeatNote summary =
        s!"discovered {summary.newMembers} new stub member(s), repeating scan" := if_neg hlength
    have hrepass : (options.repassOnNewMembers && decide (summary.newMembers > 0)) = true := by
      rcases hr with hr | ⟨ho, hm⟩
      · exact absurd (List.length_pos_iff.2 hr) hlength
      · rw [Bool.and_eq_true, decide_eq_true_eq]
        exact ⟨ho, by omega⟩
    rw [if_neg hlength, if_pos hrepass, noted, hnote]
    rfl

end

/-! ## The loop ends -/

theorem resembles_noted (summary : PassSummary) (run : Run) : run.Resembles (noted summary run) :=
  ⟨⟨rfl, Sink.diagnostics_debugAll run.session.sink _⟩, rfl, rfl⟩

theorem Sound.noted {run : Run} (h : Sound p sources run) (summary : PassSummary) : Sound p sources (noted summary run) :=
  ⟨h.faithful, h.sources_eq, h.isFrozen, h.nodup, h.stubbable, h.keyed, h.exposed⟩

/-- The types of the program that can have a stub. -/
def stubbables (p : Program) (sources : List TypeId) : List TypeId := p.types.keys.filter (stubbable p sources)

theorem mem_stubbables {t : TypeId} : t ∈ stubbables p sources ↔ Stubbable p {t | t ∈ sources} t := by
  unfold stubbables
  rw [List.mem_filter, stubbable_iff]
  exact ⟨fun h => h.2, fun h => ⟨Table.contains_iff.1 h.1, h⟩⟩

theorem length_stubbables_le (p : Program) (sources : List TypeId) : (stubbables p sources).length ≤ p.types.size := by
  unfold stubbables
  rw [← Table.length_keys]
  exact List.length_filter_le _ _

theorem Sound.length_keys_le {run : Run} (h : Sound p sources run) :
    run.stubs.entries.keys.length ≤ (stubbables p sources).length :=
  List.Nodup.length_le_of_subset h.nodup fun t ht => mem_stubbables.2 (h.stubbable t ht)

/-- **The loop ends**, and the passes of the model are those of the loop as long as there may be two more of them than there are types left to be keys. -/
theorem exists_passes (hp : p.Coherent) {fuel index : Nat} {run : Run} (hr : Sound p sources run)
    (hfuel : (stubbables p sources).length + 2 ≤ fuel + run.stubs.entries.keys.length) :
    ∃ passes ended after, Passes p options sources index run passes ended after ∧
      (passesFrom p options sources fuel index).run.run run = (ending ended passes, after) := by
  induction fuel generalizing index run with
  | zero =>
    have := hr.length_keys_le
    omega
  | succ fuel ih =>
    rcases hrun : (runPass p sources index).run.run run with ⟨e | summary, after⟩
    · exact ⟨[], some e, after, .fail hrun, run_passesFrom_of_error hrun⟩
    · have hpassed := hr.passed hp hrun
      by_cases hrep : Repeats options summary
      · by_cases hnew : summary.newTypes = []
        · -- nothing but members was added, so the next pass is the last
          obtain ⟨last, hlast, -⟩ := runPass_again hrun hnew (index + 1) (resembles_noted summary after)
          have hstop : ¬ Repeats options
              { index := index + 1, newTypes := [], newMembers := 0, snapshot := after.stubs.entries } := by
            simp [Repeats]
          obtain ⟨fuel, rfl⟩ : ∃ k, fuel = k + 1 := ⟨fuel - 1, by have := hr.length_keys_le; omega⟩
          refine ⟨_, none, last, .more hrun hrep (.last hlast hstop), ?_⟩
          rw [run_passesFrom_of_repeats hrun hrep, Step.run_bind_of_ok (run_passesFrom_of_not_repeats hlast hstop)]
          rfl
        · have hgrown : (noted summary after).stubs.entries.keys.length =
              run.stubs.entries.keys.length + summary.newTypes.length := by
            rw [show (noted summary after).stubs = after.stubs from rfl, hpassed.keys, List.length_append]
          have hpos := List.length_pos_iff.2 hnew
          obtain ⟨rest, ended, last, hrest, hfrom⟩ := @ih (index + 1) _ (hpassed.sound.noted summary) (by omega)
          refine ⟨summary :: rest, ended, last, .more hrun hrep hrest, ?_⟩
          rw [run_passesFrom_of_repeats hrun hrep, Step.run_bind, hfrom]
          cases ended <;> rfl
      · exact ⟨[summary], none, after, .last hrun hrep, run_passesFrom_of_not_repeats hrun hrep⟩

/-! ## Runs -/

theorem run_resolveNames {names : List String} (hn : ∀ name ∈ names, p.findType? name ≠ none) (run : Run) :
    ∃ types, (resolveNames p names).run.run run = (.ok types, run) ∧ {t | t ∈ types} = namedTypes p names := by
  induction names with
  | nil => exact ⟨[], rfl, by simp [namedTypes]⟩
  | cons name rest ih =>
    obtain ⟨types, htypes, hset⟩ := ih fun other ho => hn other (List.mem_cons_of_mem _ ho)
    obtain ⟨d, hd⟩ := Option.ne_none_iff_exists'.1 (hn name List.mem_cons_self)
    refine ⟨d.id :: types, ?_, ?_⟩
    · unfold resolveNames
      rw [hd]
      dsimp only
      rw [Step.run_bind_of_ok htypes]
      rfl
    · ext t
      have := congrArg (t ∈ ·) hset
      simp only [namedTypes, Set.mem_ofPred_eq, eq_iff_iff] at this
      simp only [namedTypes, Set.mem_ofPred_eq, List.mem_cons, exists_eq_or_imp, this, hd, Option.some.injEq,
        exists_eq_left']
      exact or_congr_left eq_comm

theorem run_resolveSources {names : List String} (hn : ∀ name ∈ names, p.findType? name ≠ none) (run : Run) :
    ∃ sources, (resolveSources p names).run.run run = (.ok sources, run) ∧ {t | t ∈ sources} = namedTypes p names := by
  obtain ⟨types, htypes, hset⟩ := run_resolveNames hn run
  refine ⟨sortOn TypeId.fullName (Table.firstBy id types).keys, ?_, ?_⟩
  · unfold resolveSources
    rw [Step.run_bind_of_ok htypes]
    rfl
  · rw [← hset]
    ext t
    simp only [Set.mem_ofPred_eq, mem_sortOn, Table.mem_keys_firstBy, id_eq, exists_eq_right]

/-- The run in which the passes begin. -/
def start (sources : List TypeId) (session : Session) : Run := { session, stubs := { sources } }

theorem keySet_start (sources : List TypeId) (session : Session) : keySet (start sources session) = ∅ := by
  ext t
  simp [keySet, start]

theorem sound_start (sources : List TypeId) (session : Session) (hf : session.memory.Faithful p) :
    Sound p sources (start sources session) where
  faithful := hf
  sources_eq := rfl
  isFrozen := rfl
  nodup := List.nodup_nil
  stubbable := by rintro t ⟨⟩
  keyed := fun _ => MemberSet.isKeyed_empty
  exposed := by rintro t s ⟨⟩

/-- What a run comes to after its passes. -/
def result (sources : List TypeId) (passes : List PassSummary) (after : Run) : ClosureResult where
  sources := sources
  stubs := after.stubs.freeze
  passes := passes
  origins := after.origins
  diagnostics := after.session.sink.diagnostics

theorem run_eq {names : List String} {session : Session} {ended : Option ClosureError} {list : List PassSummary}
    {after : Run} (hs : (resolveSources p names).run.run { session } = (.ok sources, { session }))
    (hp : (passes p options sources).run.run (start sources session) = (ending ended list, after)) :
    run p names options session = (ending ended (result sources list after), after.session) := by
  unfold run closing
  rw [Step.run_bind_of_ok hs, Step.run_modify_bind,
    show ({ ({ session } : Run) with stubs := { sources }, origins := {} } : Run) = start sources session from rfl]
  cases ended with
  | none =>
    rw [Step.run_bind_of_ok hp]
    rfl
  | some e =>
    rw [Step.run_bind_of_error hp]
    rfl

/-- **A run is the loop**, once its sources are resolved, from a memory that is empty or faithful. -/
theorem exists_passes_of_sources (hp : p.Coherent) {names : List String} (options : ClosureOptions)
    (hg : options.generateAll = false) {session : Session} (hf : session.memory.Faithful p)
    (hs : (resolveSources p names).run.run { session } = (.ok sources, { session })) :
    ∃ list ended after, Passes p options sources 1 (start sources session) list ended after ∧
      run p names options session = (ending ended (result sources list after), after.session) := by
  have hbound := length_stubbables_le p sources
  obtain ⟨list, ended, after, hloop, hrun⟩ := @exists_passes p options sources hp (p.types.size + 2) 1 _
    (sound_start sources session hf) (by omega)
  refine ⟨list, ended, after, hloop, run_eq hs ?_⟩
  unfold passes
  rw [hg]
  exact hrun

theorem exists_passes_of_run (hp : p.Coherent) {names : List String} (hn : ∀ name ∈ names, p.findType? name ≠ none)
    (options : ClosureOptions) (hg : options.generateAll = false) (session : Session) (hf : session.memory.Faithful p) :
    ∃ sources list ended after, {t | t ∈ sources} = namedTypes p names ∧
      Passes p options sources 1 (start sources session) list ended after ∧
      run p names options session = (ending ended (result sources list after), after.session) := by
  obtain ⟨sources, hsources, hset⟩ := run_resolveSources hn { session }
  obtain ⟨list, ended, after, hloop, hrun⟩ := exists_passes_of_sources hp options hg hf hsources
  exact ⟨sources, list, ended, after, hset, hloop, hrun⟩

end StubClosure.Closure
