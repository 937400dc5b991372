import StubClosure.Proofs.Closure.Accounting
import StubClosure.Proofs.Closure.Occasion

/-!
# Origins

Several source types may ask for one type, in one pass and again in later ones. The origin of a key is the first of them by full name, in the pass in which the type became a key; no source type asked for it before. That holds because an origin, once given, is kept (`origins_wantedTypes`), and because whatever is asked for and can be a key is one from the same pass on (`Passes.attributed`). So the reports on new keys, which read the origins, name for each key the source type that was its cause.
-/

namespace StubClosure.Closure

open Closing

variable {p : Program} {options : ClosureOptions} {sources : List TypeId}

/-- The bodies of the source type ask for the type when some types are known: a call that leaks names it, or is refined to it. -/
def Asks (p : Program) (known : Set TypeId) (source t : TypeId) : Prop :=
  ∃ c : CallSite, c.Leaks p source known ∧ c.AsksFor t

theorem mem_wanting_iff {sources known : Set TypeId} {t : TypeId} :
    t ∈ wanting p sources known ↔ Stubbable p sources t ∧ ∃ source ∈ sources, Asks p known source t := by
  constructor
  · rintro ⟨ht, c, ⟨source, hs, hc⟩, ha⟩
    exact ⟨ht, source, hs, c, hc, ha⟩
  · rintro ⟨ht, source, hs, c, hc, ha⟩
    exact ⟨ht, c, ⟨source, hs, hc⟩, ha⟩

/-- Of the source types whose bodies ask for the type, the first by full name. -/
structure FirstToAsk (p : Program) (sources : List TypeId) (known : Set TypeId) (source t : TypeId) : Prop where
  mem : source ∈ sources
  asks : Asks p known source t
  first : ∀ other ∈ sources, Asks p known other t → other = source ∨ source.fullName < other.fullName

/-! ## Giving origins -/

theorem find?_foldl_insertNew (types : List TypeId) (source : TypeId) (origins : Table TypeId TypeId) (t : TypeId) :
    (types.foldl (fun origins t => origins.insertNew t source) origins).find? t =
      (origins.find? t).or (if t ∈ types then some source else none) := by
  induction types generalizing origins with
  | nil => simp
  | cons first rest ih =>
    rw [List.foldl_cons, ih, Table.find?_insertNew]
    by_cases ht : t = first
    · subst ht
      cases origins.find? t <;> simp
    · simp [ht]

open Classical in
/-- Going over the source types gives an origin to each type that is asked for and has none: the first that asks. -/
theorem origins_wantedTypes (hp : p.Coherent) {rest known : List TypeId} {wanted wanted' : Wanted} {run after : Run}
    (hf : run.session.memory.Faithful p)
    (h : (wantedTypes p sources known rest wanted).run.run run = (.ok wanted', after)) (t : TypeId) :
    after.origins.find? t = (run.origins.find? t).or
      (rest.find? fun source => Stubbable p {s | s ∈ sources} t ∧ Asks p {t | t ∈ known} source t) := by
  induction rest generalizing run wanted with
  | nil =>
    cases h
    simp
  | cons source rest ih =>
    obtain ⟨d, between, hd, -⟩ := Step.exists_of_run_bind h
    obtain ⟨⟨hgathers, -⟩, hm, -, horigins⟩ := (finds_relatedCalls hp source known run hf).of_run hd
    rw [run_wantedTypes_cons hd] at h
    have htaken := ih (show (taken source d _ between).session.memory.Faithful p from hm) h
    have hmem : t ∈ (sortOn TypeId.fullName d.wanted).filter (stubbable p sources) ↔
        Stubbable p {s | s ∈ sources} t ∧ Asks p {t | t ∈ known} source t := by
      rw [List.mem_filter, mem_sortOn, stubbable_iff, hgathers.wanted, and_comm]
      rfl
    rw [taken, find?_foldl_insertNew, horigins, Option.or_assoc] at htaken
    rw [htaken, List.find?_cons]
    by_cases hask : Stubbable p {s | s ∈ sources} t ∧ Asks p {t | t ∈ known} source t
    · rw [if_pos (hmem.2 hask)]
      simp [hask]
    · rw [if_neg (mt hmem.1 hask)]
      simp only [hask, decide_false, Option.none_or]

theorem Passed.find?_origins (hp : p.Coherent) {index : Nat} {run after : Run} {summary : PassSummary}
    (hr : Sound p sources run) (h : Passed p sources index run summary after) (t : TypeId) :
    after.origins.find? t = (run.origins.find? t).or
      (open Classical in sources.find? fun source => Stubbable p {s | s ∈ sources} t ∧ Asks p (keySet run) source t) := by
  obtain ⟨wanted, mid, hwanted, -, horigins⟩ := h.settled
  rw [horigins, origins_wantedTypes hp hr.faithful hwanted, setOf_mem_keys]

/-! ## Origins along the passes -/

/-- What holds of origins after passes, if before them exactly the keys had origins. Each new key has the origin that it got in its pass, and nobody asked for it in an earlier one. -/
structure Attributed (p : Program) (sources : List TypeId) (run : Run) (passes : List PassSummary) (after : Run) :
    Prop where
  domain : ∀ t, t ∈ after.origins.keys ↔ t ∈ keySet after
  kept : ∀ t source, run.origins.find? t = some source → after.origins.find? t = some source
  new : ∀ stage ∈ ClosureResult.stagesFrom run.stubs.entries passes, ∀ t ∈ stage.2.newTypes,
    Stubbable p {s | s ∈ sources} t ∧ t ∉ keySet run
  first : ∀ stage ∈ ClosureResult.stagesFrom run.stubs.entries passes, ∀ t ∈ stage.2.newTypes,
    ∃ source, after.origins.find? t = some source ∧ FirstToAsk p sources {k | k ∈ stage.1.keys} source t
  late : (ClosureResult.stagesFrom run.stubs.entries passes).Pairwise fun earlier stage => ∀ t ∈ stage.2.newTypes,
    ∀ source ∈ sources, ¬ Asks p {k | k ∈ earlier.1.keys} source t

theorem firstToAsk_of_find? {known : Set TypeId} {t source : TypeId} {keep : TypeId → Bool}
    (hsorted : sources.Pairwise fun s s' => s.fullName < s'.fullName)
    (hkeep : ∀ s ∈ sources, keep s = true ↔ Asks p known s t) (h : sources.find? keep = some source) :
    FirstToAsk p sources known source t := by
  obtain ⟨hasks, before, after, rfl, hbefore⟩ := List.find?_eq_some_iff_append.1 h
  have hmem : source ∈ before ++ source :: after := by simp
  refine ⟨hmem, (hkeep source hmem).1 hasks, fun other ho hask => ?_⟩
  rcases List.mem_append.1 ho with hin | hin
  · have hnot := hbefore other hin
    rw [(hkeep other ho).2 hask] at hnot
    cases hnot
  · rcases List.mem_cons.1 hin with rfl | hin
    · exact .inl rfl
    · obtain ⟨-, hrest, -⟩ := List.pairwise_append.1 hsorted
      exact .inr ((List.pairwise_cons.1 hrest).1 other hin)

theorem Passed.domain_origins (hp : p.Coherent) {index : Nat} {run after : Run} {summary : PassSummary}
    (hr : Sound p sources run) (h : Passed p sources index run summary after)
    (hd : ∀ t, t ∈ run.origins.keys ↔ t ∈ keySet run) (t : TypeId) : t ∈ after.origins.keys ↔ t ∈ keySet after := by
  classical
  have hkeys : t ∈ keySet after ↔ t ∈ keySet run ∨ t ∈ summary.newTypes := by
    show t ∈ after.stubs.entries.keys ↔ _
    rw [h.keys, List.mem_append]
    rfl
  have horigin : t ∈ after.origins.keys ↔ t ∈ run.origins.keys ∨ t ∈ wanting p {s | s ∈ sources} (keySet run) := by
    rw [Table.mem_keys_iff, h.find?_origins hp hr, Option.isSome_or, Bool.or_eq_true, ← Table.mem_keys_iff,
      List.find?_isSome, mem_wanting_iff]
    simp only [decide_eq_true_eq, Set.mem_ofPred_eq]
    grind
  rw [horigin, hkeys, hd, h.newTypes]
  tauto

theorem Passed.wanting_subset_keySet {index : Nat} {run after : Run} {summary : PassSummary}
    (h : Passed p sources index run summary after) : wanting p {s | s ∈ sources} (keySet run) ⊆ keySet after := by
  intro t ht
  show t ∈ after.stubs.entries.keys
  rw [h.keys, List.mem_append]
  by_cases hk : t ∈ keySet run
  · exact .inl hk
  · exact .inr ((h.newTypes t).2 ⟨ht, hk⟩)

theorem Passed.firstToAsk (hp : p.Coherent) (hsorted : sources.Pairwise fun s s' => s.fullName < s'.fullName)
    {index : Nat} {run after : Run} {summary : PassSummary} (hr : Sound p sources run)
    (h : Passed p sources index run summary after) (hd : ∀ t, t ∈ run.origins.keys ↔ t ∈ keySet run) {t : TypeId}
    (ht : t ∈ summary.newTypes) :
    ∃ source, after.origins.find? t = some source ∧ FirstToAsk p sources (keySet run) source t := by
  classical
  obtain ⟨hwanted, hnew⟩ := (h.newTypes t).1 ht
  obtain ⟨hstubbable, source, hs, hask⟩ := mem_wanting_iff.1 hwanted
  have hnone : run.origins.find? t = none := Table.find?_eq_none_iff.2 (mt (hd t).1 hnew)
  have horigin := h.find?_origins hp hr t
  rw [hnone, Option.none_or] at horigin
  have hkeep : ∀ s ∈ sources, decide (Stubbable p {s | s ∈ sources} t ∧ Asks p (keySet run) s t) = true ↔
      Asks p (keySet run) s t := by
    intro s _
    rw [decide_eq_true_eq, and_iff_right hstubbable]
  cases hfind : sources.find? fun s => decide (Stubbable p {s | s ∈ sources} t ∧ Asks p (keySet run) s t) with
  | none => exact absurd ((hkeep source hs).2 hask) (List.find?_eq_none.1 hfind source hs)
  | some origin =>
    rw [hfind] at horigin
    exact ⟨origin, horigin, firstToAsk_of_find? hsorted hkeep hfind⟩

/-- Nothing is new in the last pass, so it leaves the origins of its keys as they are. -/
theorem Passed.attributed_last (hp : p.Coherent) {index : Nat} {run after : Run} {summary : PassSummary}
    (hr : Sound p sources run) (h : Passed p sources index run summary after) (hnew : summary.newTypes = [])
    (hd : ∀ t, t ∈ run.origins.keys ↔ t ∈ keySet run) : Attributed p sources run [summary] after where
  domain := h.domain_origins hp hr hd
  kept := by
    intro t source hs
    rw [h.find?_origins hp hr, hs, Option.some_or]
  new := by
    intro stage hstage t ht
    obtain rfl := List.mem_singleton.1 hstage
    rw [hnew] at ht
    cases ht
  first := by
    intro stage hstage t ht
    obtain rfl := List.mem_singleton.1 hstage
    rw [hnew] at ht
    cases ht
  late := List.pairwise_singleton _ _

theorem Attributed.cons (hp : p.Coherent) (hsorted : sources.Pairwise fun s s' => s.fullName < s'.fullName)
    {index : Nat} {run mid after : Run} {summary : PassSummary} {rest : List PassSummary} (hr : Sound p sources run)
    (h : Passed p sources index run summary mid) (hd : ∀ t, t ∈ run.origins.keys ↔ t ∈ keySet run)
    (hrest : Attributed p sources mid rest after) : Attributed p sources run (summary :: rest) after := by
  have hstages : ClosureResult.stagesFrom run.stubs.entries (summary :: rest) =
      (run.stubs.entries, summary) :: ClosureResult.stagesFrom mid.stubs.entries rest := by
    rw [ClosureResult.stagesFrom, h.snapshot]
  have hgrow : keySet run ⊆ keySet mid := by
    intro t ht
    show t ∈ mid.stubs.entries.keys
    rw [h.keys]
    exact List.mem_append_left _ ht
  refine ⟨hrest.domain, ?_, ?_, ?_, ?_⟩
  · intro t source hs
    refine hrest.kept t source ?_
    rw [h.find?_origins hp hr, hs, Option.some_or]
  · intro stage hstage t ht
    rw [hstages] at hstage
    rcases List.mem_cons.1 hstage with rfl | hstage
    · obtain ⟨hwanted, hnew⟩ := (h.newTypes t).1 ht
      exact ⟨hwanted.1, hnew⟩
    · obtain ⟨hstubbable, hnew⟩ := hrest.new stage hstage t ht
      exact ⟨hstubbable, fun hk => hnew (hgrow hk)⟩
  · intro stage hstage t ht
    rw [hstages] at hstage
    rcases List.mem_cons.1 hstage with rfl | hstage
    · obtain ⟨source, hs, hfirst⟩ := h.firstToAsk hp hsorted hr hd ht
      exact ⟨source, hrest.kept t source hs, hfirst⟩
    · exact hrest.first stage hstage t ht
  · rw [hstages, List.pairwise_cons]
    refine ⟨fun stage hstage t ht source hs hask => ?_, hrest.late⟩
    -- what was asked for then would be a key by now
    obtain ⟨hstubbable, hnew⟩ := hrest.new stage hstage t ht
    exact hnew (h.wanting_subset_keySet (mem_wanting_iff.2 ⟨hstubbable, source, hs, hask⟩))

theorem Passes.attributed (hp : p.Coherent) (hsorted : sources.Pairwise fun s s' => s.fullName < s'.fullName)
    {index : Nat} {run after : Run} {passes : List PassSummary} {ended : Option ClosureError}
    (h : Passes p options sources index run passes ended after) (hended : ended = none) (hr : Sound p sources run)
    (hd : ∀ t, t ∈ run.origins.keys ↔ t ∈ keySet run) : Attributed p sources run passes after := by
  induction h with
  | fail => cases hended
  | @last index run after summary h hrep =>
    have hpassed := hr.passed hp h
    exact hpassed.attributed_last hp hr (not_not.1 (not_or.1 hrep).1) hd
  | @more index run mid after summary rest ended h hrep hrest ih =>
    have hpassed := hr.passed hp h
    have hmid := hpassed.domain_origins hp hr hd
    have htail := ih hended (hpassed.sound.noted summary) hmid
    exact Attributed.cons hp hsorted hr hpassed hd ⟨htail.domain, htail.kept, htail.new, htail.first, htail.late⟩

theorem Attributed.keySet_subset {run after : Run} {passes : List PassSummary}
    (h : Attributed p sources run passes after) (hd : ∀ t, t ∈ run.origins.keys ↔ t ∈ keySet run) :
    keySet run ⊆ keySet after := by
  intro t ht
  obtain ⟨source, hs⟩ := Table.exists_find?_of_mem ((hd t).2 ht)
  have hafter := h.kept t source hs
  exact (h.domain t).1 (Table.mem_keys_of_find? hafter)

/-! ## Reports along the passes -/

theorem announcements_congr {origins later : Table TypeId TypeId} {types : List TypeId}
    (h : ∀ t ∈ types, ∃ source, origins.find? t = some source ∧ later.find? t = some source) :
    announcements origins types = announcements later types := by
  refine List.map_congr_left fun t ht => ?_
  obtain ⟨source, hs, hs'⟩ := h t ht
  rw [hs, hs']

/-- **What passes report on.** -/
theorem Passes.logged (hp : p.Coherent) (hsorted : sources.Pairwise fun s s' => s.fullName < s'.fullName)
    {index : Nat} {run after : Run} {passes : List PassSummary} {ended : Option ClosureError}
    (h : Passes p options sources index run passes ended after) (hended : ended = none) (hr : Sound p sources run)
    (hd : ∀ t, t ∈ run.origins.keys ↔ t ∈ keySet run) :
    ∃ occasions, Logged p {t | t ∈ sources} (keySet after) run.session
      (passes.flatMap fun pass => announcements after.origins pass.newTypes) occasions after.session := by
  induction h with
  | fail => cases hended
  | @last index run after summary h hrep =>
    have hpassed := hr.passed hp h
    obtain ⟨hkeys, -⟩ := hpassed.wanting_subset (not_not.1 (not_or.1 hrep).1)
    obtain ⟨occasions, hlogged⟩ := logged_runPass hp hr h
    rw [hkeys, List.flatMap_singleton]
    exact ⟨occasions, hlogged⟩
  | @more index run mid after summary rest ended h hrep hrest ih =>
    have hpassed := hr.passed hp h
    have hmid := hpassed.domain_origins hp hr hd
    have hsound := hpassed.sound.noted summary
    have hattributed := hrest.attributed hp hsorted hended hsound hmid
    obtain ⟨first, hfirst⟩ := logged_runPass hp hr h
    obtain ⟨others, hothers⟩ := ih hended hsound hmid
    have hsame : announcements mid.origins summary.newTypes = announcements after.origins summary.newTypes := by
      refine announcements_congr fun t ht => ?_
      obtain ⟨source, hs, -⟩ := hpassed.firstToAsk hp hsorted hr hd ht
      exact ⟨source, hs, hattributed.kept t source hs⟩
    have hnoted := hfirst.noted (Session.logs_of_resembles (resembles_noted summary mid).session)
    rw [List.flatMap_cons, ← hsame]
    refine ⟨first ++ others, hnoted.trans hothers fun t ht => hattributed.keySet_subset hmid ?_⟩
    show t ∈ mid.stubs.entries.keys
    rw [hpassed.keys]
    exact List.mem_append_left _ ht

/-! ## Runs -/

theorem find?_names_of_mem_namedTypes (hp : p.Built) {names : List String} {t : TypeId} (h : t ∈ namedTypes p names) :
    p.names.find? t.fullName = some t := by
  obtain ⟨name, -, d, hd, rfl⟩ := h
  obtain ⟨t, ht, hd⟩ := Option.bind_eq_some_iff.1 hd
  rw [(hp.coherent.type t d hd).id_eq, (hp.indexed.sound name t ht).2]
  exact ht

theorem sorted_sources (hp : p.Built) {names : List String} {run after : Run}
    (h : (resolveSources p names).run.run run = (.ok sources, after)) :
    sources.Pairwise fun s s' => s.fullName < s'.fullName := by
  obtain ⟨-, hset⟩ := of_run_resolveSources h
  obtain ⟨types, between, -, hpure⟩ := Step.exists_of_run_bind h
  have hsources : sortOn TypeId.fullName (Table.firstBy id types).keys = sources :=
    Except.ok.inj (congrArg Prod.fst (show ((.ok _, between) : Except ClosureError _ × Run) = (.ok sources, after) from hpure))
  have hnamed : ∀ t ∈ (Table.firstBy id types).keys, t ∈ namedTypes p names := by
    intro t ht
    rw [← hset, ← hsources]
    exact mem_sortOn.2 ht
  rw [← hsources]
  refine pairwise_lt_sortOn (Table.nodup_keys_firstBy id types) fun s hs s' hs' heq => ?_
  have hfind := find?_names_of_mem_namedTypes hp (hnamed s hs)
  rw [heq, find?_names_of_mem_namedTypes hp (hnamed s' hs')] at hfind
  exact (Option.some.inj hfind).symm

theorem Logged.stubDiscovered {sources known : Set TypeId} {before after : Session}
    {announced : List (TypeId × TypeId)} {occasions : List Occasion}
    (h : Logged p sources known before announced occasions after) :
    (occasions.flatMap (Occasion.reports p)).filter (fun d => d.code = some DiagnosticCode.stubDiscovered.name) =
      announced.map fun key => stubbed key.1 key.2 := by
  rw [filter_flatMap_reports fun o ho => (filter_reports fun hkey => h.arises o ho hkey).1, h.keys]
  exact List.map_eq_flatMap.symm

/-- A run on a fresh session fails on a mute call that leaks with respect to the least fixed point. Else it has a result, whose origins come from its passes, and whose diagnostics are the reports on what its passes came upon. -/
theorem run_logged_cases {p : Program} (hp : p.Built) {names : List String}
    (hn : ∀ name ∈ names, p.findType? name ≠ none) (options : ClosureOptions) (hg : options.generateAll = false) :
    (∃ e, Muted p (namedTypes p names) (wanting p (namedTypes p names)).lfp e ∧
      (run p names options {}).1 = .error e) ∨
    (Reportable p (namedTypes p names) (wanting p (namedTypes p names)).lfp ∧ ∃ sources passes after occasions,
      {t | t ∈ sources} = namedTypes p names ∧ (run p names options {}).1 = .ok (result sources passes after) ∧
        keySet after = (wanting p (namedTypes p names)).lfp ∧
        Attributed p sources (start sources {}) passes after ∧
        Logged p {t | t ∈ sources} (keySet after) {}
          (passes.flatMap fun pass => announcements after.origins pass.newTypes) occasions after.session ∧
        (result sources passes after).diagnostics = occasions.flatMap (Occasion.reports p)) := by
  obtain ⟨sources, passes, ended, after, hset, hsources, hloop, hrun, hcases⟩ := run_passes_cases hp hn options hg {}
  rcases hcases with ⟨e, hmuted, rfl⟩ | ⟨hreport, hended, -, -, hkeys⟩
  · exact .inl ⟨e, hmuted, hrun⟩
  · have hsorted := sorted_sources hp hsources
    have hsound := sound_start sources {} (Memory.faithful_empty p)
    have hnone : ∀ t, t ∈ (start sources {}).origins.keys ↔ t ∈ keySet (start sources {}) := by
      intro t
      rw [keySet_start]
      simp [start]
    obtain ⟨occasions, hlogged⟩ := hloop.logged hp.coherent hsorted hended hsound hnone
    have hattributed := hloop.attributed hp.coherent hsorted hended hsound hnone
    have hdiagnostics : after.session.sink.diagnostics = [] ++ occasions.flatMap (Occasion.reports p) :=
      hlogged.logs.diagnostics
    rw [hended] at hrun
    exact .inr ⟨hreport, sources, passes, after, occasions, hset, hrun, hkeys, hattributed, hlogged, hdiagnostics⟩

end StubClosure.Closure

namespace StubClosure

/-- The source type that a result names as the origin of a key. -/
def ClosureResult.originOf (r : ClosureResult) (t : TypeId) : TypeId := (r.origins.find? t).getD t

namespace Closure

/-- **Origins are first causes.** A run of a built program from known names that is not to stub everything fails if some call is mute that leaks with respect to the least fixed point of what is wanted. Else it has a result, in which exactly the keys have origins. The types that are new in a pass stand there by full name, and the origin of each is the first source type by full name whose bodies ask for it in view of the keys at the start of that pass; no source type asked for it in an earlier pass. Every key is new in one pass, and the reports on stub types discovered are one for each, in that order, naming the key and its origin. -/
theorem run_origins {p : Program} (hp : p.Built) {names : List String} (hn : ∀ name ∈ names, p.findType? name ≠ none)
    (options : ClosureOptions) (hg : options.generateAll = false) :
    let named := namedTypes p names
    let outcome := (run p names options {}).1
    (¬ Reportable p named (wanting p named).lfp → ∃ e, Muted p named (wanting p named).lfp e ∧ outcome = .error e) ∧
    (Reportable p named (wanting p named).lfp → ∃ r, outcome = .ok r ∧ {t | t ∈ r.sources} = named ∧
      (∀ t, t ∈ r.origins.keys ↔ t ∈ r.stubs.entries.keys) ∧
      (∀ stage ∈ r.stages, stage.2.newTypes.Pairwise (fun t t' => t.fullName ≤ t'.fullName) ∧
        ∀ t ∈ stage.2.newTypes, r.origins.find? t = some (r.originOf t) ∧
          FirstToAsk p r.sources {k | k ∈ stage.1.keys} (r.originOf t) t) ∧
      (r.stages.Pairwise fun earlier stage => ∀ t ∈ stage.2.newTypes, ∀ source ∈ r.sources,
        ¬ Asks p {k | k ∈ earlier.1.keys} source t) ∧
      r.stubs.entries.keys.Nodup ∧ r.passes.flatMap PassSummary.newTypes = r.stubs.entries.keys ∧
      r.diagnostics.filter (fun d => d.code = some DiagnosticCode.stubDiscovered.name) =
        r.passes.flatMap fun pass => pass.newTypes.map fun t => stubbed t (r.originOf t)) := by
  intro named outcome
  rcases run_logged_cases hp hn options hg with
    ⟨e, hmuted, hfail⟩ | ⟨hreport, sources, passes, after, occasions, hset, hrun, -, hattributed, hlogged, hdiagnostics⟩
  · exact ⟨fun _ => ⟨e, hmuted, hfail⟩, fun h => absurd h hmuted.not_reportable⟩
  · refine ⟨fun h => absurd hreport h, fun _ => ⟨result sources passes after, hrun, hset, ?_⟩⟩
    obtain ⟨haccounted, -, hdistinct⟩ := accounted_run hrun
    refine ⟨hattributed.domain, fun stage hstage => ⟨?_, fun t ht => ?_⟩, hattributed.late, hdistinct.keys,
      haccounted.grown.keys.symm, ?_⟩
    · rw [(haccounted.stages stage hstage).newTypes]
      exact pairwise_sortOn _ _
    · obtain ⟨source, hs, hfirst⟩ := hattributed.first stage hstage t ht
      have horigin : (result sources passes after).originOf t = source := by
        show (after.origins.find? t).getD t = source
        rw [hs]
        rfl
      rw [horigin]
      exact ⟨hs, hfirst⟩
    · rw [hdiagnostics, hlogged.stubDiscovered, List.map_flatMap]
      simp only [announcements, List.map_map]
      rfl

/-- In the zoo, `Foo` is the origin of an animal and of a dog. -/
theorem run_origins_zoo : (∀ name ∈ ["Foo"], Zoo.program.findType? name ≠ none) ∧
    ({} : ClosureOptions).generateAll = false ∧ ∃ r, (run Zoo.program ["Foo"] {} {}).1 = .ok r ∧
      (∀ t, t ∈ r.origins.keys ↔ t ∈ r.stubs.entries.keys) ∧
      r.diagnostics.filter (fun d => d.code = some DiagnosticCode.stubDiscovered.name) =
        r.passes.flatMap fun pass => pass.newTypes.map fun t => stubbed t (r.originOf t) := by
  have hn : ∀ name ∈ ["Foo"], Zoo.program.findType? name ≠ none := by decide
  obtain ⟨-, horigins⟩ := run_origins Zoo.built hn {} rfl
  obtain ⟨r, hr, -, hdomain, -, -, -, -, hreports⟩ := horigins (by rw [namedTypes_zoo]; exact reportable_zoo _)
  exact ⟨hn, rfl, r, hr, hdomain, hreports⟩

end Closure

end StubClosure
