import StubClosure.Proofs.Closure.Foreign

/-!
# Which bodies a run depends on

A run has two uses for bodies. Those of the source types themselves show which calls leak, and with that decide on keys, origins and passes; those of the types nested in them are read only for the members that stubs declare. So foreign bodies have no effect at all, and bodies of nested types that are not themselves source types have none on anything but members (`run_foreign`). For the second part two runs are followed side by side. They share neither members nor what is remembered, but each memory is faithful to its own program, so what one run asks a body for the other is answered alike (`Agree`).
-/

namespace StubClosure

/-- A reference with no more in it than a mention tells. -/
def Mention.reference (o : Mention) : Reference where
  category := o.category
  target := o.declared
  declared := o.declared
  index := o.index

/-! ## Work that finds the same -/

namespace Closing

variable {p q : Program} {α β : Type}

/-- Whatever each of the two pieces of work finds on a memory faithful to its program, it is the same outcome. -/
def Agree (p q : Program) (work work' : Closing α) : Prop :=
  ∃ outcome, Finds p work (· = outcome) ∧ Finds q work' (· = outcome)

theorem agree_pure (a : α) : Agree p q (pure a) (pure a) := ⟨.ok a, finds_pure rfl, finds_pure rfl⟩

theorem Agree.bind {work work' : Closing α} {next next' : α → Closing β} (hw : Agree p q work work')
    (hn : ∀ a, Agree p q (next a) (next' a)) : Agree p q (work >>= next) (work' >>= next') := by
  obtain ⟨outcome, hleft, hright⟩ := hw
  cases outcome with
  | error e =>
    refine ⟨.error e, hleft.bind ?_ ?_, hright.bind ?_ ?_⟩
    · rintro _ ⟨⟩; rfl
    · rintro _ ⟨⟩
    · rintro _ ⟨⟩; rfl
    · rintro _ ⟨⟩
  | ok a =>
    obtain ⟨outcome, hleft', hright'⟩ := hn a
    refine ⟨outcome, hleft.bind ?_ ?_, hright.bind ?_ ?_⟩
    · rintro _ ⟨⟩
    · rintro _ ⟨⟩; exact hleft'
    · rintro _ ⟨⟩
    · rintro _ ⟨⟩; exact hright'

theorem finds_resolveHere {b : Body} (hb : p.Has b) (index : Int) :
    Finds p (receiver (Receiver.resolve p b index))
      (· = ((Receiver.resolveHere p b index).map Prod.fst).mapError .receiver) := by
  intro run hf
  unfold Step.Ends
  rw [run_receiver, Receiver.run_resolve]
  cases hk : run.session.memory.refined.find? (b.method.toSignature, index) with
  | some known =>
    obtain ⟨reports, hr⟩ := hf.refined b index known hb hk
    rw [hr]
    exact ⟨rfl, hf, rfl, rfl⟩
  | none =>
    cases hr : Receiver.resolveHere p b index with
    | error e => exact ⟨rfl, hf, rfl, rfl⟩
    | ok found =>
      refine ⟨rfl, ⟨hf.folded, hf.scanned, ?_⟩, rfl, rfl⟩
      intro other place known ho h
      simp only [Table.find?_insert] at h
      split at h
      next he =>
        obtain ⟨hs, rfl⟩ := Prod.mk.inj he
        obtain rfl := Option.some.inj h
        rw [ho.eq hb hs]
        exact ⟨found.2, hr⟩
      · exact hf.refined other place known ho h

theorem agree_resolve (h : p.SameTypes q) {b : Body} (hb : p.Has b) (hb' : q.Has b) (index : Int) :
    Agree p q (receiver (Receiver.resolve p b index)) (receiver (Receiver.resolve q b index)) := by
  refine ⟨_, finds_resolveHere hb index, ?_⟩
  rw [← Receiver.resolveHere_congr h]
  exact finds_resolveHere hb' index

end Closing

namespace Closure

open Closing

variable {p q : Program} {sources : List TypeId}

/-! ## Discoveries -/

theorem relatedIn_eq (source : TypeId) (known : List TypeId) (b : Body) (refs : List Reference) (d : Discovery) :
    relatedIn p source known b refs d =
      relatedIn p source known b ((refs.map Reference.mention).map Mention.reference) d := by
  unfold relatedIn
  rw [List.map_map, List.filter_map, List.foldlM_map]
  rfl

theorem agree_discover (h : p.SameTypes q) {b : Body} (hb : p.Has b) (hb' : q.Has b) (r : Reference)
    (d : Discovery) : Agree p q (discover p b r d) (discover q b r d) := by
  rw [discover_eq, discover_eq]
  refine Agree.bind ?_ fun refinement => agree_pure _
  split
  · exact agree_resolve h hb hb' r.index
  · exact agree_pure none

theorem agree_relatedIn (h : p.SameTypes q) {b : Body} (hb : p.Has b) (hb' : q.Has b) (source : TypeId)
    (known : List TypeId) (refs : List Reference) (d : Discovery) :
    Agree p q (relatedIn p source known b refs d) (relatedIn q source known b refs d) := by
  unfold relatedIn
  rw [isRelated_congr h]
  induction refs.filter (isRelated p source known) generalizing d with
  | nil => exact agree_pure d
  | cons r rest ih =>
    rw [List.foldlM_cons, List.foldlM_cons]
    exact (agree_discover h hb hb' r d).bind ih

theorem agree_relatedInBodies (hp : p.Coherent) (hq : q.Coherent) (h : p.SameTypes q) {bodies : List Body}
    (hb : ∀ b ∈ bodies, p.Has b ∧ q.Has b) (source : TypeId) (known : List TypeId) (d : Discovery) :
    Agree p q (relatedInBodies p source known bodies d) (relatedInBodies q source known bodies d) := by
  induction bodies generalizing d with
  | nil => exact agree_pure d
  | cons b rest ih =>
    obtain ⟨hhas, hhas'⟩ := hb b List.mem_cons_self
    have hsame : Mention.ofBody q b = Mention.ofBody p b := Mention.ofBody_congr h b
    obtain ⟨outcome, hleft, hright⟩ :=
      (agree_relatedIn h hhas hhas' source known ((Mention.ofBody p b).map Mention.reference) d).bind
        fun d' => ih (fun other ho => hb other (List.mem_cons_of_mem _ ho)) d'
    refine ⟨outcome, ?_, ?_⟩
    · refine Finds.scan_bind (Reference.finds_ofBody hp hhas) fun refs hrefs => ?_
      rw [relatedIn_eq, hrefs]
      exact hleft
    · refine Finds.scan_bind (Reference.finds_ofBody hq hhas') fun refs hrefs => ?_
      rw [relatedIn_eq, hrefs, hsame]
      exact hright

/-- Two programs with the same bodies in a source type make the same discovery of it. -/
theorem agree_relatedCalls (hp : p.Coherent) (hq : q.Coherent) (h : p.SameTypes q) {source : TypeId}
    (hb : q.bodiesOf source = p.bodiesOf source) (known : List TypeId) :
    Agree p q (relatedCalls p source known) (relatedCalls q source known) := by
  unfold relatedCalls
  rw [hb]
  refine agree_relatedInBodies hp hq h (fun b hmem => ⟨hp.has_of_mem_bodiesOf hmem, ?_⟩) source known {}
  rw [← hb] at hmem
  exact hq.has_of_mem_bodiesOf hmem

/-! ## Two runs side by side -/

/-- Two runs, each sound for its program, that have the same keys with the same origins. -/
structure Alike (p q : Program) (sources : List TypeId) (run run' : Run) : Prop where
  sound : Sound p sources run
  sound' : Sound q sources run'
  keys : run'.stubs.entries.keys = run.stubs.entries.keys
  origins : run'.origins = run.origins

theorem Alike.missing_eq {run run' : Run} (h : Alike p q sources run run') (types : List TypeId) :
    missing run' types = missing run types := by
  unfold missing
  rw [h.keys]

/-- The run after one discovery has been written to the log, and origins were given to what it asks for. -/
def taken (source : TypeId) (d : Discovery) (types : List TypeId) (run : Run) : Run where
  session := { run.session with
    sink := run.session.sink.debugAll (d.methods.sorted.map fun m => s!"STUB {m.text}, called from {source.name}") }
  stubs := run.stubs
  origins := types.foldl (fun origins t => origins.insertNew t source) run.origins

theorem run_wantedTypes_cons {source : TypeId} {known : List TypeId} {run after : Run} {d : Discovery}
    (h : (relatedCalls p source known).run.run run = (.ok d, after)) (rest : List TypeId) (wanted : Wanted) :
    let types := (sortOn TypeId.fullName d.wanted).filter (stubbable p sources)
    (wantedTypes p sources known (source :: rest) wanted).run.run run =
      (wantedTypes p sources known rest (types.foldl (Wanted.take d) wanted)).run.run (taken source d types after) := by
  rw [wantedTypes, Step.run_bind_of_ok h]
  rfl

theorem Alike.wantedTypes (hp : p.Coherent) (hq : q.Coherent) (ht : p.SameTypes q) {rest : List TypeId}
    (hb : ∀ source ∈ rest, q.bodiesOf source = p.bodiesOf source) {run run' : Run} (h : Alike p q sources run run')
    (known : List TypeId) (wanted : Wanted) : ∃ outcome after after',
      (wantedTypes p sources known rest wanted).run.run run = (outcome, after) ∧
      (wantedTypes q sources known rest wanted).run.run run' = (outcome, after') ∧ after'.origins = after.origins := by
  induction rest generalizing run run' wanted with
  | nil => exact ⟨.ok wanted, run, run', rfl, rfl, h.origins⟩
  | cons source rest ih =>
    obtain ⟨outcome, hleft, hright⟩ := agree_relatedCalls hp hq ht (hb source List.mem_cons_self) known
    have hleft := hleft run h.sound.faithful
    have hright := hright run' h.sound'.faithful
    unfold Step.Ends at hleft hright
    rcases hrun : (relatedCalls p source known).run.run run with ⟨found, after⟩
    rcases hrun' : (relatedCalls q source known).run.run run' with ⟨found', after'⟩
    rw [hrun] at hleft
    rw [hrun'] at hright
    obtain ⟨rfl, hm, hs, ho⟩ := hleft
    obtain ⟨rfl, hm', hs', ho'⟩ := hright
    cases found' with
    | error e =>
      refine ⟨.error e, after, after', Step.run_bind_of_error hrun, Step.run_bind_of_error hrun', ?_⟩
      exact ho'.trans (h.origins.trans ho.symm)
    | ok d =>
      rw [run_wantedTypes_cons hrun, run_wantedTypes_cons hrun', stubbable_congr ht]
      refine ih (fun other hother => hb other (List.mem_cons_of_mem _ hother)) ⟨?_, ?_, ?_, ?_⟩ _
      · exact h.sound.of_stubs hs hm
      · exact h.sound'.of_stubs hs' hm'
      · exact (congrArg (·.entries.keys) hs').trans (h.keys.trans (congrArg (·.entries.keys) hs).symm)
      · exact congrArg (List.foldl _ · _) (ho'.trans (h.origins.trans ho.symm))

/-- A pass over both runs leaves them alike, and finds the same new types. -/
theorem Alike.passed (hp : p.Coherent) (hq : q.Coherent) (ht : p.SameTypes q)
    (hb : ∀ source ∈ sources, q.bodiesOf source = p.bodiesOf source) {run run' after : Run}
    (h : Alike p q sources run run') {index : Nat} {summary : PassSummary}
    (hrun : (runPass p sources index).run.run run = (.ok summary, after)) : ∃ summary' after',
      (runPass q sources index).run.run run' = (.ok summary', after') ∧ summary'.newTypes = summary.newTypes ∧
        Alike p q sources after after' := by
  have hpassed := h.sound.passed hp hrun
  obtain ⟨wanted, mid, hwanted, hnew, horigins⟩ := hpassed.settled
  obtain ⟨outcome, last, last', hlast, hlast', ho⟩ := h.wantedTypes hp hq ht hb run.stubs.keys {}
  obtain ⟨rfl, rfl⟩ := Prod.mk.inj (hwanted.symm.trans hlast)
  have hknown : run'.stubs.keys = run.stubs.keys := congrArg (sortOn TypeId.fullName) h.keys
  rw [← hknown] at hlast'
  rcases hrun' : (runPass q sources index).run.run run' with ⟨e | summary', after'⟩
  · cases (h.sound'.failed_asking hq hrun').symm.trans hlast'
  · have hpassed' := h.sound'.passed hq hrun'
    obtain ⟨wanted', mid', hwanted', hnew', horigins'⟩ := hpassed'.settled
    obtain ⟨hsame, rfl⟩ := Prod.mk.inj (hwanted'.symm.trans hlast')
    obtain rfl := Except.ok.inj hsame
    have htypes : summary'.newTypes = summary.newTypes := by rw [hnew', hnew, h.missing_eq]
    refine ⟨summary', after', rfl, htypes, hpassed.sound, hpassed'.sound, ?_, ?_⟩
    · rw [hpassed'.keys, hpassed.keys, h.keys, htypes]
    · rw [horigins', horigins, ho]

theorem Alike.failed (hp : p.Coherent) (hq : q.Coherent) (ht : p.SameTypes q)
    (hb : ∀ source ∈ sources, q.bodiesOf source = p.bodiesOf source) {run run' after : Run}
    (h : Alike p q sources run run') {index : Nat} {e : ClosureError}
    (hrun : (runPass p sources index).run.run run = (.error e, after)) :
    ∃ after', (runPass q sources index).run.run run' = (.error e, after') := by
  obtain ⟨outcome, last, last', hlast, hlast', -⟩ := h.wantedTypes hp hq ht hb run.stubs.keys {}
  obtain ⟨rfl, -⟩ := Prod.mk.inj ((h.sound.failed_asking hp hrun).symm.trans hlast)
  have hknown : run'.stubs.keys = run.stubs.keys := congrArg (sortOn TypeId.fullName) h.keys
  rw [← hknown] at hlast'
  refine ⟨last', ?_⟩
  unfold runPass
  rw [Step.run_get_bind]
  exact Step.run_bind_of_error hlast'

theorem Alike.noted {run run' : Run} (h : Alike p q sources run run') (summary summary' : PassSummary) :
    Alike p q sources (noted summary run) (noted summary' run') :=
  ⟨h.sound.noted summary, h.sound'.noted summary', h.keys, h.origins⟩

/-- The loop goes side by side as well, as long as new members do not call for passes. -/
theorem Passes.alike (hp : p.Coherent) (hq : q.Coherent) (ht : p.SameTypes q)
    (hb : ∀ source ∈ sources, q.bodiesOf source = p.bodiesOf source) {index : Nat} {run run' after : Run}
    {passes : List PassSummary} {ended : Option ClosureError} (h : Passes p {} sources index run passes ended after)
    (ha : Alike p q sources run run') : ∃ passes' after', Passes q {} sources index run' passes' ended after' ∧
      passes'.map PassSummary.newTypes = passes.map PassSummary.newTypes ∧
        (ended = none → Alike p q sources after after') := by
  have hrepeats : ∀ summary summary' : PassSummary, summary'.newTypes = summary.newTypes →
      (Repeats {} summary' ↔ Repeats {} summary) := by
    intro summary summary' hs
    simp [Repeats, hs]
  induction h generalizing run' with
  | fail h =>
    obtain ⟨after', h'⟩ := ha.failed hp hq ht hb h
    exact ⟨[], after', .fail h', rfl, by rintro ⟨⟩⟩
  | last h hr =>
    obtain ⟨summary', after', h', hs, ha'⟩ := ha.passed hp hq ht hb h
    refine ⟨[summary'], after', .last h' (mt (hrepeats _ _ hs).1 hr), ?_, fun _ => ha'⟩
    rw [List.map_singleton, List.map_singleton, hs]
  | more h hr hrest ih =>
    obtain ⟨summary', mid', h', hs, ha'⟩ := ha.passed hp hq ht hb h
    obtain ⟨rest', after', hrest', hnew, hlast⟩ := ih (ha'.noted _ summary')
    refine ⟨summary' :: rest', after', .more h' ((hrepeats _ _ hs).2 hr) hrest', ?_, hlast⟩
    rw [List.map_cons, List.map_cons, hs, hnew]

/-! ## Outcomes -/

/-- The types that are nested in a source type and are no source types themselves. -/
def Inner (p : Program) (names : List String) : Set TypeId :=
  {t | t ∉ namedTypes p names ∧ ∃ source ∈ namedTypes p names, t.isNestedIn source = true}

/-- Results with the same sources, keys, origins and new types of each pass, or the same error. -/
def SameKeys : Except ClosureError ClosureResult → Except ClosureError ClosureResult → Prop
  | .ok r, .ok r' => r'.sources = r.sources ∧ r'.stubs.entries.keys = r.stubs.entries.keys ∧ r'.origins = r.origins ∧
      r'.passes.map PassSummary.newTypes = r.passes.map PassSummary.newTypes ∧ r'.passCount = r.passCount
  | .error e, .error e' => e' = e
  | _, _ => False

theorem sameKeys_run (hp : p.Coherent) (hq : q.Coherent) {names : List String} (h : p.SameBut (Inner p names) q)
    (sink : Sink) : SameKeys (run p names {} { sink }).1 (run q names {} { sink }).1 := by
  have hsources := resolveSources_congr h.findType?_eq
  rcases hs : (resolveSources p names).run.run { session := { sink } } with ⟨e | sources, after⟩
  · have hs' := hs
    rw [← hsources] at hs'
    rw [run_of_unresolved hs, run_of_unresolved hs']
    rfl
  · obtain ⟨rfl, hset⟩ := of_run_resolveSources hs
    have hs' := hs
    rw [← hsources] at hs'
    have hb : ∀ source ∈ sources, q.bodiesOf source = p.bodiesOf source := by
      intro source hsource
      rw [Inner, ← hset] at h
      exact h.bodiesOf_eq hp fun hinner => hinner.1 hsource
    have hstart : Alike p q sources (start sources { sink }) (start sources { sink }) :=
      ⟨sound_start sources _ (Memory.faithful_empty p), sound_start sources _ (Memory.faithful_empty q), rfl, rfl⟩
    obtain ⟨passes, ended, after, hloop, hrun⟩ :=
      exists_passes_of_sources hp {} rfl (Memory.faithful_empty p) hs
    obtain ⟨passes', ended', after', hloop', hrun'⟩ :=
      exists_passes_of_sources hq {} rfl (Memory.faithful_empty q) hs'
    obtain ⟨list, last, hlist, hnew, halike⟩ := hloop.alike hp hq (Program.sameTypes_of_eq h.types) hb hstart
    obtain ⟨rfl, rfl, rfl⟩ := hlist.unique hloop'
    rw [hrun, hrun']
    cases ended with
    | some e => rfl
    | none =>
      obtain ⟨-, -, hkeys, horigins⟩ := halike rfl
      have hcount := congrArg List.length hnew
      rw [List.length_map, List.length_map] at hcount
      exact ⟨rfl, hkeys, horigins, hnew, hcount⟩

/-- **Foreign bodies do not matter.** Two built programs that differ only in bodies of types that are neither source types nor nested in one have the same runs with the same reports, whatever the names and options, and the same manifests. If they differ only in bodies of types nested in a source type that are not source types themselves, then runs with default options fail alike, or have the same stub types with the same origins, found in the same passes. -/
theorem run_foreign {p q : Program} (hp : p.Built) (hq : q.Built) (names : List String) (sink : Sink) :
    (p.SameBut (Foreign p names) q → ∀ options, run q names options { sink } = run p names options { sink } ∧
      ∀ r name, Manifest.build r q name = Manifest.build r p name) ∧
    (p.SameBut (Inner p names) q → SameKeys (run p names {} { sink }).1 (run q names {} { sink }).1) := by
  refine ⟨fun h options => ⟨run_congr hp.coherent h options { sink }, build_congr h.types⟩, fun h => ?_⟩
  exact sameKeys_run hp.coherent hq.coherent h sink

/-- In the zoo, whether a `Dog` has a body for `Run` makes no difference; and whether a `Den` has one makes none to the stub types. -/
theorem run_foreign_zoo :
    run (Zoo.withMethod Zoo.dog (some [])) ["Foo"] {} { sink := {} } =
      run (Zoo.withMethod Zoo.dog none) ["Foo"] {} { sink := {} } ∧
    SameKeys (run (Zoo.withMethod Zoo.den none) ["Foo"] {} { sink := {} }).1
      (run (Zoo.withMethod Zoo.den (some [])) ["Foo"] {} { sink := {} }).1 := by
  have hdog : (Zoo.withMethod Zoo.dog none).SameBut (Foreign (Zoo.withMethod Zoo.dog none) ["Foo"])
      (Zoo.withMethod Zoo.dog (some [])) := by
    rw [Zoo.withMethod_some (.inl rfl)]
    refine Program.sameBut_setBody ?_
    rw [Foreign, Zoo.namedTypes_withMethod (.inl rfl)]
    rintro source rfl
    exact ⟨by decide, by decide⟩
  have hden : (Zoo.withMethod Zoo.den none).SameBut (Inner (Zoo.withMethod Zoo.den none) ["Foo"])
      (Zoo.withMethod Zoo.den (some [])) := by
    rw [Zoo.withMethod_some (.inr rfl)]
    refine Program.sameBut_setBody ?_
    rw [Inner, Zoo.namedTypes_withMethod (.inr rfl)]
    exact ⟨by decide, Zoo.foo, rfl, by decide⟩
  have hbuilt := Zoo.built_withMethod
  exact ⟨((run_foreign (hbuilt _ _) (hbuilt _ _) ["Foo"] {}).1 hdog {}).1,
    (run_foreign (hbuilt _ _) (hbuilt _ _) ["Foo"] {}).2 hden⟩

end Closure

end StubClosure
