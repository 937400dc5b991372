import StubClosure.Proofs.Plain
import StubClosure.Proofs.Closure.Foreign

/-!
# Runs alongside each other

A run reads bodies in its session, asks there what virtual calls come to and what overrides stand for, and writes to its log. Everything else in it is a matter of types, of identities of members and of the stubs so far. So take two programs with the same types, and a relation between sessions that all this work keeps and in view of which it finds the same, as far as identities go (`Alongside`). Then whole runs find the same and keep the relation, pass by pass and whatever the options (`alongside_run`).

The rules follow the text of a run: `Scan.Parallel` for work in sessions, `Closing.Parallel` for work in runs.
-/

namespace StubClosure

/-- Values that belong together, or the same error. -/
inductive Together {ε α β : Type} (belong : α → β → Prop) : Except ε α → Except ε β → Prop where
  | ok {a : α} {b : β} (h : belong a b) : Together belong (.ok a) (.ok b)
  | error (e : ε) : Together belong (.error e) (.error e)

variable {S : Session → Session → Prop} {α β γ δ : Type} {belong : α → β → Prop} {fits : γ → δ → Prop}

/-! ## Rules -/

namespace Scan

/-- From sessions that are related, the two pieces of work find what belongs together, and leave related sessions. -/
def Parallel (S : Session → Session → Prop) (belong : α → β → Prop) (work : Scan α) (work' : Scan β) : Prop :=
  ∀ s s', S s s' → belong (work.run s).1 (work'.run s').1 ∧ S (work.run s).2 (work'.run s').2

theorem parallel_pure {a : α} {b : β} (h : belong a b) : Parallel S belong (pure a) (pure b) := fun _ _ hs => ⟨h, hs⟩

theorem Parallel.bind {work : Scan α} {work' : Scan β} {next : α → Scan γ} {next' : β → Scan δ}
    (hw : Parallel S belong work work') (hn : ∀ a b, belong a b → Parallel S fits (next a) (next' b)) :
    Parallel S fits (work >>= next) (work' >>= next') := by
  intro s s' hs
  obtain ⟨hfound, hs⟩ := hw s s' hs
  exact hn _ _ hfound _ _ hs

end Scan

/-- Runs in related sessions that have the same stubs, as far as identities go, with the same origins. -/
structure Run.Parallel (S : Session → Session → Prop) (run run' : Run) : Prop where
  session : S run.session run'.session
  stubs : run'.stubs.plain = run.stubs.plain
  origins : run'.origins = run.origins

namespace Closing

/-- From the two runs, the two pieces of work come to what belongs together or to the same error, and the runs after it go on in parallel. -/
def Parallel (S : Session → Session → Prop) (belong : α → β → Prop) (work : Closing α) (work' : Closing β)
    (run run' : Run) : Prop :=
  Together belong (work.run.run run).1 (work'.run.run run').1 ∧
    (work.run.run run).2.Parallel S (work'.run.run run').2

variable {run run' : Run}

theorem parallel_pure {a : α} {b : β} (h : belong a b) (hr : run.Parallel S run') :
    Parallel S belong (pure a) (pure b) run run' := ⟨.ok h, hr⟩

theorem Parallel.bind {work : Closing α} {work' : Closing β} {next : α → Closing γ} {next' : β → Closing δ}
    (hw : Parallel S belong work work' run run')
    (hn : ∀ a b after after', belong a b → after.Parallel S after' →
      Parallel S fits (next a) (next' b) after after') :
    Parallel S fits (work >>= next) (work' >>= next') run run' := by
  obtain ⟨hfound, hafter⟩ := hw
  unfold Parallel
  rw [Step.run_bind, Step.run_bind]
  rcases hrun : work.run.run run with ⟨outcome, after⟩
  rcases hrun' : work'.run.run run' with ⟨outcome', after'⟩
  rw [hrun, hrun'] at hfound hafter
  cases hfound with
  | ok h => exact hn _ _ _ _ h hafter
  | error e => exact ⟨.error e, hafter⟩

theorem parallel_scan {work : Scan α} {work' : Scan β} (hw : Scan.Parallel S belong work work')
    (hr : run.Parallel S run') : Parallel S belong (scan work) (scan work') run run' := by
  obtain ⟨hfound, hs⟩ := hw _ _ hr.session
  exact ⟨.ok hfound, hs, hr.stubs, hr.origins⟩

theorem parallel_stub {work work' : Stubbing α} {plain : Stubbing α}
    (hw : ∀ stubs, plain.run.run stubs.plain = ((work.run.run stubs).1, (work.run.run stubs).2.plain))
    (hw' : ∀ stubs, plain.run.run stubs.plain = ((work'.run.run stubs).1, (work'.run.run stubs).2.plain))
    (hr : run.Parallel S run') : Parallel S Eq (stub work) (stub work') run run' := by
  have hsame := hw' run'.stubs
  rw [hr.stubs, hw run.stubs] at hsame
  obtain ⟨hfound, hstubs⟩ := Prod.mk.inj hsame
  unfold Parallel
  rw [Closure.run_stub, Closure.run_stub, ← hfound]
  refine ⟨?_, hr.session, hstubs.symm, hr.origins⟩
  cases (work.run.run run.stubs).1 with
  | ok a => exact .ok rfl
  | error e => exact .error _

theorem parallel_addType (t : TypeId) (hr : run.Parallel S run') :
    Parallel S Eq (stub (StubSet.addType t)) (stub (StubSet.addType t)) run run' :=
  parallel_stub (StubSet.run_addType_plain t) (StubSet.run_addType_plain t) hr

theorem parallel_addMembers (t : TypeId) {members members' : List Member}
    (h : members'.map Member.plain = members.map Member.plain) (hr : run.Parallel S run') :
    Parallel S Eq (stub (StubSet.addMembers t members)) (stub (StubSet.addMembers t members')) run run' :=
  parallel_stub (StubSet.run_addMembers_plain t members) (by rw [← h]; exact StubSet.run_addMembers_plain t members') hr

end Closing

/-! ## What is to be the same -/

/-- References of one kind to one member, found in two bodies where a virtual call comes to the same. -/
structure SameReference (S : Session → Session → Prop) (p q : Program) (b b' : Body) (r r' : Reference) : Prop where
  category : r'.category = r.category
  target : r'.target.toSignature = r.target.toSignature
  declared : r'.declared.toSignature = r.declared.toSignature
  resolves : r.category = .virtualCall → ∀ run run' : Run, run.Parallel S run' →
    Closing.Parallel S Eq (Closing.receiver (Receiver.resolve p b r.index))
      (Closing.receiver (Receiver.resolve q b' r'.index)) run run'

/-- Bodies that make the same references, one after the other. -/
def SameBody (S : Session → Session → Prop) (p q : Program) (b b' : Body) : Prop :=
  Scan.Parallel S (List.Forall₂ (SameReference S p q b b')) (Reference.ofBody p b) (Reference.ofBody q b')

/-- The programs have the same types, and in view of related sessions the same is found in them. -/
structure Alongside (S : Session → Session → Prop) (p q : Program) : Prop where
  types : p.SameTypes q
  names : q.findType? = p.findType?
  bodies : ∀ t, List.Forall₂ (SameBody S p q) (p.bodiesOf t) (q.bodiesOf t)
  folds : ∀ m, Scan.Parallel S (fun a b => b.plain = a.plain) (Reference.normalize p m none) (Reference.normalize q m none)
  traces : ∀ messages, Scan.Parallel S Eq (Scan.trace messages) (Scan.trace messages)
  reports : ∀ ds, Scan.Parallel S Eq (Scan.report ds) (Scan.report ds)

namespace Closure

open Closing

variable {p q : Program} {options : ClosureOptions} {sources known : List TypeId} {run run' : Run}

/-! ## Discoveries -/

/-- Discoveries that differ in roles and flags of called methods only. -/
structure SameDiscovery (d d' : Discovery) : Prop where
  methods : d'.methods.plain = d.methods.plain
  types : d'.types = d.types
  seeds : d'.seeds = d.seeds

theorem SameDiscovery.wanted {d d' : Discovery} (h : SameDiscovery d d') : d'.wanted = d.wanted := by
  have howners : ∀ set : MemberSet, (Table.values set).map (·.owner) = (Table.values set.plain).map (·.owner) := by
    intro set
    rw [MemberSet.values_plain, List.map_map]
    rfl
  unfold Discovery.wanted
  rw [howners d'.methods, howners d.methods, h.methods, h.types, h.seeds]

theorem SameDiscovery.addMethod {d d' : Discovery} (h : SameDiscovery d d') {m m' : Member}
    (hm : m'.toSignature = m.toSignature) : SameDiscovery (d.addMethod m) (d'.addMethod m') where
  methods := by
    show (d'.methods.add m').plain = (d.methods.add m).plain
    rw [MemberSet.plain_add, MemberSet.plain_add, h.methods, Member.plain_eq_iff.2 hm]
  types := h.types
  seeds := h.seeds

theorem SameDiscovery.addRefinement {d d' : Discovery} (h : SameDiscovery d d') (r : Refinement) :
    SameDiscovery (d.addRefinement r) (d'.addRefinement r) := by
  unfold Discovery.addRefinement
  cases r.method with
  | none => exact ⟨h.methods, by rw [h.types], h.seeds⟩
  | some m =>
    refine ⟨?_, h.types, by rw [h.seeds]⟩
    show (d'.methods.add m).plain = (d.methods.add m).plain
    rw [MemberSet.plain_add, MemberSet.plain_add, h.methods]

theorem parallel_discover {b b' : Body} {r r' : Reference} (h : SameReference S p q b b' r r') {d d' : Discovery}
    (hd : SameDiscovery d d') (hr : run.Parallel S run') :
    Closing.Parallel S SameDiscovery (discover p b r d) (discover q b' r' d') run run' := by
  rw [discover_eq, discover_eq, h.category]
  have hresolve : Closing.Parallel S Eq
      (if r.category = .virtualCall then receiver (Receiver.resolve p b r.index) else pure none)
      (if r.category = .virtualCall then receiver (Receiver.resolve q b' r'.index) else pure none) run run' := by
    split
    next hv => exact h.resolves hv run run' hr
    · exact parallel_pure rfl hr
  refine hresolve.bind fun refinement _ after after' he ha => ?_
  subst he
  refine parallel_pure ?_ ha
  cases refinement with
  | none => exact hd.addMethod h.declared
  | some found => exact (hd.addRefinement found).addMethod h.declared

theorem isRelated_eq_of_same (h : p.SameTypes q) {b b' : Body} {r r' : Reference} (hr : SameReference S p q b b' r r')
    (source : TypeId) (known : List TypeId) : isRelated q source known r' = isRelated p source known r := by
  rw [isRelated_congr h]
  unfold isRelated leaks
  rw [hr.category, show r'.declared.owner = r.declared.owner from congrArg Signature.owner hr.declared,
    show r'.declared.params = r.declared.params from congrArg Signature.params hr.declared]

theorem parallel_relatedIn (h : p.SameTypes q) {b b' : Body} {refs refs' : List Reference}
    (hrefs : List.Forall₂ (SameReference S p q b b') refs refs') (source : TypeId) (known : List TypeId)
    {d d' : Discovery} (hd : SameDiscovery d d') (hr : run.Parallel S run') :
    Closing.Parallel S SameDiscovery (relatedIn p source known b refs d) (relatedIn q source known b' refs' d')
      run run' := by
  unfold relatedIn
  induction hrefs generalizing d d' run run' with
  | nil => exact parallel_pure hd hr
  | @cons r r' rest rest' hone _ ih =>
    rw [List.filter_cons, List.filter_cons, isRelated_eq_of_same h hone]
    split
    · rw [List.foldlM_cons, List.foldlM_cons]
      exact (parallel_discover hone hd hr).bind fun _ _ _ _ hd' ha => ih hd' ha
    · exact ih hd hr

theorem parallel_relatedInBodies (h : p.SameTypes q) {bodies bodies' : List Body}
    (hb : List.Forall₂ (SameBody S p q) bodies bodies') (source : TypeId) (known : List TypeId) {d d' : Discovery}
    (hd : SameDiscovery d d') (hr : run.Parallel S run') :
    Closing.Parallel S SameDiscovery (relatedInBodies p source known bodies d)
      (relatedInBodies q source known bodies' d') run run' := by
  induction hb generalizing d d' run run' with
  | nil => exact parallel_pure hd hr
  | cons hone _ ih =>
    refine (parallel_scan hone hr).bind fun refs refs' _ _ hrefs ha => ?_
    exact (parallel_relatedIn h hrefs source known hd ha).bind fun _ _ _ _ hd' ha' => ih hd' ha'

/-! ## A pass -/

theorem map_text_sorted {set set' : MemberSet} (h : set'.plain = set.plain) (name : String) :
    (set'.sorted.map fun m => s!"STUB {m.text}, called from {name}") =
      set.sorted.map fun m => s!"STUB {m.text}, called from {name}" := by
  have hplain : ∀ set : MemberSet, (set.sorted.map fun m => s!"STUB {m.text}, called from {name}") =
      set.plain.sorted.map fun m => s!"STUB {m.text}, called from {name}" := by
    intro set
    rw [← MemberSet.map_plain_sorted, List.map_map]
    rfl
  rw [hplain set', hplain set, h]

theorem parallel_wantedTypes (h : Alongside S p q) (known rest : List TypeId) (wanted : Wanted)
    (hr : run.Parallel S run') :
    Closing.Parallel S Eq (wantedTypes p sources known rest wanted) (wantedTypes q sources known rest wanted)
      run run' := by
  induction rest generalizing wanted run run' with
  | nil => exact parallel_pure rfl hr
  | cons source rest ih =>
    have hd : SameDiscovery {} {} := ⟨rfl, rfl, rfl⟩
    refine (parallel_relatedInBodies h.types (h.bodies source) source known hd hr).bind fun d d' _ _ hd ha => ?_
    dsimp only
    rw [map_text_sorted hd.methods, hd.wanted, stubbable_congr h.types]
    refine (parallel_scan (h.traces _) ha).bind fun _ _ after after' _ ha => ?_
    have hwant : Closing.Parallel S Eq
        (want source d wanted ((sortOn TypeId.fullName d.wanted).filter (stubbable p sources)))
        (want source d' wanted ((sortOn TypeId.fullName d.wanted).filter (stubbable p sources))) after after' := by
      unfold Closing.Parallel
      rw [run_want, run_want]
      refine ⟨.ok ?_, ha.session, ha.stubs, ?_⟩
      · unfold Wanted.take
        rw [hd.seeds]
      · rw [ha.origins]
    refine hwant.bind fun wanted' _ _ _ he ha => ?_
    subst he
    exact ih wanted' ha

theorem parallel_addKeys (h : Alongside S p q) (types : List TypeId) (hr : run.Parallel S run') :
    Closing.Parallel S Eq (addKeys types) (addKeys types) run run' := by
  induction types generalizing run run' with
  | nil => exact parallel_pure rfl hr
  | cons t rest ih =>
    unfold addKeys
    refine (parallel_addType t hr).bind fun isNew _ after after' he ha => ?_
    subst he
    cases isNew with
    | false => exact ih ha
    | true =>
      rw [if_pos rfl]
      unfold Closing.Parallel
      rw [Step.run_get_bind, Step.run_get_bind, ha.origins]
      cases after.origins.find? t with
      | none => exact ⟨.error _, ha⟩
      | some origin =>
        refine (parallel_scan (h.reports _) ha).bind fun _ _ _ _ _ ha => ?_
        refine (ih ha).bind fun more _ _ _ he ha => ?_
        subst he
        exact parallel_pure rfl ha

/-! ## Contents -/

theorem parallel_ofBodies {bodies bodies' : List Body} (hb : List.Forall₂ (SameBody S p q) bodies bodies') :
    Scan.Parallel S (fun found found' => (found'.flatMap (·.2)).map (·.target.plain) =
      (found.flatMap (·.2)).map (·.target.plain)) (Reference.ofBodies p bodies) (Reference.ofBodies q bodies') := by
  induction hb with
  | nil => exact Scan.parallel_pure rfl
  | cons hone _ ih =>
    refine Scan.Parallel.bind hone fun refs refs' hrefs => ih.bind fun others others' ho => Scan.parallel_pure ?_
    have hone : refs'.map (·.target.plain) = refs.map (·.target.plain) := by
      induction hrefs with
      | nil => rfl
      | cons hr _ ih => rw [List.map_cons, List.map_cons, ih, Member.plain_eq_iff.2 hr.target]
    rw [List.flatMap_cons, List.flatMap_cons, List.map_append, List.map_append, hone, ho]

theorem parallel_into (h : Alongside S p q) (stub scanned : TypeId) :
    Scan.Parallel S (fun set set' : MemberSet => set'.plain = set.plain) (Reference.into p stub scanned)
      (Reference.into q stub scanned) := by
  refine (parallel_ofBodies (h.bodies scanned)).bind fun found found' hf => Scan.parallel_pure ?_
  have hplain : ∀ refs : List Reference,
      (MemberSet.ofList ((refs.map Reference.target).filter (·.owner = stub))).plain =
        MemberSet.ofList ((refs.map (·.target.plain)).filter (·.owner = stub)) := by
    intro refs
    unfold MemberSet.ofList
    rw [MemberSet.plain_addAll, show (fun r : Reference => r.target.plain) = Member.plain ∘ Reference.target from rfl,
      ← List.map_map, List.filter_map (f := Member.plain)]
    rfl
  rw [hplain, hplain, hf]

theorem parallel_contentsFrom (h : Alongside S p q) (stub : TypeId) (scanned : List TypeId) {content content' : MemberSet}
    (hc : content'.plain = content.plain) :
    Scan.Parallel S (fun set set' : MemberSet => set'.plain = set.plain) (contentsFrom p stub scanned content)
      (contentsFrom q stub scanned content') := by
  induction scanned generalizing content content' with
  | nil => exact Scan.parallel_pure hc
  | cons t rest ih =>
    refine (parallel_into h stub t).bind fun found found' hf => ih ?_
    rw [MemberSet.plain_addAll, MemberSet.plain_addAll, ← MemberSet.values_plain, ← MemberSet.values_plain, hc, hf]

theorem parallel_stubContents (h : Alongside S p q) (stub : TypeId) :
    Scan.Parallel S (fun set set' : MemberSet => set'.plain = set.plain) (stubContents p stub sources)
      (stubContents q stub sources) := by
  unfold stubContents
  rw [scannedTypes_congr h.types]
  exact parallel_contentsFrom h stub _ rfl

theorem parallel_foldSeeds (h : Alongside S p q) (members : List Member) :
    Scan.Parallel S (fun found found' : List Member => found'.map Member.plain = found.map Member.plain)
      (foldSeeds p members) (foldSeeds q members) := by
  induction members with
  | nil => exact Scan.parallel_pure rfl
  | cons m rest ih =>
    refine (h.folds m).bind fun target target' ht => ih.bind fun others others' ho => Scan.parallel_pure ?_
    rw [List.map_cons, List.map_cons, ht, ho]

theorem parallel_fill (h : Alongside S p q) (wanted : Wanted) (types : List TypeId) (hr : run.Parallel S run') :
    Closing.Parallel S Eq (fill p sources wanted types) (fill q sources wanted types) run run' := by
  induction types generalizing run run' with
  | nil => exact parallel_pure rfl hr
  | cons t rest ih =>
    refine (parallel_scan (parallel_stubContents h t) hr).bind fun content content' _ _ hc ha => ?_
    refine (parallel_scan (parallel_foldSeeds h _) ha).bind fun seeds seeds' _ _ hs ha => ?_
    have hvalues : (content'.addAll seeds').values.map Member.plain = (content.addAll seeds).values.map Member.plain := by
      rw [← MemberSet.values_plain, ← MemberSet.values_plain, MemberSet.plain_addAll, MemberSet.plain_addAll, hc, hs]
    refine (parallel_addMembers t hvalues ha).bind fun added _ _ _ he ha => ?_
    subst he
    refine (ih ha).bind fun others _ _ _ he ha => ?_
    subst he
    exact parallel_pure rfl ha

/-- Summaries that are the same, as far as identities go. -/
abbrev SameSummary (summary summary' : PassSummary) : Prop := summary'.plain = summary.plain

theorem parallel_summarize (index : Nat) (newTypes : List TypeId) (newMembers : Nat) (hr : run.Parallel S run') :
    Closing.Parallel S SameSummary (summarize index newTypes newMembers) (summarize index newTypes newMembers) run run' :=
  ⟨.ok (congrArg (fun stubs : StubSet => { index, newTypes, newMembers, snapshot := stubs.entries : PassSummary }) hr.stubs),
    hr⟩

theorem keys_eq_of_parallel (hr : run.Parallel S run') : run'.stubs.keys = run.stubs.keys := by
  have hkeys : ∀ stubs : StubSet, stubs.plain.keys = stubs.keys := fun stubs =>
    congrArg (sortOn TypeId.fullName) (Table.keys_mapValues MemberSet.plain stubs.entries)
  rw [← hkeys run'.stubs, ← hkeys run.stubs, hr.stubs]

/-- **A pass** does the same for both. -/
theorem parallel_runPass (h : Alongside S p q) (index : Nat) (hr : run.Parallel S run') :
    Closing.Parallel S SameSummary (runPass p sources index) (runPass q sources index) run run' := by
  unfold runPass Closing.Parallel
  rw [Step.run_get_bind, Step.run_get_bind, keys_eq_of_parallel hr]
  refine (parallel_wantedTypes h _ _ _ hr).bind fun wanted _ _ _ he ha => ?_
  subst he
  refine (parallel_addKeys h _ ha).bind fun newTypes _ _ _ he ha => ?_
  subst he
  refine (parallel_fill h _ _ ha).bind fun newMembers _ _ _ he ha => ?_
  subst he
  exact parallel_summarize index newTypes newMembers ha

theorem parallel_stubAll (h : Alongside S p q) (types : List TypeId) (hr : run.Parallel S run') :
    Closing.Parallel S Eq (stubAll p sources types) (stubAll q sources types) run run' := by
  induction types generalizing run run' with
  | nil => exact parallel_pure rfl hr
  | cons t rest ih =>
    unfold stubAll
    refine (parallel_addType t hr).bind fun isNew _ _ _ he ha => ?_
    subst he
    refine (parallel_scan (parallel_stubContents h t) ha).bind fun content content' _ _ hc ha => ?_
    have hvalues : content'.values.map Member.plain = content.values.map Member.plain := by
      rw [← MemberSet.values_plain, ← MemberSet.values_plain, hc]
    refine (parallel_addMembers t hvalues ha).bind fun added _ _ _ he ha => ?_
    subst he
    refine (ih ha).bind fun found _ _ _ he ha => ?_
    subst he
    exact parallel_pure rfl ha

theorem parallel_stubEverything (h : Alongside S p q) (hr : run.Parallel S run') :
    Closing.Parallel S SameSummary (stubEverything p sources) (stubEverything q sources) run run' := by
  unfold stubEverything
  rw [h.types.listed]
  refine (parallel_stubAll h _ hr).bind fun found _ _ _ he ha => ?_
  subst he
  exact parallel_summarize 1 found.1 found.2 ha

/-! ## Runs -/

theorem parallel_passesFrom (h : Alongside S p q) (more index : Nat) (hr : run.Parallel S run') :
    Closing.Parallel S (fun list list' => list'.map PassSummary.plain = list.map PassSummary.plain)
      (passesFrom p options sources more index) (passesFrom q options sources more index) run run' := by
  induction more generalizing index run run' with
  | zero => exact parallel_pure rfl hr
  | succ more ih =>
    unfold passesFrom
    refine (parallel_runPass h index hr).bind fun summary summary' after after' hs ha => ?_
    have hnew : summary'.plain.newTypes = summary.plain.newTypes := by rw [hs]
    have hadded : summary'.plain.newMembers = summary.plain.newMembers := by rw [hs]
    have hnext : ∀ message, Closing.Parallel S
        (fun list list' => list'.map PassSummary.plain = list.map PassSummary.plain)
        (do Closing.scan (Scan.trace [message])
            return summary :: (← passesFrom p options sources more (index + 1)))
        (do Closing.scan (Scan.trace [message])
            return summary' :: (← passesFrom q options sources more (index + 1))) after after' := by
      intro message
      refine (parallel_scan (h.traces _) ha).bind fun _ _ _ _ _ ha => ?_
      refine (ih (index + 1) ha).bind fun rest rest' _ _ hrest ha => parallel_pure ?_ ha
      rw [List.map_cons, List.map_cons, hs, hrest]
    rw [show summary'.newTypes = summary.newTypes from hnew, show summary'.newMembers = summary.newMembers from hadded]
    split
    · exact hnext _
    split
    · exact hnext _
    · exact parallel_pure (by rw [List.map_singleton, List.map_singleton, hs]) ha

theorem parallel_passes (h : Alongside S p q) (hr : run.Parallel S run') :
    Closing.Parallel S (fun list list' => list'.map PassSummary.plain = list.map PassSummary.plain)
      (passes p options sources) (passes q options sources) run run' := by
  unfold passes
  rw [h.types.size]
  split
  · refine (parallel_stubEverything h hr).bind fun summary summary' _ _ hs ha => parallel_pure ?_ ha
    rw [List.map_singleton, List.map_singleton, hs]
  · exact parallel_passesFrom h _ 1 hr

theorem parallel_resolveNames (h : Alongside S p q) (names : List String) (hr : run.Parallel S run') :
    Closing.Parallel S Eq (resolveNames p names) (resolveNames q names) run run' := by
  rw [resolveNames_congr h.names]
  induction names generalizing run run' with
  | nil => exact parallel_pure rfl hr
  | cons name rest ih =>
    unfold resolveNames
    cases p.findType? name with
    | none =>
      refine (parallel_scan (h.reports _) hr).bind fun _ _ _ _ _ ha => ?_
      exact ⟨.error _, ha⟩
    | some d =>
      refine (ih hr).bind fun rest _ _ _ he ha => ?_
      subst he
      exact parallel_pure rfl ha

/-- Results that are the same, as far as identities go, each with the reports of its session. -/
structure SameResult (S : Session → Session → Prop) (r r' : ClosureResult) : Prop where
  sources : r'.sources = r.sources
  stubs : r'.stubs.plain = r.stubs.plain
  passes : r'.passes.map PassSummary.plain = r.passes.map PassSummary.plain
  origins : r'.origins = r.origins
  diagnostics : ∃ s s', S s s' ∧ r.diagnostics = s.sink.diagnostics ∧ r'.diagnostics = s'.sink.diagnostics

/-- **Runs alongside each other.** Runs of two programs that answer alike come to the same result, as far as identities go, or to the same error, and leave related sessions. -/
theorem alongside_run (h : Alongside S p q) (names : List String) (options : ClosureOptions) {session session' : Session}
    (hs : S session session') :
    Together (SameResult S) (Closure.run p names options session).1 (Closure.run q names options session').1 ∧
      S (Closure.run p names options session).2 (Closure.run q names options session').2 := by
  have hempty : Run.Parallel S { session } { session := session' } := ⟨hs, rfl, rfl⟩
  have hsources : Closing.Parallel S Eq (resolveSources p names) (resolveSources q names) { session }
      { session := session' } := by
    refine (parallel_resolveNames h names hempty).bind fun types _ _ _ he ha => ?_
    subst he
    exact parallel_pure rfl ha
  have hclosing : Closing.Parallel S (SameResult S) (closing p names options) (closing q names options) { session }
      { session := session' } := by
    unfold closing
    refine hsources.bind fun sources _ after after' he ha => ?_
    subst he
    unfold Closing.Parallel
    rw [Step.run_modify_bind, Step.run_modify_bind]
    have hstart : (start sources after.session).Parallel S (start sources after'.session) := ⟨ha.session, rfl, rfl⟩
    refine (parallel_passes h hstart).bind fun list list' after after' hlist ha => ?_
    exact ⟨.ok ⟨rfl, congrArg StubSet.freeze ha.stubs, hlist, ha.origins, _, _, ha.session, rfl, rfl⟩,
      ha.session, congrArg StubSet.freeze ha.stubs, ha.origins⟩
  exact ⟨hclosing.1, hclosing.2.session⟩

end Closure

end StubClosure
