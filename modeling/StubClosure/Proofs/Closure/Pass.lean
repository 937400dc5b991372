import StubClosure.Proofs.Closure.Wanted
import StubClosure.Proofs.Closure.Contents

/-!
# What a pass does

A pass first makes the types that are wanted keys, and then gives each of them its members. `KeysAdded` and `Filled` say what each half changes in a run and what it leaves alone. `Sound` is what holds of a run between passes; a pass keeps it, and it adds exactly what `wanting` asks for in view of the keys at its start (`ends_runPass`).
-/

namespace StubClosure.Closure

open Closing

variable {p : Program} {sources : List TypeId}

/-- The keys of the stubs of a run. -/
def keySet (run : Run) : Set TypeId := {t | t ∈ run.stubs.entries.keys}

/-! ## Making types keys -/

/-- A run after keys were added: none of them has members yet, and nothing else that a pass relies on has changed. -/
structure KeysAdded (run : Run) (new : List TypeId) (after : Run) : Prop where
  keys : after.stubs.entries.keys = run.stubs.entries.keys ++ new
  members : ∀ t, membersAt after.stubs.entries t = membersAt run.stubs.entries t
  sources : after.stubs.sources = run.stubs.sources
  isFrozen : after.stubs.isFrozen = run.stubs.isFrozen
  origins : after.origins = run.origins
  memory : after.session.memory = run.session.memory

theorem KeysAdded.refl (run : Run) : KeysAdded run [] run := ⟨by simp, fun _ => rfl, rfl, rfl, rfl, rfl⟩

theorem KeysAdded.trans {run mid after : Run} {new more : List TypeId} (h : KeysAdded run new mid)
    (h' : KeysAdded mid more after) : KeysAdded run (new ++ more) after where
  keys := by rw [h'.keys, h.keys, List.append_assoc]
  members := fun t => (h'.members t).trans (h.members t)
  sources := h'.sources.trans h.sources
  isFrozen := h'.isFrozen.trans h.isFrozen
  origins := h'.origins.trans h.origins
  memory := h'.memory.trans h.memory

theorem run_stub {α : Type} (work : Stubbing α) (run : Run) :
    (stub work).run.run run =
      ((work.run.run run.stubs).1.mapError .stubSet, { run with stubs := (work.run.run run.stubs).2 }) := rfl

theorem run_stub_of_ok {α : Type} {work : Stubbing α} {run : Run} {a : α} {stubs : StubSet}
    (h : work.run.run run.stubs = (.ok a, stubs)) : (stub work).run.run run = (.ok a, { run with stubs }) := by
  rw [run_stub, h]
  rfl

/-- The report on a new stub type, made. -/
def announce (t origin : TypeId) (run : Run) : Run :=
  { run with session := { run.session with sink := run.session.sink.emitAll [stubbed t origin] } }

theorem run_addKeys_cons (t : TypeId) (rest : List TypeId) (run : Run) :
    (addKeys (t :: rest)).run.run run =
      match (stub (StubSet.addType t)).run.run run with
      | (.error e, after) => (.error e, after)
      | (.ok false, after) => (addKeys rest).run.run after
      | (.ok true, after) =>
        match after.origins.find? t with
        | none => (.error (.noOrigin t), after)
        | some origin =>
          match (addKeys rest).run.run (announce t origin after) with
          | (.ok new, last) => (.ok (t :: new), last)
          | (.error e, last) => (.error e, last) := by
  rw [addKeys, Step.run_bind]
  rcases (stub (StubSet.addType t)).run.run run with ⟨e | isNew, after⟩
  · rfl
  · cases isNew with
    | false => rfl
    | true =>
      dsimp only
      rw [if_pos rfl, Step.run_get_bind]
      cases after.origins.find? t with
      | none => rfl
      | some origin =>
        show ((addKeys rest) >>= fun new => pure (t :: new)).run.run (announce t origin after) = _
        rw [Step.run_bind]
        dsimp only
        rcases (addKeys rest).run.run (announce t origin after) with ⟨e | new, last⟩ <;> rfl

theorem exists_of_run_addKeys_cons {t : TypeId} {rest new : List TypeId} {run after : Run}
    (h : (addKeys (t :: rest)).run.run run = (.ok new, after)) : ∃ stubs,
      ((StubSet.addType t).run.run run.stubs = (.ok false, stubs) ∧
        (addKeys rest).run.run { run with stubs } = (.ok new, after)) ∨
      ((StubSet.addType t).run.run run.stubs = (.ok true, stubs) ∧ ∃ origin more, run.origins.find? t = some origin ∧
        (addKeys rest).run.run (announce t origin { run with stubs }) = (.ok more, after) ∧ new = t :: more) := by
  rw [run_addKeys_cons, run_stub] at h
  rcases hadd : (StubSet.addType t).run.run run.stubs with ⟨e | isNew, stubs⟩
  · rw [hadd] at h
    cases h
  · rw [hadd] at h
    dsimp only [Except.mapError] at h
    refine ⟨stubs, ?_⟩
    cases isNew with
    | false => exact .inl ⟨rfl, h⟩
    | true =>
      dsimp only at h
      cases horigin : run.origins.find? t with
      | none =>
        rw [horigin] at h
        cases h
      | some origin =>
        rw [horigin] at h
        dsimp only at h
        rcases hrest : (addKeys rest).run.run (announce t origin { run with stubs }) with ⟨e | more, last⟩
        · rw [hrest] at h
          cases h
        · rw [hrest] at h
          cases h
          exact .inr ⟨rfl, origin, more, rfl, hrest, rfl⟩

/-- The run with one more key, the report on it made. -/
def withKey (t origin : TypeId) (run : Run) : Run :=
  announce t origin { run with stubs := { run.stubs with entries := run.stubs.entries.insert t {} } }

theorem keysAdded_withKey {t : TypeId} {run : Run} (origin : TypeId) (h : t ∉ run.stubs.entries.keys) :
    KeysAdded run [t] (withKey t origin run) where
  keys := (Table.keys_insert run.stubs.entries t {}).trans (if_neg h)
  members := by
    intro other
    refine (membersAt_insert run.stubs.entries t {} other).trans ?_
    split
    next he => rw [he, membersAt_of_not_mem h]
    · rfl
  sources := rfl
  isFrozen := rfl
  origins := rfl
  memory := rfl

/-- The types that are no keys of a run, in the order given: those that become keys. -/
def missing (run : Run) (types : List TypeId) : List TypeId := types.filter (· ∉ run.stubs.entries.keys)

theorem mem_missing {run : Run} {types : List TypeId} {t : TypeId} :
    t ∈ missing run types ↔ t ∈ types ∧ t ∉ keySet run := by
  unfold missing
  rw [List.mem_filter, decide_eq_true_eq]
  rfl

theorem missing_withKey {t origin : TypeId} {rest : List TypeId} {run : Run} (h : t ∉ run.stubs.entries.keys)
    (ht : t ∉ rest) : missing (withKey t origin run) rest = missing run rest := by
  unfold missing
  rw [(keysAdded_withKey origin h).keys]
  refine List.filter_congr fun other ho => ?_
  have hne : other ≠ t := fun he => ht (he ▸ ho)
  simp [hne]

theorem ends_addKeys {types : List TypeId} (hd : types.Nodup) {run : Run} (hopen : run.stubs.isFrozen = false)
    (hsrc : ∀ t ∈ types, t ∉ run.stubs.sources) (ho : ∀ t ∈ types, t ∈ run.origins.keys) :
    Step.Ends (addKeys types) run fun outcome after =>
      outcome = .ok (missing run types) ∧ KeysAdded run (missing run types) after := by
  induction types generalizing run with
  | nil => exact ⟨rfl, .refl run⟩
  | cons t rest ih =>
    obtain ⟨ht, hd⟩ := List.nodup_cons.1 hd
    have hrest : ∀ other ∈ rest, other ∉ run.stubs.sources := fun other h => hsrc other (List.mem_cons_of_mem _ h)
    have horest : ∀ other ∈ rest, other ∈ run.origins.keys := fun other h => ho other (List.mem_cons_of_mem _ h)
    unfold Step.Ends
    rw [run_addKeys_cons, run_stub, StubSet.run_addType_of_open hopen (hsrc t List.mem_cons_self)]
    by_cases hc : t ∈ run.stubs.entries.keys
    · rw [if_pos (Table.contains_iff.2 hc)]
      have hsame : missing run (t :: rest) = missing run rest := List.filter_cons_of_neg (by simpa using hc)
      rw [hsame]
      exact ih hd hopen hrest horest
    · rw [if_neg (fun h => hc (Table.contains_iff.1 h))]
      obtain ⟨origin, horigin⟩ := Table.exists_find?_of_mem (ho t List.mem_cons_self)
      have hadded : KeysAdded run [t] (withKey t origin run) := keysAdded_withKey origin hc
      obtain ⟨hnew, hafter⟩ := @ih hd (withKey t origin run) hopen hrest horest
      rw [missing_withKey hc ht] at hnew hafter
      have hrun : (addKeys rest).run.run (withKey t origin run) = (.ok (missing run rest), _) := Prod.ext hnew rfl
      dsimp only [Except.mapError]
      rw [horigin]
      dsimp only
      rw [show announce t origin _ = withKey t origin run from rfl, hrun]
      have hsame : missing run (t :: rest) = t :: missing run rest := List.filter_cons_of_pos (by simpa using hc)
      rw [hsame]
      exact ⟨rfl, hadded.trans hafter⟩

/-! ## Giving types their members -/

/-- What a pass gives to the stub of a type. -/
def given (p : Program) (sources : List TypeId) (wanted : Wanted) (t : TypeId) : Set Signature :=
  {s | s.owner = t ∧ Mentioned p {t | t ∈ sources} s ∨ ∃ m ∈ (membersAt wanted t).values, s = p.folded m}

/-- A run after types were given their members. -/
structure Filled (p : Program) (given : TypeId → Set Signature) (types : List TypeId) (run after : Run) : Prop where
  keys : after.stubs.entries.keys = run.stubs.entries.keys
  keyed : ∀ t, (membersAt after.stubs.entries t).IsKeyed
  members : ∀ t s, s ∈ (membersAt after.stubs.entries t).keys ↔
    s ∈ (membersAt run.stubs.entries t).keys ∨ t ∈ types ∧ s ∈ given t
  sources : after.stubs.sources = run.stubs.sources
  isFrozen : after.stubs.isFrozen = run.stubs.isFrozen
  origins : after.origins = run.origins
  faithful : after.session.memory.Faithful p

theorem Filled.cons {given : TypeId → Set Signature} {t : TypeId} {rest : List TypeId} {run mid after : Run}
    (h : Filled p given [t] run mid) (h' : Filled p given rest mid after) : Filled p given (t :: rest) run after where
  keys := h'.keys.trans h.keys
  keyed := h'.keyed
  members := by
    intro other s
    rw [h'.members, h.members]
    simp only [List.mem_cons, List.not_mem_nil, or_false]
    tauto
  sources := h'.sources.trans h.sources
  isFrozen := h'.isFrozen.trans h.isFrozen
  origins := h'.origins.trans h.origins
  faithful := h'.faithful

/-- The run after a session in which members were found that were added to a key. -/
def withMembers (t : TypeId) (found : MemberSet) (session : Session) (run : Run) : Run :=
  { run with
    session
    stubs := { run.stubs with
      entries := run.stubs.entries.insert t ((membersAt run.stubs.entries t).addAll found.values) } }

theorem filled_withMembers {given : TypeId → Set Signature} {t : TypeId} {found : MemberSet} {session : Session}
    {run : Run} (ht : t ∈ run.stubs.entries.keys) (hk : ∀ t, (membersAt run.stubs.entries t).IsKeyed)
    (hfound : found.IsKeyed) (hgiven : ∀ s, s ∈ found.keys ↔ s ∈ given t) (hf : session.memory.Faithful p) :
    Filled p given [t] run (withMembers t found session run) where
  keys := (Table.keys_insert run.stubs.entries t _).trans (if_pos ht)
  keyed := by
    intro other
    show (membersAt (run.stubs.entries.insert t _) other).IsKeyed
    rw [membersAt_insert]
    split
    · exact MemberSet.isKeyed_addAll (hk t) _
    · exact hk other
  members := by
    intro other s
    show s ∈ (membersAt (run.stubs.entries.insert t _) other).keys ↔ _
    rw [membersAt_insert, List.mem_singleton]
    split
    next he =>
      rw [he, MemberSet.mem_keys_addAll, hfound.map_values, hgiven]
      tauto
    next he => simp only [he, false_and, or_false]
  sources := rfl
  isFrozen := rfl
  origins := rfl
  faithful := hf

theorem ends_fill (hp : p.Coherent) {wanted : Wanted} (hw : ∀ t, (membersAt wanted t).IsKeyed)
    (hwo : ∀ t, ∀ s ∈ (membersAt wanted t).keys, s.owner = t) {types : List TypeId} {run : Run}
    (hf : run.session.memory.Faithful p) (hopen : run.stubs.isFrozen = false)
    (hk : ∀ t, (membersAt run.stubs.entries t).IsKeyed) (ht : ∀ t ∈ types, t ∈ run.stubs.entries.keys) :
    Step.Ends (fill p sources wanted types) run fun outcome after =>
      (∃ added, outcome = .ok added) ∧ Filled p (given p sources wanted) types run after := by
  induction types generalizing run with
  | nil => exact ⟨⟨0, rfl⟩, rfl, hk, fun t s => ⟨.inl, fun h => h.elim id fun h => by cases h.1⟩, rfl, rfl, rfl, hf⟩
  | cons t rest ih =>
    unfold fill
    refine ends_scan_bind_of_finds (finds_stubContents hp t) hf ?_
    rintro content session ⟨hck, hcontent⟩ hf
    refine ends_scan_bind_of_finds (finds_foldSeeds hp _) hf ?_
    intro seeds session' hseeds hf'
    -- what is added belongs to the type, from either side
    have hkeys : ∀ s, s ∈ (content.addAll seeds).keys ↔ s ∈ given p sources wanted t := by
      intro s
      rw [MemberSet.mem_keys_addAll, hcontent, hseeds, List.mem_map]
      simp only [given, Set.mem_ofPred_eq, eq_comm]
      rfl
    have hkeyed := MemberSet.isKeyed_addAll hck seeds
    have howner : ∀ m ∈ (content.addAll seeds).values, m.owner = t := by
      intro m hm
      rcases (hkeys _).1 (hkeyed.mem_keys hm) with h | ⟨seed, hseed, h⟩
      · exact h.1
      · refine (congrArg Signature.owner h).trans ((hp.owner_folded seed).trans ?_)
        exact hwo t _ ((hw t).mem_keys hseed)
    have hadd := StubSet.run_addMembers_of_open hopen (ht t List.mem_cons_self) howner
    have hstep := filled_withMembers (ht t List.mem_cons_self) hk hkeyed hkeys hf'
    refine Step.Ends.bind_of_run (run_stub_of_ok hadd) ?_
    refine (@ih (withMembers t (content.addAll seeds) session' run) hf' hopen hstep.keyed ?_).bind ?_ ?_
    · intro other ho
      rw [hstep.keys]
      exact ht other (List.mem_cons_of_mem _ ho)
    · rintro e after ⟨⟨added, he⟩, -⟩
      cases he
    · rintro added after ⟨-, hrest⟩
      exact ⟨⟨_, rfl⟩, hstep.cons hrest⟩

/-! ## A whole pass -/

/-- What holds of a run between passes: its stubs are open, can all be stubs, and declare nothing that is not to be exposed. -/
structure Sound (p : Program) (sources : List TypeId) (run : Run) : Prop where
  faithful : run.session.memory.Faithful p
  sources_eq : run.stubs.sources = sources
  isFrozen : run.stubs.isFrozen = false
  nodup : run.stubs.entries.keys.Nodup
  stubbable : ∀ t ∈ keySet run, Stubbable p {t | t ∈ sources} t
  keyed : ∀ t, (membersAt run.stubs.entries t).IsKeyed
  exposed : ∀ t, ∀ s ∈ (membersAt run.stubs.entries t).keys, Exposed p {t | t ∈ sources} (keySet run) t s

theorem Sound.of_stubs {run mid : Run} (h : Sound p sources run) (hs : mid.stubs = run.stubs)
    (hm : mid.session.memory.Faithful p) : Sound p sources mid := by
  have hkeys : keySet mid = keySet run := congrArg (fun stubs : StubSet => {t | t ∈ stubs.entries.keys}) hs
  refine ⟨hm, ?_, ?_, ?_, ?_, ?_, ?_⟩
  · rw [hs, h.sources_eq]
  · rw [hs, h.isFrozen]
  · rw [hs]
    exact h.nodup
  · rw [hkeys]
    exact h.stubbable
  · rw [hs]
    exact h.keyed
  · rw [hkeys, hs]
    exact h.exposed

theorem KeysAdded.mem_keySet {run after : Run} {new : List TypeId} (h : KeysAdded run new after) (t : TypeId) :
    t ∈ keySet after ↔ t ∈ keySet run ∨ t ∈ new := by
  show t ∈ after.stubs.entries.keys ↔ _
  rw [h.keys, List.mem_append]
  rfl

/-- New keys declare nothing yet, so they may be any types that can have a stub. -/
theorem Sound.keysAdded {run after : Run} {new : List TypeId} (h : Sound p sources run)
    (ha : KeysAdded run new after) (hnodup : new.Nodup)
    (hnew : ∀ t ∈ new, Stubbable p {t | t ∈ sources} t ∧ t ∉ keySet run) : Sound p sources after where
  faithful := ha.memory ▸ h.faithful
  sources_eq := ha.sources.trans h.sources_eq
  isFrozen := ha.isFrozen.trans h.isFrozen
  nodup := by
    rw [ha.keys, List.nodup_append]
    refine ⟨h.nodup, hnodup, ?_⟩
    rintro t ht _ hn rfl
    exact (hnew t hn).2 ht
  stubbable := by
    intro t ht
    rcases (ha.mem_keySet t).1 ht with ht | ht
    · exact h.stubbable t ht
    · exact (hnew t ht).1
  keyed := by
    intro t
    rw [ha.members]
    exact h.keyed t
  exposed := by
    intro t s hs
    rw [ha.members] at hs
    exact (h.exposed t s hs).mono fun other ho => (ha.mem_keySet other).2 (.inl ho)

theorem Sound.filled {given : TypeId → Set Signature} {types : List TypeId} {run after : Run}
    (h : Sound p sources run) (hf : Filled p given types run after)
    (hgiven : ∀ t ∈ types, ∀ s ∈ given t, Exposed p {t | t ∈ sources} (keySet run) t s) : Sound p sources after := by
  have hkeys : keySet after = keySet run := by
    rw [keySet, hf.keys]
    rfl
  refine ⟨hf.faithful, hf.sources.trans h.sources_eq, hf.isFrozen.trans h.isFrozen, ?_, ?_, hf.keyed, ?_⟩
  · rw [hf.keys]
    exact h.nodup
  · rw [hkeys]
    exact h.stubbable
  · intro t s hs
    rw [hkeys]
    rcases (hf.members t s).1 hs with hs | ⟨ht, hs⟩
    · exact h.exposed t s hs
    · exact hgiven t ht s hs

/-- The types that a pass takes up, in their order. -/
def Wanted.types (wanted : Wanted) : List TypeId := sortOn TypeId.fullName wanted.keys

/-- What a pass comes to: its new keys are what is wanted and no key yet, and every type that is wanted has its members. Keys and origins are settled by what is wanted before any member is looked for. -/
structure Passed (p : Program) (sources : List TypeId) (index : Nat) (run : Run) (summary : PassSummary) (after : Run) :
    Prop where
  sound : Sound p sources after
  keys : after.stubs.entries.keys = run.stubs.entries.keys ++ summary.newTypes
  newTypes : ∀ t, t ∈ summary.newTypes ↔ t ∈ wanting p {t | t ∈ sources} (keySet run) ∧ t ∉ keySet run
  filled : ∀ t ∈ wanting p {t | t ∈ sources} (keySet run), ∀ s,
    Exposed p {t | t ∈ sources} (keySet run) t s → s ∈ (membersAt after.stubs.entries t).keys
  index_eq : summary.index = index
  snapshot : summary.snapshot = after.stubs.entries
  reportable : Reportable p {t | t ∈ sources} (keySet run)
  settled : ∃ wanted mid, (wantedTypes p sources run.stubs.keys sources {}).run.run run = (.ok wanted, mid) ∧
    summary.newTypes = missing run wanted.types ∧ after.origins = mid.origins

theorem Wanted.Collects.nodup_types {sites : Set CallSite} {wanted : Wanted}
    (hw : Wanted.Collects p sources sites wanted) : wanted.types.Nodup :=
  (sortOn_perm TypeId.fullName wanted.keys).nodup_iff.2 hw.nodup

theorem Wanted.Collects.owner_eq (hp : p.Coherent) {sites : Set CallSite} {wanted : Wanted}
    (hw : Wanted.Collects p sources sites wanted) {t : TypeId} {s : Signature} (h : s ∈ (membersAt wanted t).keys) :
    s.owner = t := by
  obtain ⟨-, c, -, -, m, hm, rfl⟩ := (hw.seeds t s).1 h
  exact hp.owner_override hm

/-- What a pass gives to the types that are wanted is what has to be exposed. -/
theorem Wanted.Collects.mem_given_iff (hp : p.Coherent) {known : Set TypeId} {wanted : Wanted}
    (hw : Wanted.Collects p sources (leaking p {t | t ∈ sources} known) wanted) {t : TypeId} (ht : t ∈ wanted.keys)
    {s : Signature} : s ∈ given p sources wanted t ↔ Exposed p {t | t ∈ sources} known t s := by
  refine or_congr Iff.rfl ?_
  constructor
  · rintro ⟨m, hm, rfl⟩
    obtain ⟨-, c, hc, hr, o, ho, he⟩ := (hw.seeds t _).1 ((hw.keyed t).mem_keys hm)
    exact ⟨c, hc, hr, o, ho, hp.folded_congr he.symm⟩
  · rintro ⟨c, hc, hr, o, ho, rfl⟩
    have hmem : o.toSignature ∈ (membersAt wanted t).keys :=
      (hw.seeds t _).2 ⟨((hw.keys t).1 ht).1, c, hc, hr, o, ho, rfl⟩
    rw [← (hw.keyed t).map_values] at hmem
    obtain ⟨m, hm, he⟩ := List.mem_map.1 hmem
    exact ⟨m, hm, hp.folded_congr he.symm⟩

theorem passed_of_halves (hp : p.Coherent) {run mid added after : Run} {wanted : Wanted}
    (hr : Sound p sources run) (hw : Wanted.Collects p sources (leaking p {t | t ∈ sources} (keySet run)) wanted)
    (hreport : Reportable p {t | t ∈ sources} (keySet run))
    (hwanted : (wantedTypes p sources run.stubs.keys sources {}).run.run run = (.ok wanted, mid))
    (hs : mid.stubs = run.stubs) (hm : mid.session.memory.Faithful p)
    (hadded : KeysAdded mid (missing run wanted.types) added)
    (hfilled : Filled p (given p sources wanted) wanted.types added after)
    (index newMembers : Nat) : Passed p sources index run
      { index, newTypes := missing run wanted.types, newMembers, snapshot := after.stubs.entries } after := by
  have hwanting : ∀ t, t ∈ wanted.types ↔ t ∈ wanting p {t | t ∈ sources} (keySet run) :=
    fun t => mem_sortOn.trans (hw.keys t)
  have hgiven : ∀ t ∈ wanted.types, ∀ s,
      (s ∈ given p sources wanted t ↔ Exposed p {t | t ∈ sources} (keySet run) t s) :=
    fun t ht s => hw.mem_given_iff hp (mem_sortOn.1 ht)
  have hmid : keySet mid = keySet run := congrArg (fun stubs : StubSet => {t | t ∈ stubs.entries.keys}) hs
  have hkeyed : Sound p sources added := by
    refine (hr.of_stubs hs hm).keysAdded hadded (hw.nodup_types.filter _) fun t ht => ?_
    obtain ⟨ht, hk⟩ := mem_missing.1 ht
    exact ⟨((hwanting t).1 ht).1, hmid ▸ hk⟩
  refine ⟨hkeyed.filled hfilled fun t ht s h => ((hgiven t ht s).1 h).mono ?_, ?_, ?_, ?_, rfl, rfl, hreport, ?_⟩
  · intro other ho
    exact (hadded.mem_keySet other).2 (.inl (hmid ▸ ho))
  · rw [hfilled.keys, hadded.keys, hs]
  · intro t
    rw [mem_missing, hwanting]
  · intro t ht s h
    have ht' := (hwanting t).2 ht
    exact (hfilled.members t s).2 (.inr ⟨ht', (hgiven t ht' s).2 h⟩)
  · exact ⟨wanted, mid, hwanted, rfl, hfilled.origins.trans hadded.origins⟩

theorem setOf_mem_keys (run : Run) : {t | t ∈ run.stubs.keys} = keySet run := by
  ext t
  exact mem_sortOn

theorem Sound.ends_wanted (hp : p.Coherent) {run : Run} (hr : Sound p sources run) :
    Step.Ends (wantedTypes p sources run.stubs.keys sources {}) run fun outcome after =>
      Answers (Wanted.Collects p sources) (leaking p {t | t ∈ sources} (keySet run)) outcome ∧
        after.session.memory.Faithful p ∧ after.stubs = run.stubs ∧
          ∀ wanted, outcome = .ok wanted → ∀ t ∈ wanted.keys, t ∈ after.origins.keys := by
  have hnone : Answers (Wanted.Collects p sources) ∅ (.ok {}) := ⟨Wanted.collects_empty p sources, by simp⟩
  have hends : Step.Ends (wantedTypes p sources run.stubs.keys sources {}) run _ :=
    ends_wantedTypes hp hnone hr.faithful (by simp)
  rwa [setOf_mem_keys, Set.empty_union] at hends

theorem of_run_runPass {index : Nat} {run after : Run} {summary : PassSummary}
    (h : (runPass p sources index).run.run run = (.ok summary, after)) : ∃ wanted mid added,
      (wantedTypes p sources run.stubs.keys sources {}).run.run run = (.ok wanted, mid) ∧
      (addKeys wanted.types).run.run mid = (.ok summary.newTypes, added) ∧
      (fill p sources wanted wanted.types).run.run added = (.ok summary.newMembers, after) ∧
      summary.index = index ∧ summary.snapshot = after.stubs.entries := by
  unfold runPass at h
  rw [Step.run_get_bind] at h
  obtain ⟨wanted, mid, hwanted, h⟩ := Step.exists_of_run_bind h
  obtain ⟨newTypes, added, hadd, h⟩ := Step.exists_of_run_bind h
  obtain ⟨newMembers, last, hfill, h⟩ := Step.exists_of_run_bind h
  cases h
  exact ⟨wanted, mid, added, hwanted, hadd, hfill, rfl, rfl⟩

/-- **One pass.** It fails exactly if a leaking call is mute; this comes out when it is gathered what is wanted, and leaves the stubs as they were. -/
theorem ends_runPass (hp : p.Coherent) {run : Run} (hr : Sound p sources run) (index : Nat) :
    Step.Ends (runPass p sources index) run fun outcome after =>
      match outcome with
      | .ok summary => Passed p sources index run summary after
      | .error e => (Muted p {t | t ∈ sources} (keySet run) e ∧ after.stubs = run.stubs) ∧
        (wantedTypes p sources run.stubs.keys sources {}).run.run run = (.error e, after) := by
  have hends := hr.ends_wanted hp
  unfold runPass
  rw [Step.ends_get_bind]
  rcases hwanted : (wantedTypes p sources run.stubs.keys sources {}).run.run run with ⟨e | wanted, mid⟩
  · obtain ⟨hmuted, -, hs, -⟩ := hends.of_run hwanted
    unfold Step.Ends
    rw [Step.run_bind_of_error hwanted]
    exact ⟨⟨hmuted, hs⟩, rfl⟩
  · obtain ⟨⟨hw, hmute⟩, hm, hs, ho⟩ := hends.of_run hwanted
    refine Step.Ends.bind_of_run hwanted ?_
    have hsources : ∀ t ∈ wanted.types, t ∉ mid.stubs.sources := by
      intro t ht
      rw [hs, hr.sources_eq]
      exact ((hw.keys t).1 (mem_sortOn.1 ht)).1.2.1
    refine (ends_addKeys hw.nodup_types (by rw [hs, hr.isFrozen]) hsources
      fun t ht => ho wanted rfl t (mem_sortOn.1 ht)).bind ?_ ?_
    · rintro e after ⟨⟨⟩, -⟩
    · rintro _ added ⟨hnew, hadded⟩
      obtain rfl := Except.ok.inj hnew
      rw [show missing mid wanted.types = missing run wanted.types by unfold missing; rw [hs]] at hadded ⊢
      have hmembers : ∀ t, membersAt added.stubs.entries t = membersAt run.stubs.entries t := by
        intro t
        rw [hadded.members, hs]
      have hin : ∀ t ∈ wanted.types, t ∈ added.stubs.entries.keys := by
        intro t ht
        rw [hadded.keys, hs, List.mem_append, mem_missing]
        by_cases hk : t ∈ keySet run
        · exact .inl hk
        · exact .inr ⟨ht, hk⟩
      refine (ends_fill hp hw.keyed (fun t s h => hw.owner_eq hp h) (hadded.memory ▸ hm)
        (by rw [hadded.isFrozen, hs, hr.isFrozen]) (fun t => by rw [hmembers]; exact hr.keyed t) hin).bind ?_ ?_
      · rintro e after ⟨⟨added, he⟩, -⟩
        cases he
      · rintro count after ⟨-, hfilled⟩
        exact passed_of_halves hp hr hw hmute hwanted hs hm hadded hfilled index count

theorem Sound.passed (hp : p.Coherent) {index : Nat} {run after : Run} {summary : PassSummary}
    (hr : Sound p sources run) (h : (runPass p sources index).run.run run = (.ok summary, after)) :
    Passed p sources index run summary after :=
  (ends_runPass hp hr index).of_run h

theorem Sound.failed (hp : p.Coherent) {index : Nat} {run after : Run} {e : ClosureError}
    (hr : Sound p sources run) (h : (runPass p sources index).run.run run = (.error e, after)) :
    Muted p {t | t ∈ sources} (keySet run) e ∧ after.stubs = run.stubs :=
  ((ends_runPass hp hr index).of_run h).1

theorem Sound.failed_asking (hp : p.Coherent) {index : Nat} {run after : Run} {e : ClosureError}
    (hr : Sound p sources run) (h : (runPass p sources index).run.run run = (.error e, after)) :
    (wantedTypes p sources run.stubs.keys sources {}).run.run run = (.error e, after) :=
  ((ends_runPass hp hr index).of_run h).2

end StubClosure.Closure
