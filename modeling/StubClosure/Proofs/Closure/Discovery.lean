import StubClosure.Closure.Discovery
import StubClosure.Proofs.Session.Faithful
import StubClosure.Proofs.StubSet
import StubClosure.Proofs.Closure.Leak

/-!
# What a discovery gathers

A discovery is made call by call. `Gathers` says what it holds once some call sites have been taken in: the types that they ask for, and for each receiver the overrides that they were refined to. Looking through the bodies of a source type takes in the calls that leak, all of them and no others (`finds_relatedCalls`); it fails exactly on a call that can be neither refined nor reported.
-/

namespace StubClosure

/-! ## What a discovery holds -/

theorem Program.Coherent.owner_override {p : Program} (hp : p.Coherent) {t : TypeId} {m o : Member}
    (h : p.override? t m = some o) : o.owner = t := by
  obtain ⟨d, hd, ho⟩ := Option.bind_eq_some_iff.1 h
  exact (hp.type t d hd).owner_method o (List.mem_of_find?_eq_some ho)

namespace CallSite

/-- What the call turns out to be, if it is not what it says. -/
def refinement? (p : Program) (c : CallSite) : Option Refinement :=
  c.refined?.map fun t => ⟨t, p.override? t c.callee⟩

theorem resolveHere_cases {p : Program} {c : CallSite} (placed : c.body.instructions[c.index]? = some c.call)
    (names : c.call.member? = some c.callee) (hv : c.call.category = .virtualCall) :
    (∃ e, c.Fails e ∧ Receiver.resolveHere p c.body c.index = .error e) ∨
      (¬ c.IsMute ∧ ∃ reports, Receiver.resolveHere p c.body c.index = .ok (c.refinement? p, reports) ∧
        Receiver.Reported c.body c.index c.call c.callee reports) := by
  rw [Receiver.resolveHere_eq placed hv names]
  rcases Receiver.refine_pushedBelow p c.body c.index names with ⟨e, hfails, he⟩ | ⟨hclear, reports, ho, hreported⟩
  · exact .inl ⟨e, ⟨hv, hfails⟩, he⟩
  · refine .inr ⟨fun ⟨e, h⟩ => hclear e h.2, reports, ?_, hreported⟩
    rw [ho, refinement?, refined?, if_pos hv]

/-- The reference of a body stands for the call site. -/
structure Shows (c : CallSite) (b : Body) (r : Reference) : Prop where
  body : c.body = b
  index : c.index = r.index
  callee : c.callee = r.declared
  category : c.call.category = r.category
  placed : c.body.instructions[c.index]? = some c.call
  names : c.call.member? = some c.callee

theorem Shows.unique {c c' : CallSite} {b : Body} {r : Reference} (h : c.Shows b r) (h' : c'.Shows b r) : c = c' := by
  have hcall : c.call = c'.call := by
    have := h.placed
    rw [h.body, h.index, ← h'.body, ← h'.index, h'.placed] at this
    exact (Option.some.inj this).symm
  cases c
  cases c'
  simp only [CallSite.mk.injEq]
  exact ⟨h.body.trans h'.body.symm, h.index.trans h'.index.symm, hcall, h.callee.trans h'.callee.symm⟩

end CallSite

namespace Discovery

/-- What is held once some call sites have been taken in. -/
structure Gathers (p : Program) (sites : Set CallSite) (d : Discovery) : Prop where
  methods_keyed : d.methods.IsKeyed
  seeds_keyed : ∀ t, (membersAt d.seeds t).IsKeyed
  wanted : ∀ t, t ∈ d.wanted ↔ ∃ c ∈ sites, c.AsksFor t
  seeds : ∀ t s, s ∈ (membersAt d.seeds t).keys ↔
    ∃ c ∈ sites, c.refined? = some t ∧ ∃ m, p.override? t c.callee = some m ∧ m.toSignature = s

theorem mem_wanted {d : Discovery} (h : d.methods.IsKeyed) {t : TypeId} :
    t ∈ d.wanted ↔ (∃ s ∈ d.methods.keys, s.owner = t) ∨ t ∈ d.types.keys ∨ t ∈ d.seeds.keys := by
  have howners : d.methods.values.map (·.owner) = d.methods.keys.map Signature.owner := by
    rw [← h.map_values, List.map_map]
    rfl
  unfold wanted
  rw [Table.mem_keys_firstBy, howners]
  simp only [id_eq, exists_eq_right, List.mem_append, List.mem_map, or_assoc]

theorem gathers_empty (p : Program) : Gathers p ∅ {} where
  methods_keyed := MemberSet.isKeyed_empty
  seeds_keyed := fun _ => MemberSet.isKeyed_empty
  wanted := by
    intro t
    rw [mem_wanted MemberSet.isKeyed_empty]
    simp
  seeds := by simp [membersAt]

variable {p : Program} {d : Discovery}

theorem membersAt_seeds_addRefinement (r : Refinement) (t : TypeId) :
    membersAt (d.addRefinement r).seeds t =
      if t = r.receiver then (membersAt d.seeds t).addAll r.method.toList else membersAt d.seeds t := by
  obtain ⟨receiver, _ | m⟩ := r
  · simp [addRefinement, MemberSet.addAll]
  · show membersAt (d.seeds.insert receiver ((membersAt d.seeds receiver).add m)) t = _
    rw [membersAt_insert]
    split
    next h => rw [h]; rfl
    · rfl

theorem mem_wanted_addRefinement (hk : d.methods.IsKeyed) {r : Refinement} (ho : ∀ m ∈ r.method, m.owner = r.receiver)
    {t : TypeId} : t ∈ (d.addRefinement r).wanted ↔ t ∈ d.wanted ∨ t = r.receiver := by
  obtain ⟨receiver, _ | m⟩ := r
  · rw [mem_wanted hk, mem_wanted (d := d.addRefinement ⟨receiver, none⟩) hk]
    simp only [addRefinement, Table.mem_keys_insertNew]
    grind
  · have hm : m.owner = receiver := ho m rfl
    rw [mem_wanted hk, mem_wanted (d := d.addRefinement ⟨receiver, some m⟩) (MemberSet.isKeyed_add hk m)]
    simp only [addRefinement, MemberSet.mem_keys_add, Table.mem_keys_insert]
    grind

theorem keyed_addRefinement (hk : d.methods.IsKeyed) (r : Refinement) : (d.addRefinement r).methods.IsKeyed := by
  obtain ⟨receiver, _ | m⟩ := r
  · exact hk
  · exact MemberSet.isKeyed_add hk m

theorem mem_wanted_addMethod (hk : d.methods.IsKeyed) {m : Member} {t : TypeId} :
    t ∈ (d.addMethod m).wanted ↔ t ∈ d.wanted ∨ t = m.owner := by
  rw [mem_wanted hk, mem_wanted (d := d.addMethod m) (MemberSet.isKeyed_add hk m)]
  simp only [addMethod, MemberSet.mem_keys_add]
  grind

theorem Gathers.insert (hp : p.Coherent) {sites : Set CallSite} (h : d.Gathers p sites) (c : CallSite) :
    (((c.refinement? p).elim d d.addRefinement).addMethod c.callee).Gathers p (insert c sites) := by
  cases hr : c.refined? with
  | none =>
    simp only [CallSite.refinement?, hr, Option.map_none, Option.elim_none]
    refine ⟨MemberSet.isKeyed_add h.methods_keyed _, h.seeds_keyed, fun t => ?_, fun t s => ?_⟩
    · rw [mem_wanted_addMethod h.methods_keyed, h.wanted]
      simp only [Set.mem_insert_iff, CallSite.AsksFor]
      grind
    · rw [show membersAt (d.addMethod c.callee).seeds t = membersAt d.seeds t from rfl, h.seeds]
      simp only [Set.mem_insert_iff]
      grind
  | some receiver =>
    simp only [CallSite.refinement?, hr, Option.map_some, Option.elim_some]
    have ho : ∀ m ∈ p.override? receiver c.callee, m.owner = receiver := fun m hm => hp.owner_override hm
    have hk := keyed_addRefinement h.methods_keyed ⟨receiver, p.override? receiver c.callee⟩
    refine ⟨MemberSet.isKeyed_add hk _, fun t => ?_, fun t => ?_, fun t s => ?_⟩
    · show (membersAt (d.addRefinement _).seeds t).IsKeyed
      rw [membersAt_seeds_addRefinement]
      split
      · exact MemberSet.isKeyed_addAll (h.seeds_keyed t) _
      · exact h.seeds_keyed t
    · rw [mem_wanted_addMethod hk, mem_wanted_addRefinement h.methods_keyed ho, h.wanted]
      simp only [Set.mem_insert_iff, CallSite.AsksFor]
      grind
    · show s ∈ (membersAt (d.addRefinement _).seeds t).keys ↔ _
      rw [membersAt_seeds_addRefinement]
      have hseeds := h.seeds t s
      split
      next he =>
        subst he
        rw [MemberSet.mem_keys_addAll, hseeds]
        simp only [Set.mem_insert_iff, List.mem_map, Option.mem_toList]
        grind
      next he =>
        rw [hseeds]
        simp only [Set.mem_insert_iff]
        grind

end Discovery

/-! ## Looking through bodies -/

namespace Closing

variable {α β : Type} {p : Program}

/-- What comes of looking at call sites: something that is `good` for them, unless one of them is mute. -/
def Answers (good : Set CallSite → α → Prop) (sites : Set CallSite) : Except ClosureError α → Prop
  | .ok a => good sites a ∧ ∀ c ∈ sites, ¬ c.IsMute
  | .error e => ∃ c ∈ sites, ∃ cause, c.Fails cause ∧ e = .receiver cause

theorem Answers.mono_error {good : Set CallSite → α → Prop} {good' : Set CallSite → β → Prop}
    {sites more : Set CallSite} {e : ClosureError} (h : Answers good sites (.error e)) (hs : sites ⊆ more) :
    Answers good' more (.error e) := by
  obtain ⟨c, hc, hcause⟩ := h
  exact ⟨c, hs hc, hcause⟩

/-- On a faithful memory the work comes to an outcome of which `good` holds, the memory is faithful after it, and nothing but the session has changed. -/
def Finds (p : Program) (work : Closing α) (good : Except ClosureError α → Prop) : Prop :=
  ∀ run : Run, run.session.memory.Faithful p → Step.Ends work run fun outcome after =>
    good outcome ∧ after.session.memory.Faithful p ∧ after.stubs = run.stubs ∧ after.origins = run.origins

theorem finds_pure {good : Except ClosureError α → Prop} {a : α} (h : good (.ok a)) : Finds p (pure a) good :=
  fun _ hf => ⟨h, hf, rfl, rfl⟩

theorem Finds.bind {work : Closing α} {next : α → Closing β} {found : Except ClosureError α → Prop}
    {good : Except ClosureError β → Prop} (hw : Finds p work found) (he : ∀ e, found (.error e) → good (.error e))
    (hn : ∀ a, found (.ok a) → Finds p (next a) good) : Finds p (work >>= next) good := by
  intro run hf
  refine (hw run hf).bind ?_ ?_
  · rintro e after ⟨hfound, hrest⟩
    exact ⟨he e hfound, hrest⟩
  · rintro a after ⟨hfound, hm, hs, ho⟩
    refine (hn a hfound after hm).mono ?_
    rintro outcome last ⟨hgood, hm', hs', ho'⟩
    exact ⟨hgood, hm', hs'.trans hs, ho'.trans ho⟩

theorem ends_scan_bind {work : Scan α} {next : α → Closing β} {run : Run}
    {post : Except ClosureError β → Run → Prop} :
    Step.Ends (scan work >>= next) run post ↔
      Step.Ends (next (work.run run.session).1) { run with session := (work.run run.session).2 } post := Iff.rfl

theorem ends_scan_bind_of_finds {work : Scan α} {next : α → Closing β} {found : α → Prop} {run : Run}
    {post : Except ClosureError β → Run → Prop} (hw : Scan.Finds p work found) (hf : run.session.memory.Faithful p)
    (hn : ∀ a session, found a → session.memory.Faithful p → Step.Ends (next a) { run with session } post) :
    Step.Ends (scan work >>= next) run post :=
  ends_scan_bind.2 (hn _ _ (hw run.session hf).1 (hw run.session hf).2)

/-- Work in the session never fails, so only what it finds matters to what comes next. -/
theorem Finds.scan_bind {work : Scan α} {next : α → Closing β} {found : α → Prop}
    {good : Except ClosureError β → Prop} (hw : Scan.Finds p work found)
    (hn : ∀ a, found a → Finds p (next a) good) : Finds p (scan work >>= next) good := by
  intro run hf
  exact ends_scan_bind_of_finds hw hf fun a session ha hm => hn a ha { run with session } hm

theorem run_receiver (work : ExceptT ReceiverError Scan α) (run : Run) :
    (receiver work).run.run run =
      ((work.run.run run.session).1.mapError .receiver, { run with session := (work.run.run run.session).2 }) := rfl

theorem finds_resolve {c : CallSite} (hb : p.Has c.body) (placed : c.body.instructions[c.index]? = some c.call)
    (names : c.call.member? = some c.callee) (hv : c.call.category = .virtualCall) :
    Finds p (receiver (Receiver.resolve p c.body c.index)) (Answers (fun _ found => found = c.refinement? p) {c}) := by
  intro run hf
  have hcases := CallSite.resolveHere_cases (p := p) placed names hv
  unfold Step.Ends
  rw [run_receiver, Receiver.run_resolve]
  cases hk : run.session.memory.refined.find? (c.body.method.toSignature, (c.index : Int)) with
  | some known =>
    obtain ⟨reports, hr⟩ := hf.refined c.body c.index known hb hk
    rcases hcases with ⟨e, -, he⟩ | ⟨hm, reports', ho, -⟩
    · rw [hr] at he
      cases he
    · obtain ⟨rfl, -⟩ := Prod.mk.inj (Except.ok.inj (hr.symm.trans ho))
      exact ⟨⟨rfl, by simpa using hm⟩, hf, rfl, rfl⟩
  | none =>
    rcases hcases with ⟨e, hfails, he⟩ | ⟨hm, reports, ho, -⟩
    · rw [he]
      exact ⟨⟨c, rfl, e, hfails, rfl⟩, hf, rfl, rfl⟩
    · rw [ho]
      refine ⟨⟨rfl, by simpa using hm⟩, ⟨hf.folded, hf.scanned, ?_⟩, rfl, rfl⟩
      intro b index known hb' h
      simp only [Table.find?_insert] at h
      split at h
      next he =>
        obtain ⟨hs, rfl⟩ := Prod.mk.inj he
        obtain rfl := Option.some.inj h
        rw [hb'.eq hb hs]
        exact ⟨reports, ho⟩
      · exact hf.refined b index known hb' h

end Closing

namespace Closure

open Closing

variable {p : Program} {source : TypeId} {known : List TypeId}

theorem discover_eq (p : Program) (b : Body) (r : Reference) (d : Discovery) : discover p b r d =
    (if r.category = .virtualCall then Closing.receiver (Receiver.resolve p b r.index) else pure none) >>=
      fun refinement => pure ((refinement.elim d d.addRefinement).addMethod r.declared) := by
  unfold discover
  split <;> rfl

theorem finds_discover (hp : p.Coherent) {sites : Set CallSite} {d : Discovery}
    (hd : Answers (Discovery.Gathers p) sites (.ok d)) {b : Body} (hb : p.Has b) {r : Reference} {c : CallSite}
    (hc : c.Shows b r) :
    Finds p (discover p b r d) (Answers (Discovery.Gathers p) (insert c sites)) := by
  obtain ⟨hg, hm⟩ := hd
  have hrefine : Finds p
      (if r.category = .virtualCall then Closing.receiver (Receiver.resolve p b r.index) else pure none)
      (Answers (fun _ found => found = c.refinement? p) {c}) := by
    rw [← hc.category, ← hc.index]
    obtain rfl := hc.body
    split
    next hv => exact finds_resolve hb hc.placed hc.names hv
    next hv =>
      refine finds_pure ⟨?_, fun _ hc' ⟨e, h⟩ => hv (hc' ▸ h).1⟩
      rw [CallSite.refinement?, CallSite.refined?, if_neg hv]
      rfl
  rw [discover_eq]
  refine hrefine.bind ?_ ?_
  · exact fun e he => Answers.mono_error he (Set.singleton_subset_iff.2 (Set.mem_insert c sites))
  · rintro refinement ⟨rfl, hmute⟩
    refine finds_pure ⟨?_, ?_⟩
    · rw [← hc.callee]
      exact hg.insert hp c
    · rintro other (rfl | ho)
      · exact hmute _ rfl
      · exact hm other ho

/-- Folding over references takes in the call sites that they stand for. -/
theorem finds_foldlM_discover (hp : p.Coherent) {b : Body} (hb : p.Has b) {refs : List Reference}
    (hrefs : ∀ r ∈ refs, ∃ c : CallSite, c.Shows b r) {sites : Set CallSite} {d : Discovery}
    (hd : Answers (Discovery.Gathers p) sites (.ok d)) : Finds p (refs.foldlM (fun d r => discover p b r d) d)
      (Answers (Discovery.Gathers p) (sites ∪ {c | ∃ r ∈ refs, c.Shows b r})) := by
  induction refs generalizing sites d with
  | nil => exact finds_pure (by simpa using hd)
  | cons r rest ih =>
    obtain ⟨c, hc⟩ := hrefs r List.mem_cons_self
    have hsites : sites ∪ {c | ∃ other ∈ r :: rest, c.Shows b other} =
        insert c sites ∪ {c | ∃ other ∈ rest, c.Shows b other} := by
      ext other
      simp only [Set.mem_union, Set.mem_insert_iff, Set.mem_ofPred_eq, List.mem_cons, exists_eq_or_imp]
      have huniq : other.Shows b r ↔ other = c := ⟨fun h => h.unique hc, fun h => h ▸ hc⟩
      rw [huniq]
      tauto
    rw [List.foldlM_cons, hsites]
    refine (finds_discover hp hd hb hc).bind (fun e he => Answers.mono_error he Set.subset_union_left)
      fun d' hd' => ?_
    exact ih (fun other ho => hrefs other (List.mem_cons_of_mem _ ho)) hd'

/-! ## The calls that leak -/

theorem isRelated_iff (r : Reference) : isRelated p source known r = true ↔
    r.category.isCall = true ∧ r.declared.owner ≠ source ∧ ¬ r.declared.owner.isNestedIn source = true ∧
      ∃ t ∈ r.declared.params, p.defines t = true ∧ (t = source ∨ t ∈ known) := by
  simp [isRelated, leaks, and_assoc]

theorem exists_shows {b : Body} {refs : List Reference} (hrefs : refs.map Reference.mention = Mention.ofBody p b)
    {r : Reference} (hr : r ∈ refs) : ∃ c : CallSite, c.Shows b r := by
  have hmem : r.mention ∈ Mention.ofBody p b := by
    rw [← hrefs]
    exact List.mem_map_of_mem hr
  obtain ⟨ins, hi, ho⟩ := Mention.mem_ofBody.1 hmem
  obtain ⟨hcat, hdecl⟩ := Mention.of_ofInstruction? ho
  exact ⟨⟨b, r.index, ins, r.declared⟩, rfl, rfl, rfl, hcat.symm, hi, hdecl⟩

/-- The references of a body that are related stand for its calls that leak. -/
theorem exists_related_iff {b : Body} (hb : b ∈ p.bodiesOf source) {refs : List Reference}
    (hrefs : refs.map Reference.mention = Mention.ofBody p b) {c : CallSite} :
    (∃ r ∈ refs.filter (isRelated p source known), c.Shows b r) ↔
      c.body = b ∧ c.Leaks p source {t | t ∈ known} := by
  constructor
  · rintro ⟨r, hr, hc⟩
    obtain ⟨hcall, howner, hnested, hands⟩ := (isRelated_iff r).1 (List.mem_filter.1 hr).2
    rw [← hc.callee] at howner hnested hands
    exact ⟨hc.body, hc.body.symm ▸ hb, hc.placed, by rw [Instruction.isCall, hc.category]; exact hcall,
      hc.names, howner, hnested, hands⟩
  · rintro ⟨rfl, hc⟩
    have hmem : Mention.mk c.call.category (p.folded c.callee) c.callee c.index ∈ Mention.ofBody p c.body :=
      Mention.mem_ofBody.2 ⟨c.call, hc.placed, Mention.ofInstruction?_of_isCall hc.isCall hc.names⟩
    rw [← hrefs] at hmem
    obtain ⟨r, hr, he⟩ := List.mem_map.1 hmem
    obtain ⟨hcat, -, hdecl, hindex⟩ := Mention.mk.inj he
    have hrel : isRelated p source known r = true := by
      rw [isRelated_iff, hcat, hdecl]
      exact ⟨hc.isCall, hc.owner_ne, hc.not_nested, hc.hands⟩
    exact ⟨r, List.mem_filter.2 ⟨hr, hrel⟩, rfl, hindex.symm, hdecl.symm, hcat.symm, hc.placed, hc.names⟩

theorem finds_relatedInBodies (hp : p.Coherent) {bodies : List Body} (hb : ∀ b ∈ bodies, b ∈ p.bodiesOf source)
    {sites : Set CallSite} {d : Discovery} (hd : Answers (Discovery.Gathers p) sites (.ok d)) :
    Finds p (relatedInBodies p source known bodies d) (Answers (Discovery.Gathers p)
      (sites ∪ {c | c.body ∈ bodies ∧ c.Leaks p source {t | t ∈ known}})) := by
  induction bodies generalizing sites d with
  | nil => exact finds_pure (by simpa using hd)
  | cons b rest ih =>
    have hmem := hb b List.mem_cons_self
    have hhas := hp.has_of_mem_bodiesOf hmem
    have hsites : sites ∪ {c | c.body ∈ b :: rest ∧ c.Leaks p source {t | t ∈ known}} =
        (sites ∪ {c | c.body = b ∧ c.Leaks p source {t | t ∈ known}}) ∪
          {c | c.body ∈ rest ∧ c.Leaks p source {t | t ∈ known}} := by
      ext c
      simp only [Set.mem_union, Set.mem_ofPred_eq, List.mem_cons]
      tauto
    rw [hsites]
    refine Finds.scan_bind (Reference.finds_ofBody hp hhas) fun refs hrefs => ?_
    have hshows : ∀ r ∈ refs.filter (isRelated p source known), ∃ c : CallSite, c.Shows b r :=
      fun r hr => exists_shows hrefs (List.mem_filter.1 hr).1
    have hin := finds_foldlM_discover hp hhas hshows hd
    simp only [exists_related_iff hmem hrefs] at hin
    refine hin.bind (fun e he => Answers.mono_error he Set.subset_union_left) fun d' hd' => ?_
    exact ih (fun other ho => hb other (List.mem_cons_of_mem _ ho)) hd'

/-- **The discovery of a source type** takes in the calls that leak, and fails exactly if one of them is mute. -/
theorem finds_relatedCalls (hp : p.Coherent) (source : TypeId) (known : List TypeId) :
    Finds p (relatedCalls p source known)
      (Answers (Discovery.Gathers p) {c | c.Leaks p source {t | t ∈ known}}) := by
  have hsites : {c : CallSite | c.Leaks p source {t | t ∈ known}} =
      ∅ ∪ {c | c.body ∈ p.bodiesOf source ∧ c.Leaks p source {t | t ∈ known}} := by
    ext c
    simp only [Set.mem_union, Set.mem_ofPred_eq, Set.mem_empty_iff_false, false_or]
    exact ⟨fun h => ⟨h.own, h⟩, fun h => h.2⟩
  rw [hsites]
  exact finds_relatedInBodies hp (fun b hb => hb) ⟨Discovery.gathers_empty p, by simp⟩

end Closure

end StubClosure
