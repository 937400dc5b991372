import StubClosure.Proofs.Closure.Noninterference

/-!
# Occasions for reports

A run goes over the same bodies in every pass, and over some of them once more for each stub. An `Occasion` is what it may have reports to make on: a member that is folded for a site, a virtual call whose receiver is looked for, a type that becomes a key. `Session.Logs` says that a session went on to another by a list of occasions, of which it remembers the folds and the calls and did not know them before. So however often and in whatever order bodies are gone over, no fold and no call gives occasion for a report twice. `Scan.Reports` and `Closing.Reports` say which occasions some work may come upon, and which calls it cannot have passed by.
-/

namespace StubClosure

/-- What a call site is remembered by. -/
def CallSite.place (c : CallSite) : Signature × Int := (c.body.method.toSignature, (c.index : Int))

/-- Something that a run may have reports to make on. -/
inductive Occasion where
  | fold (m : Member) (site : Option Signature)
  | call (c : CallSite)
  | key (t origin : TypeId)

namespace Occasion

/-- What there is to report on the occasion. -/
def reports (p : Program) : Occasion → List Diagnostic
  | fold m site => (Reference.foldAccessor p m site).2
  | call c =>
    match Receiver.resolveHere p c.body c.index with
    | .ok (_, reports) => reports
    | .error _ => []
  | key t origin => [Closure.stubbed t origin]

def fold? : Occasion → Option (Member × Option Signature)
  | fold m site => some (m, site)
  | call _ | key _ _ => none

def call? : Occasion → Option CallSite
  | call c => some c
  | fold _ _ | key _ _ => none

def keyed? : Occasion → Option (TypeId × TypeId)
  | key t origin => some (t, origin)
  | fold _ _ | call _ => none

theorem fold?_eq_some_iff {o : Occasion} {e : Member × Option Signature} : o.fold? = some e ↔ o = .fold e.1 e.2 := by
  cases o <;> simp [fold?, Prod.ext_iff]

theorem call?_eq_some_iff {o : Occasion} {c : CallSite} : o.call? = some c ↔ o = .call c := by
  cases o <;> simp [call?]

/-- What the fold is remembered by. -/
def folded? (o : Occasion) : Option (Signature × Option Signature) := o.fold?.map fun e => (e.1.toSignature, e.2)

/-- What the call is remembered by. -/
def looked? (o : Occasion) : Option (Signature × Int) := o.call?.map CallSite.place

end Occasion

/-- The session went on to another by some occasions: on each of them it made its reports, and the folds and calls among them are what it now remembers beyond what it did. -/
structure Session.Logs (p : Program) (before : Session) (occasions : List Occasion) (after : Session) : Prop where
  diagnostics : after.sink.diagnostics = before.sink.diagnostics ++ occasions.flatMap (Occasion.reports p)
  folded : after.memory.folded.keys = before.memory.folded.keys ++ occasions.filterMap Occasion.folded?
  refined : after.memory.refined.keys = before.memory.refined.keys ++ occasions.filterMap Occasion.looked?
  nodup_folded : before.memory.folded.keys.Nodup → after.memory.folded.keys.Nodup
  nodup_refined : before.memory.refined.keys.Nodup → after.memory.refined.keys.Nodup

theorem Session.logs_of_resembles {p : Program} {before after : Session} (h : before.Resembles after) :
    before.Logs p [] after := by
  refine ⟨?_, ?_, ?_, ?_, ?_⟩
  · simp [h.diagnostics]
  all_goals simp [h.memory]

theorem Session.logs_refl (p : Program) (session : Session) : session.Logs p [] session :=
  logs_of_resembles session.resembles_refl

theorem Session.Logs.trans {p : Program} {before middle after : Session} {occasions more : List Occasion}
    (h : before.Logs p occasions middle) (h' : middle.Logs p more after) : before.Logs p (occasions ++ more) after where
  diagnostics := by rw [h'.diagnostics, h.diagnostics, List.flatMap_append, List.append_assoc]
  folded := by rw [h'.folded, h.folded, List.filterMap_append, List.append_assoc]
  refined := by rw [h'.refined, h.refined, List.filterMap_append, List.append_assoc]
  nodup_folded := fun hd => h'.nodup_folded (h.nodup_folded hd)
  nodup_refined := fun hd => h'.nodup_refined (h.nodup_refined hd)

theorem Session.Logs.mem_refined {p : Program} {before after : Session} {occasions : List Occasion}
    (h : before.Logs p occasions after) {place : Signature × Int} (hp : place ∈ before.memory.refined.keys) :
    place ∈ after.memory.refined.keys := by
  rw [h.refined]
  exact List.mem_append_left _ hp

/-! ## Reading bodies -/

namespace Scan

variable {α β : Type} {p : Program} {good : Occasion → Prop}

/-- The work comes upon good occasions only. -/
def Reports (p : Program) (good : Occasion → Prop) (work : Scan α) : Prop :=
  ∀ s : Session, ∃ occasions, s.Logs p occasions (work.run s).2 ∧ ∀ o ∈ occasions, good o

theorem reports_pure (a : α) : Reports p good (pure a) :=
  fun s => ⟨[], s.logs_refl p, by simp⟩

theorem Reports.mono {work : Scan α} {better : Occasion → Prop} (h : Reports p better work)
    (hg : ∀ o, better o → good o) : Reports p good work := by
  intro s
  obtain ⟨occasions, hlogs, hbetter⟩ := h s
  exact ⟨occasions, hlogs, fun o ho => hg o (hbetter o ho)⟩

theorem Reports.bind {work : Scan α} {next : α → Scan β} (hw : Reports p good work)
    (hn : ∀ a, Reports p good (next a)) : Reports p good (work >>= next) := by
  intro s
  obtain ⟨occasions, hlogs, hgood⟩ := hw s
  obtain ⟨more, hmore, hgood'⟩ := hn (work.run s).1 (work.run s).2
  refine ⟨occasions ++ more, hlogs.trans hmore, fun o ho => ?_⟩
  rcases List.mem_append.1 ho with ho | ho
  · exact hgood o ho
  · exact hgood' o ho

end Scan

namespace Reference

open Scan

variable {p : Program}

theorem reports_normalize (m : Member) (site : Option Signature) :
    Reports p (· = .fold m site) (normalize p m site) := by
  intro s
  rw [run_normalize]
  cases hf : s.memory.folded.find? (m.toSignature, site) with
  | some known => exact ⟨[], s.logs_refl p, by simp⟩
  | none =>
    have hnew := Table.find?_eq_none_iff.1 hf
    refine ⟨[.fold m site], ⟨?_, ?_, ?_, ?_, ?_⟩, by simp⟩
    · simp [Occasion.reports]
    · exact (Table.keys_insert _ _ _).trans (if_neg hnew)
    · simp [Occasion.looked?, Occasion.call?]
    · exact fun hd => Table.nodup_keys_insert hd _ _
    · exact id

/-- The occasion is a member called in the body, folded for its method. -/
def Calls (b : Body) (o : Occasion) : Prop :=
  ∃ ins ∈ b.instructions, ∃ m, ins.isCall = true ∧ ins.member? = some m ∧ o = .fold m (some b.method.toSignature)

theorem reports_ofInstruction? (site : Signature) (index : Nat) (ins : Instruction) :
    Reports p (fun o => ∃ m, ins.isCall = true ∧ ins.member? = some m ∧ o = .fold m (some site))
      (ofInstruction? p site index ins) := by
  unfold ofInstruction?
  cases ins.member? with
  | none => exact reports_pure none
  | some m =>
    dsimp only
    split
    next hc =>
      refine ((reports_normalize m (some site)).mono ?_).bind fun target => reports_pure _
      rintro o rfl
      exact ⟨m, hc, rfl, rfl⟩
    · split
      · exact reports_pure _
      · exact reports_pure _

theorem reports_ofInstructions (site : Signature) (index : Nat) (instructions : List Instruction) :
    Reports p (fun o => ∃ ins ∈ instructions, ∃ m, ins.isCall = true ∧ ins.member? = some m ∧ o = .fold m (some site))
      (ofInstructions p site index instructions) := by
  induction instructions generalizing index with
  | nil => exact reports_pure []
  | cons ins rest ih =>
    have hfirst := reports_ofInstruction? (p := p) site index ins
    refine (hfirst.mono ?_).bind fun found => ((ih (index + 1)).mono ?_).bind fun others => reports_pure _
    · exact fun o ho => ⟨ins, List.mem_cons_self, ho⟩
    · rintro o ⟨other, hother, ho⟩
      exact ⟨other, List.mem_cons_of_mem _ hother, ho⟩

theorem reports_ofBody (b : Body) : Reports p (Calls b) (ofBody p b) := by
  intro s
  rw [run_ofBody]
  cases s.memory.scanned.find? b.method.toSignature with
  | some known => exact ⟨[], s.logs_refl p, by simp⟩
  | none =>
    obtain ⟨occasions, h, hgood⟩ := reports_ofInstructions (p := p) b.method.toSignature 0 b.instructions s
    exact ⟨occasions, ⟨h.diagnostics, h.folded, h.refined, h.nodup_folded, h.nodup_refined⟩, hgood⟩

theorem reports_ofBodies (bodies : List Body) : Reports p (fun o => ∃ b ∈ bodies, Calls b o) (ofBodies p bodies) := by
  induction bodies with
  | nil => exact reports_pure []
  | cons b rest ih =>
    refine ((reports_ofBody b).mono ?_).bind fun found => (ih.mono ?_).bind fun others => reports_pure _
    · exact fun o ho => ⟨b, List.mem_cons_self, ho⟩
    · rintro o ⟨other, hother, ho⟩
      exact ⟨other, List.mem_cons_of_mem _ hother, ho⟩

end Reference

namespace Closure

open Scan

variable {p : Program}

theorem reports_contentsFrom (stub : TypeId) (scanned : List TypeId) (content : MemberSet) :
    Reports p (fun o => ∃ t ∈ scanned, ∃ b ∈ p.bodiesOf t, Reference.Calls b o)
      (contentsFrom p stub scanned content) := by
  induction scanned generalizing content with
  | nil => exact reports_pure content
  | cons t rest ih =>
    have hinto := (Reference.reports_ofBodies (p := p) (p.bodiesOf t)).bind fun found =>
      reports_pure (MemberSet.ofList ((found.flatMap (·.2)).map Reference.target |>.filter (·.owner = stub)))
    refine (hinto.mono ?_).bind fun found => (ih _).mono ?_
    · exact fun o ho => ⟨t, List.mem_cons_self, ho⟩
    · rintro o ⟨other, hother, ho⟩
      exact ⟨other, List.mem_cons_of_mem _ hother, ho⟩

theorem reports_foldSeeds (members : List Member) :
    Reports p (fun o => ∃ m ∈ members, o = .fold m none) (foldSeeds p members) := by
  induction members with
  | nil => exact reports_pure []
  | cons m rest ih =>
    refine ((Reference.reports_normalize m none).mono ?_).bind fun folded => (ih.mono ?_).bind fun others =>
      reports_pure _
    · exact fun o ho => ⟨m, List.mem_cons_self, ho⟩
    · rintro o ⟨other, hother, ho⟩
      exact ⟨other, List.mem_cons_of_mem _ hother, ho⟩

end Closure

/-! ## Looking for receivers -/

namespace Closing

variable {α β : Type} {p : Program} {good : Occasion → Prop} {sites more : Set CallSite}

/-- On a faithful memory the work comes upon good occasions only and leaves the memory faithful; and if it comes to a value, it has looked at the virtual calls among the sites, now or before. -/
def Reports (p : Program) (good : Occasion → Prop) (sites : Set CallSite) (work : Closing α) : Prop :=
  ∀ run : Run, run.session.memory.Faithful p → Step.Ends work run fun outcome after =>
    after.session.memory.Faithful p ∧
      (∃ occasions, run.session.Logs p occasions after.session ∧ ∀ o ∈ occasions, good o) ∧
      ∀ a, outcome = .ok a → ∀ c ∈ sites, c.call.category = .virtualCall → c.place ∈ after.session.memory.refined.keys

theorem reports_pure (a : α) : Reports p good ∅ (pure a) :=
  fun run hf => ⟨hf, ⟨[], run.session.logs_refl p, by simp⟩, by simp⟩

theorem Reports.mono {work : Closing α} {better : Occasion → Prop} (h : Reports p better more work)
    (hg : ∀ o, better o → good o) (hs : sites ⊆ more) : Reports p good sites work := by
  intro run hf
  refine (h run hf).mono ?_
  rintro outcome after ⟨hm, ⟨occasions, hlogs, hbetter⟩, hcover⟩
  exact ⟨hm, ⟨occasions, hlogs, fun o ho => hg o (hbetter o ho)⟩, fun a ha c hc => hcover a ha c (hs hc)⟩

theorem Reports.bind {work : Closing α} {next : α → Closing β} (hw : Reports p good sites work)
    (hn : ∀ a, Reports p good more (next a)) : Reports p good (sites ∪ more) (work >>= next) := by
  intro run hf
  refine (hw run hf).bind ?_ ?_
  · rintro e after ⟨hm, hlogs, -⟩
    exact ⟨hm, hlogs, by rintro a ⟨⟩⟩
  · rintro a between ⟨hm, ⟨occasions, hlogs, hgood⟩, hcover⟩
    refine (hn a between hm).mono ?_
    rintro outcome after ⟨hm', ⟨others, hlogs', hgood'⟩, hcover'⟩
    refine ⟨hm', ⟨occasions ++ others, hlogs.trans hlogs', fun o ho => ?_⟩, fun b hb c hc hv => ?_⟩
    · exact (List.mem_append.1 ho).elim (hgood o) (hgood' o)
    · rcases hc with hc | hc
      · exact hlogs'.mem_refined (hcover a rfl c hc hv)
      · exact hcover' b hb c hc hv

theorem Reports.scan_bind {work : Scan α} {next : α → Closing β} {found : α → Prop} (hw : Scan.Reports p good work)
    (hf : Scan.Finds p work found) (hn : ∀ a, found a → Reports p good sites (next a)) :
    Reports p good sites (scan work >>= next) := by
  intro run hm
  obtain ⟨occasions, hlogs, hgood⟩ := hw run.session
  obtain ⟨hfound, hm'⟩ := hf run.session hm
  rw [ends_scan_bind]
  refine (hn _ hfound { run with session := (work.run run.session).2 } hm').mono ?_
  rintro outcome after ⟨hlast, ⟨others, hlogs', hgood'⟩, hcover⟩
  refine ⟨hlast, ⟨occasions ++ others, hlogs.trans hlogs', fun o ho => ?_⟩, hcover⟩
  exact (List.mem_append.1 ho).elim (hgood o) (hgood' o)

theorem reports_resolve {c : CallSite} (hb : p.Has c.body) :
    Reports p (· = .call c) {c} (receiver (Receiver.resolve p c.body c.index)) := by
  intro run hf
  obtain ⟨-, hm, -⟩ := finds_resolveHere hb c.index run hf
  refine ⟨hm, ?_, ?_⟩
  · rw [run_receiver, Receiver.run_resolve]
    cases hk : run.session.memory.refined.find? (c.body.method.toSignature, (c.index : Int)) with
    | some known => exact ⟨[], run.session.logs_refl p, by simp⟩
    | none =>
      cases hr : Receiver.resolveHere p c.body c.index with
      | error e => exact ⟨[], run.session.logs_refl p, by simp⟩
      | ok found =>
        have hnew := Table.find?_eq_none_iff.1 hk
        refine ⟨[.call c], ⟨?_, ?_, ?_, ?_, ?_⟩, by simp⟩
        · simp [Occasion.reports, hr]
        · simp [Occasion.folded?, Occasion.fold?]
        · exact (Table.keys_insert _ _ _).trans (if_neg hnew)
        · exact id
        · exact fun hd => Table.nodup_keys_insert hd _ _
  · rintro a ha other rfl -
    rw [run_receiver, Receiver.run_resolve] at ha ⊢
    cases hk : run.session.memory.refined.find? (other.body.method.toSignature, (other.index : Int)) with
    | some known => exact Table.mem_keys_of_find? hk
    | none =>
      rw [hk] at ha
      cases hr : Receiver.resolveHere p other.body other.index with
      | error e =>
        rw [hr] at ha
        cases ha
      | ok found => exact Table.mem_keys_insert.2 (.inl rfl)

end Closing

namespace Closure

open Closing

variable {p : Program} {sources known : Set TypeId}

/-! ## Occasions in a pass -/

/-- The method of the site belongs to a source type, or to a type nested in one, and its body calls the member. -/
def CalledFrom (p : Program) (sources : Set TypeId) (m : Member) (site : Signature) : Prop :=
  ∃ source ∈ sources, ∃ t, (t = source ∨ t.isNestedIn source = true) ∧ ∃ b ∈ p.bodiesOf t,
    b.method.toSignature = site ∧ ∃ ins ∈ b.instructions, ins.isCall = true ∧ ins.member? = some m

/-- The member is an override that a leaking call was refined to. -/
def Overriding (p : Program) (sources known : Set TypeId) (m : Member) : Prop :=
  ∃ c ∈ leaking p sources known, ∃ t o, c.refined? = some t ∧ p.override? t c.callee = some o ∧
    o.toSignature = m.toSignature

/-- The occasion may come up while bodies are gone over with respect to some known types. -/
def Arises (p : Program) (sources known : Set TypeId) : Occasion → Prop
  | .fold m (some site) => CalledFrom p sources m site
  | .fold m none => Overriding p sources known m
  | .call c => c ∈ leaking p sources known ∧ c.call.category = .virtualCall
  | .key _ _ => False

theorem Arises.mono {o : Occasion} {more : Set TypeId} (h : Arises p sources known o) (hk : known ⊆ more) :
    Arises p sources more o := by
  match o, h with
  | .fold m (some site), h => exact h
  | .fold m none, ⟨c, hc, ho⟩ => exact ⟨c, leaking_mono hk hc, ho⟩
  | .call c, ⟨hc, hv⟩ => exact ⟨leaking_mono hk hc, hv⟩

theorem arises_of_calls {source t : TypeId} (hs : source ∈ sources) (ht : t = source ∨ t.isNestedIn source = true)
    {b : Body} (hb : b ∈ p.bodiesOf t) {o : Occasion} (h : Reference.Calls b o) : Arises p sources known o := by
  obtain ⟨ins, hins, m, hcall, hm, rfl⟩ := h
  exact ⟨source, hs, t, ht, b, hb, rfl, ins, hins, hcall, hm⟩

theorem reports_discover {b : Body} (hb : p.Has b) {r : Reference} {c : CallSite} (hc : c.Shows b r) (d : Discovery) :
    Reports p (fun o => c.call.category = .virtualCall ∧ o = .call c) {c} (discover p b r d) := by
  rw [discover_eq, ← hc.category, ← hc.index]
  obtain rfl := hc.body
  split
  next hv =>
    have hresolve := (reports_resolve hb).bind fun refinement =>
      reports_pure ((refinement.elim d d.addRefinement).addMethod r.declared)
    exact hresolve.mono (fun o ho => ⟨hv, ho⟩) Set.subset_union_left
  next hv =>
    intro run hf
    refine ⟨hf, ⟨[], run.session.logs_refl p, by simp⟩, ?_⟩
    rintro a - other rfl hv'
    exact absurd hv' hv

theorem reports_foldlM_discover {b : Body} (hb : p.Has b) {refs : List Reference}
    (hrefs : ∀ r ∈ refs, ∃ c : CallSite, c.Shows b r) (d : Discovery) :
    Reports p (fun o => ∃ c : CallSite, (∃ r ∈ refs, c.Shows b r) ∧ c.call.category = .virtualCall ∧ o = .call c)
      {c | ∃ r ∈ refs, c.Shows b r} (refs.foldlM (fun d r => discover p b r d) d) := by
  induction refs generalizing d with
  | nil => exact (reports_pure d).mono (fun o ho => ho) (by simp)
  | cons r rest ih =>
    obtain ⟨c, hc⟩ := hrefs r List.mem_cons_self
    have hrest : ∀ other ∈ rest, ∃ c : CallSite, c.Shows b other := fun other ho => hrefs other (List.mem_cons_of_mem _ ho)
    rw [List.foldlM_cons]
    refine ((reports_discover hb hc d).mono ?_ (Set.Subset.refl _)).bind (fun d' => (ih hrest d').mono ?_ (Set.Subset.refl _))
      |>.mono (fun o ho => ho) ?_
    · rintro o ⟨hv, rfl⟩
      exact ⟨c, ⟨r, List.mem_cons_self, hc⟩, hv, rfl⟩
    · rintro o ⟨c', ⟨other, hother, hc'⟩, ho⟩
      exact ⟨c', ⟨other, List.mem_cons_of_mem _ hother, hc'⟩, ho⟩
    · rintro c' ⟨other, hother, hc'⟩
      rcases List.mem_cons.1 hother with rfl | hother
      · exact .inl (hc'.unique hc)
      · exact .inr ⟨other, hother, hc'⟩

/-- The calls of a source type that leak are looked at, and nothing else gives occasion but what its bodies call. -/
theorem reports_relatedInBodies (hp : p.Coherent) {source : TypeId} (hs : source ∈ sources) {types : List TypeId}
    {bodies : List Body} (hb : ∀ b ∈ bodies, b ∈ p.bodiesOf source) (d : Discovery) :
    Reports p (Arises p sources {t | t ∈ types}) {c | c.body ∈ bodies ∧ c.Leaks p source {t | t ∈ types}}
      (relatedInBodies p source types bodies d) := by
  induction bodies generalizing d with
  | nil => exact (reports_pure d).mono (fun o ho => ho) (by simp)
  | cons b rest ih =>
    have hmem := hb b List.mem_cons_self
    have hhas := hp.has_of_mem_bodiesOf hmem
    have hcalls : Scan.Reports p (Arises p sources {t | t ∈ types}) (Reference.ofBody p b) :=
      (Reference.reports_ofBody b).mono fun o ho => arises_of_calls hs (.inl rfl) hmem ho
    refine Reports.scan_bind hcalls (Reference.finds_ofBody hp hhas) fun refs hrefs => ?_
    have hshows : ∀ r ∈ refs.filter (isRelated p source types), ∃ c : CallSite, c.Shows b r :=
      fun r hr => exists_shows hrefs (List.mem_filter.1 hr).1
    have hin := reports_foldlM_discover hhas hshows d
    simp only [exists_related_iff hmem hrefs] at hin
    refine Reports.mono (Reports.bind (hin.mono ?_ (Set.Subset.refl _)) fun d' =>
      ih (fun other ho => hb other (List.mem_cons_of_mem _ ho)) d') (fun o ho => ho) ?_
    · rintro o ⟨c, ⟨-, hc⟩, hv, rfl⟩
      exact ⟨⟨source, hs, hc⟩, hv⟩
    · rintro c ⟨hbody, hc⟩
      rcases List.mem_cons.1 hbody with hbody | hbody
      · exact .inl ⟨hbody, hc⟩
      · exact .inr ⟨hbody, hc⟩

theorem reports_want (source : TypeId) (d : Discovery) (wanted : Wanted) (types : List TypeId) :
    Reports p (Arises p sources known) ∅ (want source d wanted types) := by
  intro run hf
  exact ⟨hf, ⟨[], run.session.logs_refl p, by simp⟩, by simp⟩

theorem reports_trace (messages : List String) : Scan.Reports p (Arises p sources known) (Scan.trace messages) := by
  intro s
  refine ⟨[], Session.logs_of_resembles ⟨rfl, ?_⟩, by simp⟩
  exact Sink.diagnostics_debugAll s.sink messages

theorem finds_trace (messages : List String) : Scan.Finds p (Scan.trace messages) fun _ => True :=
  fun _ hs => ⟨trivial, hs⟩

theorem reports_wantedTypes (hp : p.Coherent) {sources known rest : List TypeId} (hs : ∀ source ∈ rest, source ∈ sources)
    (wanted : Wanted) : Reports p (Arises p {t | t ∈ sources} {t | t ∈ known})
      (leaking p {t | t ∈ rest} {t | t ∈ known}) (wantedTypes p sources known rest wanted) := by
  induction rest generalizing wanted with
  | nil => exact (reports_pure wanted).mono (fun o ho => ho) (by simp [leaking])
  | cons source rest ih =>
    have hmem : source ∈ {t | t ∈ sources} := hs source List.mem_cons_self
    have hbodies : Reports p _ _ (relatedInBodies p source known (p.bodiesOf source) {}) :=
      reports_relatedInBodies hp hmem (fun b hb => hb) {}
    refine Reports.mono (Reports.bind hbodies fun d => Reports.scan_bind (reports_trace _) (finds_trace _) fun _ _ =>
      Reports.bind (reports_want source d wanted _) fun wanted' =>
        ih (fun other ho => hs other (List.mem_cons_of_mem _ ho)) wanted') (fun o ho => ho) ?_
    rintro c ⟨other, hother, hc⟩
    rcases List.mem_cons.1 hother with rfl | hother
    · exact .inl ⟨hc.own, hc⟩
    · exact .inr (.inr ⟨other, hother, hc⟩)

/-! ## Kinds of reports -/

theorem reports_fold (p : Program) (m : Member) (site : Option Signature) :
    (Occasion.fold m site).reports p = [] ∨
      (Occasion.fold m site).reports p = [Reference.unknownSpecial (p.definition m) site] := by
  show (Reference.foldAccessor p m site).2 = [] ∨ (Reference.foldAccessor p m site).2 = _
  unfold Reference.foldAccessor
  split
  · split
    · exact .inl rfl
    · exact .inr rfl
  · exact .inl rfl

theorem reports_call {c : CallSite} (placed : c.body.instructions[c.index]? = some c.call)
    (names : c.call.member? = some c.callee) (hv : c.call.category = .virtualCall) :
    (c.IsMute ∧ (Occasion.call c).reports p = []) ∨
      (¬ c.IsMute ∧ Receiver.Reported c.body c.index c.call c.callee ((Occasion.call c).reports p)) := by
  rcases CallSite.resolveHere_cases (p := p) placed names hv with ⟨e, hfails, he⟩ | ⟨hm, reports, ho, hreported⟩
  · refine .inl ⟨⟨e, hfails⟩, ?_⟩
    rw [Occasion.reports, he]
  · refine .inr ⟨hm, ?_⟩
    rw [Occasion.reports, ho]
    exact hreported

/-- Each kind of report is on one kind of occasion: stub types are discovered when they become keys, special members are unknown when they are folded, and what is said of receivers is said of calls. -/
theorem filter_reports {o : Occasion} (h : o.keyed? = none → Arises p sources known o) :
    (o.reports p).filter (fun d => d.code = some DiagnosticCode.stubDiscovered.name) =
        o.keyed?.toList.flatMap (fun key => [stubbed key.1 key.2]) ∧
      (o.reports p).filter (fun d => d.code = some DiagnosticCode.unknownSpecialMember.name) =
        o.fold?.toList.flatMap (fun e => (Occasion.fold e.1 e.2).reports p) ∧
      (o.reports p).filter (fun d => d.phase = some "dispatch") =
        o.call?.toList.flatMap (fun c => (Occasion.call c).reports p) := by
  match o, h with
  | .fold m site, h =>
    simp only [Occasion.fold?, Option.toList_some, List.flatMap_singleton]
    rcases reports_fold p m site with hr | hr
    all_goals
      rw [hr]
      exact ⟨rfl, rfl, rfl⟩
  | .call c, h =>
    obtain ⟨⟨source, -, hc⟩, hv⟩ := h rfl
    simp only [Occasion.call?, Option.toList_some, List.flatMap_singleton]
    rcases reports_call (p := p) hc.placed hc.names hv with
      ⟨-, hr⟩ | ⟨-, ⟨receiver, -, hr⟩ | ⟨-, written, reason, -, hr⟩ | ⟨-, -, hr⟩⟩
    all_goals
      rw [hr]
      exact ⟨rfl, rfl, rfl⟩
  | .key t origin, h => exact ⟨rfl, rfl, rfl⟩

theorem filter_flatMap_reports {κ : Type} {occasions : List Occasion} {keep : Diagnostic → Bool}
    {kind : Occasion → Option κ} {told : κ → List Diagnostic}
    (h : ∀ o ∈ occasions, (o.reports p).filter keep = (kind o).toList.flatMap told) :
    (occasions.flatMap (Occasion.reports p)).filter keep = (occasions.filterMap kind).flatMap told := by
  rw [List.filter_flatMap, List.filterMap_eq_flatMap_toList, List.flatMap_assoc]
  exact List.flatMap_congr h

/-! ## A pass -/

/-- The occasions on which types become keys, each for its origin. -/
def announcements (origins : Table TypeId TypeId) (types : List TypeId) : List (TypeId × TypeId) :=
  types.map fun t => (t, (origins.find? t).getD t)

theorem logs_addKeys (p : Program) {types new : List TypeId} {run after : Run}
    (h : (addKeys types).run.run run = (.ok new, after)) :
    run.session.Logs p ((announcements run.origins new).map fun key => .key key.1 key.2) after.session ∧
      after.session.memory = run.session.memory := by
  induction types generalizing run new with
  | nil =>
    cases h
    exact ⟨Session.logs_refl p _, rfl⟩
  | cons t rest ih =>
    obtain ⟨stubs, ⟨-, hrest⟩ | ⟨-, origin, more, horigin, hrest, rfl⟩⟩ := exists_of_run_addKeys_cons h
    · have hlogs := ih hrest
      exact hlogs
    · obtain ⟨hlogs, hmemory⟩ := ih hrest
      have hfirst : run.session.Logs p [.key t origin] (announce t origin { run with stubs }).session := by
        refine ⟨?_, ?_, ?_, id, id⟩
        · exact Sink.diagnostics_emitAll run.session.sink _
        · simp [announce, Occasion.folded?, Occasion.fold?]
        · simp [announce, Occasion.looked?, Occasion.call?]
      refine ⟨?_, hmemory⟩
      rw [announcements, List.map_cons, List.map_cons, horigin]
      exact hfirst.trans hlogs

theorem reports_stub {α : Type} (work : Stubbing α) : Reports p (Arises p sources known) ∅ (stub work) := by
  intro run hf
  exact ⟨hf, ⟨[], run.session.logs_refl p, by simp⟩, by simp⟩

/-- Giving types their members gives no occasion but what bodies call, and the overrides that calls were refined to. -/
theorem reports_fill (hp : p.Coherent) {sources : List TypeId} {wanted : Wanted}
    (hw : ∀ t, ∀ m ∈ (membersAt wanted t).values, Overriding p {t | t ∈ sources} known m) (types : List TypeId) :
    Reports p (Arises p {t | t ∈ sources} known) ∅ (fill p sources wanted types) := by
  induction types with
  | nil => exact reports_pure 0
  | cons t rest ih =>
    have hcontents : Scan.Reports p (Arises p {t | t ∈ sources} known)
        (contentsFrom p t (scannedTypes p sources) {}) := by
      refine (reports_contentsFrom t (scannedTypes p sources) {}).mono ?_
      rintro o ⟨scanned, hscanned, b, hb, ho⟩
      obtain ⟨source, hsource, ht⟩ := List.mem_flatMap.1 hscanned
      exact arises_of_calls hsource (hp.isNestedIn_of_mem_withNested ht) hb ho
    have hseeds : Scan.Reports p (Arises p {t | t ∈ sources} known) (foldSeeds p (membersAt wanted t).values) := by
      refine (reports_foldSeeds (membersAt wanted t).values).mono ?_
      rintro o ⟨m, hm, rfl⟩
      exact hw t m hm
    unfold fill
    refine Reports.scan_bind hcontents (finds_stubContents hp t) fun content _ =>
      Reports.scan_bind hseeds (finds_foldSeeds hp _) fun seeds _ => ?_
    refine Reports.mono (Reports.bind (reports_stub _) fun added =>
      ih.bind fun more => reports_pure (added + more)) (fun o ho => ho) (Set.empty_subset _)

/-- What a session came upon in passes: some types became keys, each for its origin; what else there was arises with respect to the types known in the end; and no virtual call that leaks with respect to them was passed by. -/
structure Logged (p : Program) (sources known : Set TypeId) (before : Session) (announced : List (TypeId × TypeId))
    (occasions : List Occasion) (after : Session) : Prop where
  logs : before.Logs p occasions after
  arises : ∀ o ∈ occasions, o.keyed? = none → Arises p sources known o
  keys : occasions.filterMap Occasion.keyed? = announced
  looked : ∀ c ∈ leaking p sources known, c.call.category = .virtualCall → c.place ∈ after.memory.refined.keys

theorem Logged.trans {more : Set TypeId} {before middle after : Session} {announced announced' : List (TypeId × TypeId)}
    {occasions occasions' : List Occasion} (h : Logged p sources known before announced occasions middle)
    (h' : Logged p sources more middle announced' occasions' after) (hk : known ⊆ more) :
    Logged p sources more before (announced ++ announced') (occasions ++ occasions') after where
  logs := h.logs.trans h'.logs
  arises := by
    intro o ho hkey
    rcases List.mem_append.1 ho with ho | ho
    · exact (h.arises o ho hkey).mono hk
    · exact h'.arises o ho hkey
  keys := by rw [List.filterMap_append, h.keys, h'.keys]
  looked := h'.looked

theorem Logged.noted {before middle after : Session} {announced : List (TypeId × TypeId)} {occasions : List Occasion}
    (h : Logged p sources known before announced occasions middle) (hnote : middle.Logs p [] after) :
    Logged p sources known before announced occasions after where
  logs := by
    have hlogs := h.logs.trans hnote
    rwa [List.append_nil] at hlogs
  arises := h.arises
  keys := h.keys
  looked := fun c hc hv => hnote.mem_refined (h.looked c hc hv)

theorem Arises.keyed?_eq_none {o : Occasion} (h : Arises p sources known o) : o.keyed? = none := by
  match o, h with
  | .fold m site, h => rfl
  | .call c, h => rfl

theorem logged_of_parts {before after : Session} {asked filled : List Occasion} {announced : List (TypeId × TypeId)}
    (hlogs : before.Logs p (asked ++ (announced.map fun key => .key key.1 key.2) ++ filled) after)
    (harise : ∀ o ∈ asked ++ filled, Arises p sources known o)
    (hlooked : ∀ c ∈ leaking p sources known, c.call.category = .virtualCall → c.place ∈ after.memory.refined.keys) :
    ∃ occasions, Logged p sources known before announced occasions after := by
  refine ⟨_, hlogs, ?_, ?_, hlooked⟩
  · intro o ho hkey
    rw [List.mem_append, List.mem_append] at ho
    rcases ho with (ho | ho) | ho
    · exact harise o (List.mem_append_left _ ho)
    · obtain ⟨key, -, rfl⟩ := List.mem_map.1 ho
      cases hkey
    · exact harise o (List.mem_append_right _ ho)
  · have hasked : asked.filterMap Occasion.keyed? = [] :=
      List.filterMap_eq_nil_iff.2 fun o ho => (harise o (List.mem_append_left _ ho)).keyed?_eq_none
    have hfilled : filled.filterMap Occasion.keyed? = [] :=
      List.filterMap_eq_nil_iff.2 fun o ho => (harise o (List.mem_append_right _ ho)).keyed?_eq_none
    have hkeys : (announced.map fun key => Occasion.key key.1 key.2).filterMap Occasion.keyed? = announced := by
      rw [List.filterMap_map]
      exact List.filterMap_some
    rw [List.filterMap_append, List.filterMap_append, hasked, hfilled, hkeys, List.nil_append, List.append_nil]

/-- **What a pass reports on**: its new keys in their order, and besides them what arises with respect to the keys at its start. No virtual call that leaks with respect to these is passed by. -/
theorem logged_runPass (hp : p.Coherent) {sources : List TypeId} {index : Nat} {run after : Run} {summary : PassSummary}
    (hr : Sound p sources run) (h : (runPass p sources index).run.run run = (.ok summary, after)) :
    ∃ occasions, Logged p {t | t ∈ sources} (keySet run) run.session (announcements after.origins summary.newTypes)
      occasions after.session := by
  have hpassed := hr.passed hp h
  obtain ⟨wanted, mid, added, hwanted, hadd, hfill, -⟩ := of_run_runPass h
  have hasks : Reports p _ _ (wantedTypes p sources run.stubs.keys sources {}) :=
    reports_wantedTypes hp (fun source hs => hs) {}
  have hasking := hasks run hr.faithful
  rw [setOf_mem_keys] at hasking
  obtain ⟨hm, ⟨asked, hlogs, harise⟩, hcover⟩ := hasking.of_run hwanted
  obtain ⟨hkeys, hmemory⟩ := logs_addKeys p hadd
  obtain ⟨⟨hw, -⟩, -⟩ := (hr.ends_wanted hp).of_run hwanted
  have hoverriding : ∀ t, ∀ m ∈ (membersAt wanted t).values, Overriding p {t | t ∈ sources} (keySet run) m := by
    intro t m hm
    obtain ⟨-, c, hc, hr, o, ho, he⟩ := (hw.seeds t _).1 ((hw.keyed t).mem_keys hm)
    exact ⟨c, hc, t, o, hr, ho, he⟩
  obtain ⟨-, ⟨filled, hlogs', harise'⟩, -⟩ := (reports_fill hp hoverriding _ added (hmemory ▸ hm)).of_run hfill
  -- the origins were given while it was gathered what is wanted
  obtain ⟨wanted', mid', hwanted', -, horigins⟩ := hpassed.settled
  obtain ⟨-, rfl⟩ := Prod.mk.inj (hwanted.symm.trans hwanted')
  have hall := (hlogs.trans hkeys).trans hlogs'
  rw [← horigins] at hall
  have harises : ∀ o ∈ asked ++ filled, Arises p {t | t ∈ sources} (keySet run) o :=
    fun o ho => (List.mem_append.1 ho).elim (harise o) (harise' o)
  exact logged_of_parts hall harises fun c hc hv =>
    hlogs'.mem_refined (hkeys.mem_refined (hcover wanted rfl c hc hv))

end Closure

end StubClosure
