import StubClosure.Proofs.Closure.Origins
import StubClosure.Proofs.Listing.Errors

/-!
# Reports

A run reads bodies and looks for receivers in every pass, and makes each report once. What it says of receivers are the reports on the calls among its occasions, and no call is there twice: its memory knows a call by its place, and in a program there is one call in a place. Every virtual call that leaks in view of the final keys is among them, for the last pass would have come upon it. In the same way what it says of special members are the reports on the folds among its occasions. None of this depends on how many passes there were.
-/

namespace StubClosure

namespace CallSite

/-- The call is virtual, and its receiver is not to be found. -/
def IsUnlocated (c : CallSite) : Prop :=
  c.call.category = .virtualCall ∧ Receiver.Unlocated c.body c.index c.callee

/-- The call is refined, or its receiver is not to be found. -/
def CallsForReport (c : CallSite) : Prop := (∃ t, c.refined? = some t) ∨ c.IsUnlocated

/-- The report says of the call that it is refined, or warns that its receiver is not to be found. -/
def Told (c : CallSite) (d : Diagnostic) : Prop :=
  (∃ receiver, c.refined? = some receiver ∧ d = Receiver.refined c.body c.callee receiver) ∨
    (c.IsUnlocated ∧ ∃ written reason, c.call.render = .ok written ∧ d = Receiver.unresolved c.body written reason)

theorem CallsForReport.isVirtual {c : CallSite} (h : c.CallsForReport) : c.call.category = .virtualCall := by
  rcases h with ⟨t, ht⟩ | ⟨hv, -⟩
  · unfold refined? at ht
    exact (Option.ite_none_right_eq_some.1 ht).1
  · exact hv

theorem told_of_reported {c : CallSite} (hv : c.call.category = .virtualCall) {reports : List Diagnostic}
    (h : Receiver.Reported c.body c.index c.call c.callee reports) :
    (c.CallsForReport ∧ ∃ d, reports = [d] ∧ c.Told d) ∨ (¬ c.CallsForReport ∧ reports = []) := by
  have hrefined : c.refined? = (Receiver.localType? c.body c.index c.callee).filter (· ≠ c.callee.owner) := if_pos hv
  rcases h with ⟨receiver, hr, rfl⟩ | ⟨hlost, written, reason, hw, rfl⟩ | ⟨hr, hfound, rfl⟩
  · exact .inl ⟨.inl ⟨receiver, hrefined.trans hr⟩, _, rfl, .inl ⟨receiver, hrefined.trans hr, rfl⟩⟩
  · exact .inl ⟨.inr ⟨hv, hlost⟩, _, rfl, .inr ⟨⟨hv, hlost⟩, written, reason, hw, rfl⟩⟩
  · refine .inr ⟨?_, rfl⟩
    rintro (⟨t, ht⟩ | ⟨-, hlost⟩)
    · cases (hrefined.trans hr).symm.trans ht
    · exact hfound hlost

end CallSite

namespace Closure

variable {p : Program} {sources known : Set TypeId}

theorem eq_of_place (hp : p.Coherent) {more : Set TypeId} {c c' : CallSite} (hc : c ∈ leaking p sources known)
    (hc' : c' ∈ leaking p sources more) (h : c.place = c'.place) : c = c' := by
  obtain ⟨source, -, hc⟩ := hc
  obtain ⟨source', -, hc'⟩ := hc'
  obtain ⟨hmethod, hindex⟩ := Prod.mk.inj h
  have hbody := (hp.has_of_mem_bodiesOf hc.own).eq (hp.has_of_mem_bodiesOf hc'.own) hmethod
  have hplaced := hc'.placed
  rw [← hbody, ← Int.ofNat_inj.1 hindex, hc.placed] at hplaced
  have hcall := Option.some.inj hplaced
  have hnames := hc'.names
  rw [← hcall, hc.names] at hnames
  obtain ⟨body, index, call, callee⟩ := c
  obtain ⟨body', index', call', callee'⟩ := c'
  rw [CallSite.mk.injEq]
  exact ⟨hbody, Int.ofNat_inj.1 hindex, hcall, Option.some.inj hnames⟩

/-- If of each element there is one thing to tell or none, then what is told of a list is told of those that there is something to tell of, in their order. -/
theorem forall₂_filter_flatMap {α β : Type} {keep : α → Prop} [DecidablePred keep] {tell : α → List β}
    {Tells : α → β → Prop} {list : List α}
    (h : ∀ a ∈ list, (keep a ∧ ∃ b, tell a = [b] ∧ Tells a b) ∨ (¬ keep a ∧ tell a = [])) :
    List.Forall₂ Tells (list.filter fun a => keep a) (list.flatMap tell) := by
  induction list with
  | nil => exact .nil
  | cons a rest ih =>
    have hrest := ih fun other ho => h other (List.mem_cons_of_mem _ ho)
    rw [List.flatMap_cons]
    rcases h a List.mem_cons_self with ⟨hk, b, htell, hb⟩ | ⟨hk, htell⟩
    · rw [List.filter_cons_of_pos (by simpa using hk), htell]
      exact .cons hb hrest
    · rw [List.filter_cons_of_neg (by simpa using hk), htell]
      exact hrest

/-! ## Kinds of occasions -/

theorem mem_filterMap_call {occasions : List Occasion} {c : CallSite} :
    c ∈ occasions.filterMap Occasion.call? ↔ Occasion.call c ∈ occasions := by
  simp [List.mem_filterMap, Occasion.call?_eq_some_iff]

theorem mem_filterMap_fold {occasions : List Occasion} {m : Member} {site : Option Signature} :
    (m, site) ∈ occasions.filterMap Occasion.fold? ↔ Occasion.fold m site ∈ occasions := by
  simp [List.mem_filterMap, Occasion.fold?_eq_some_iff]

/-- What reports say of receivers, in view of some types: there is one report on each of some calls, all in different places, and these are the leaking calls that call for one. -/
structure DispatchReports (p : Program) (sources known : Set TypeId) (sites : List CallSite)
    (reports : List Diagnostic) : Prop where
  nodup : (sites.map CallSite.place).Nodup
  mem : ∀ c, c ∈ sites ↔ c ∈ leaking p sources known ∧ c.CallsForReport
  told : List.Forall₂ CallSite.Told sites (reports.filter fun d => d.phase = some "dispatch")

/-- What reports say of special members, in view of some types: there is one report on each of some entries, no two of which are of one member for one site. An entry with a site is of a member that the body there calls, one without is of an override that a call was refined to. -/
structure ScanReports (p : Program) (sources known : Set TypeId) (entries : List (Member × Option Signature))
    (reports : List Diagnostic) : Prop where
  nodup : (entries.map fun e => (e.1.toSignature, e.2)).Nodup
  called : ∀ m site, (m, some site) ∈ entries → CalledFrom p sources m site
  overriding : ∀ m, (m, none) ∈ entries → Overriding p sources known m
  told : (reports.filter fun d => d.code = some DiagnosticCode.unknownSpecialMember.name) =
    entries.map fun e => Reference.unknownSpecial (p.definition e.1) e.2

section
variable {before after : Session} {announced : List (TypeId × TypeId)} {occasions : List Occasion}

/-- The calls that a session came upon, and knew none before, are the virtual ones that leak, each once. -/
theorem Logged.calls (hp : p.Coherent) (h : Logged p sources known before announced occasions after)
    (hempty : before.memory.refined.keys = []) :
    ((occasions.filterMap Occasion.call?).map CallSite.place).Nodup ∧ ∀ c, c ∈ occasions.filterMap Occasion.call? ↔
      c ∈ leaking p sources known ∧ c.call.category = .virtualCall := by
  have hplaces : after.memory.refined.keys = (occasions.filterMap Occasion.call?).map CallSite.place := by
    rw [h.logs.refined, hempty, List.nil_append, List.map_filterMap]
    rfl
  have harise : ∀ c ∈ occasions.filterMap Occasion.call?, c ∈ leaking p sources known ∧ c.call.category = .virtualCall :=
    fun c hc => h.arises _ (mem_filterMap_call.1 hc) rfl
  refine ⟨?_, fun c => ⟨harise c, ?_⟩⟩
  · rw [← hplaces]
    apply h.logs.nodup_refined
    simp [hempty]
  · rintro ⟨hc, hv⟩
    -- the place was looked at, and no other leaking call stands there
    have hlooked := h.looked c hc hv
    rw [hplaces] at hlooked
    obtain ⟨c', hc', hplace⟩ := List.mem_map.1 hlooked
    obtain rfl := eq_of_place hp (harise c' hc').1 hc hplace
    exact hc'

theorem Logged.nodup_folds (h : Logged p sources known before announced occasions after)
    (hempty : before.memory.folded.keys = []) :
    ((occasions.filterMap Occasion.fold?).map fun e => (e.1.toSignature, e.2)).Nodup := by
  have hkeys : after.memory.folded.keys =
      (occasions.filterMap Occasion.fold?).map fun e => (e.1.toSignature, e.2) := by
    rw [h.logs.folded, hempty, List.nil_append, List.map_filterMap]
    rfl
  rw [← hkeys]
  apply h.logs.nodup_folded
  simp [hempty]

open Classical in
theorem Logged.dispatchReports (hp : p.Coherent) (h : Logged p sources known before announced occasions after)
    (hempty : before.memory.refined.keys = []) (hreport : Reportable p sources known) :
    ∃ sites, DispatchReports p sources known sites (occasions.flatMap (Occasion.reports p)) := by
  obtain ⟨hnodup, hcalls⟩ := h.calls hp hempty
  refine ⟨(occasions.filterMap Occasion.call?).filter fun c => c.CallsForReport, ?_, fun c => ?_, ?_⟩
  · exact hnodup.sublist (List.filter_sublist.map _)
  · rw [List.mem_filter, decide_eq_true_iff, hcalls, and_assoc]
    exact and_congr_right fun _ => and_iff_right_of_imp CallSite.CallsForReport.isVirtual
  · rw [filter_flatMap_reports fun o ho => (filter_reports fun hkey => h.arises o ho hkey).2.2]
    apply forall₂_filter_flatMap
    intro c hc
    obtain ⟨hleaks, hv⟩ := (hcalls c).1 hc
    have hspeaks := hreport c hleaks
    obtain ⟨source, -, hleaks⟩ := hleaks
    rcases reports_call (p := p) hleaks.placed hleaks.names hv with ⟨hmute, -⟩ | ⟨-, hreported⟩
    · exact absurd hmute hspeaks
    · exact CallSite.told_of_reported hv hreported

open Classical in
theorem Logged.scanReports (h : Logged p sources known before announced occasions after)
    (hempty : before.memory.folded.keys = []) :
    ∃ entries, ScanReports p sources known entries (occasions.flatMap (Occasion.reports p)) := by
  have harise : ∀ m site, (m, site) ∈ (occasions.filterMap Occasion.fold?).filter
      (fun e => (Occasion.fold e.1 e.2).reports p ≠ []) → Arises p sources known (.fold m site) :=
    fun m site he => h.arises _ (mem_filterMap_fold.1 (List.mem_filter.1 he).1) rfl
  refine ⟨_, (h.nodup_folds hempty).sublist (List.filter_sublist.map _), fun m site => harise m (some site),
    fun m => harise m none, ?_⟩
  rw [filter_flatMap_reports fun o ho => (filter_reports fun hkey => h.arises o ho hkey).2.1]
  -- there is one report on a fold or none, so the reports are those on the folds that have one
  have htold : List.Forall₂ (fun e d => Reference.unknownSpecial (p.definition e.1) e.2 = d)
      ((occasions.filterMap Occasion.fold?).filter fun e => (Occasion.fold e.1 e.2).reports p ≠ [])
      ((occasions.filterMap Occasion.fold?).flatMap fun e => (Occasion.fold e.1 e.2).reports p) := by
    apply forall₂_filter_flatMap
    intro e _
    rcases reports_fold p e.1 e.2 with hr | hr
    · exact .inr ⟨not_not.2 hr, hr⟩
    · exact .inl ⟨by simp [hr], _, hr, rfl⟩
  rw [← List.forall₂_map_left_iff, List.forall₂_eq_eq_eq] at htold
  exact htold.symm

end

/-- **Reports are made once.** Take a program that was loaded from a text, and a run from known names that is not to stub everything. It fails if some call is mute that leaks with respect to the least fixed point of what is wanted. Else it has a result. Then what is said of receivers is said of the virtual calls in bodies of source types that leak in view of the keys in the end: a report for each that is refined, a warning for each whose receiver is not to be found, and nothing for any other. And no report on a special member is made twice for one member and one method whose body calls it, or twice for one override that a call was refined to. -/
theorem run_reports {source name : String} {file : Option String} {p : Program}
    (hl : Listing.load source name file = .ok p) {names : List String} (hn : ∀ name ∈ names, p.findType? name ≠ none)
    (options : ClosureOptions) (hg : options.generateAll = false) :
    let named := namedTypes p names
    let outcome := (run p names options {}).1
    (¬ Reportable p named (wanting p named).lfp → ∃ reason, outcome = .error (.receiver (.unwritable reason))) ∧
    (Reportable p named (wanting p named).lfp → ∃ r, outcome = .ok r ∧
      (∃ sites, DispatchReports p named {t | t ∈ r.stubs.entries.keys} sites r.diagnostics) ∧
      ∃ entries, ScanReports p named {t | t ∈ r.stubs.entries.keys} entries r.diagnostics) := by
  intro named outcome
  have hp : p.Built := by
    have hcases := Listing.load_cases source name file
    rwa [hl] at hcases
  rcases run_logged_cases hp hn options hg with
    ⟨e, hmuted, hfail⟩ | ⟨hreport, sources, passes, after, occasions, hset, hrun, hkeys, -, hlogged, hdiagnostics⟩
  · obtain ⟨⟨reason, rfl⟩, -⟩ := hmuted.exists_unwritable (numbered_of_fits (Listing.fits_of_load hl) _)
    exact ⟨fun _ => ⟨reason, hfail⟩, fun h => absurd h hmuted.not_reportable⟩
  · refine ⟨fun h => absurd hreport h, fun _ => ⟨result sources passes after, hrun, ?_⟩⟩
    have hall : Reportable p named (keySet after) := by
      rw [hkeys]
      exact hreport
    rw [hset] at hlogged
    rw [hdiagnostics]
    exact ⟨hlogged.dispatchReports hp.coherent rfl hall, hlogged.scanReports rfl⟩

/-! ## A stray call -/

namespace Stray

def foo : TypeId := .top "" "Foo" 0

/-- `Foo.Make` hands `this` to a `Bar` that nothing has pushed. -/
def types : List Listing.TypeDecl :=
  [{ head := { position := {}, name := "Foo" }
     members :=
      [.method
        { position := {}, returns := "void", name := "Make", params := []
          body := some
            { instructions :=
                [{ position := {}, label := "IL_0:", mnemonic := "callvirt"
                   operand := some (.member true "void" "Bar" "Take" (some ["Foo"])) }] } }] },
   { head := { position := {}, name := "Bar" }
     members := [.method { position := {}, modifiers := ["virtual"], returns := "void", name := "Take", params := ["Foo"] }] }]

def take : Member := .method (.top "" "Bar" 0) "Take" [foo] .void

def callTake : Instruction where
  offset := 0
  category := .virtualCall
  mnemonic := "callvirt"
  operand := some (.member take)
  pushes := false

/-- The call in its place. -/
def site : CallSite where
  body := { method := .method foo "Make" [] .void, instructions := [callTake] }
  index := 0
  call := callTake
  callee := take

theorem calls_pair {file : Option String} {h h' : Listing.TypeHead} {m m' : Listing.MethodDecl} {t t' : TypeId}
    (ht : Listing.declaredId none h.name = .ok t) (ht' : Listing.declaredId none h'.name = .ok t') :
    Listing.calls file [⟨h, [.method m]⟩, ⟨h', [.method m']⟩] =
      [Listing.headCall file none h, Listing.headCall file none h', Listing.methodCall file t m,
        Listing.methodCall file t' m'] := by
  simp [Listing.calls, Listing.typeCalls, Listing.innerCalls, Listing.fillCalls, Listing.memberCalls,
    Listing.propertyCalls, ht, ht']

theorem exists_load : ∃ p, Listing.load (Listing.text types) "stray" none = .ok p ∧ p.defines foo = true ∧
    (p.findType? "Foo").map TypeDef.id = some foo ∧ p.bodiesOf foo = [site.body] ∧
    p.types.keys = [foo, take.owner] := by
  have hfoo : Listing.declaredId none "Foo" = .ok foo := by decide +kernel
  have hbar : Listing.declaredId none "Bar" = .ok take.owner := by decide +kernel
  have hcalls : Listing.calls none (Listing.placeTypes {} types) = _ := calls_pair hfoo hbar
  exact Listing.exists_load_text (by decide +kernel) hcalls (by decide +kernel)

section
variable {p : Program} (hbodies : p.bodiesOf foo = [site.body])
include hbodies

theorem leaking_eq (hdefines : p.defines foo = true) (known : Set TypeId) : leaking p {foo} known = {site} := by
  ext c
  constructor
  · rintro ⟨source, rfl, hc⟩
    obtain ⟨body, index, call, callee⟩ := c
    obtain rfl : body = site.body := by
      have hown := hc.own
      rwa [hbodies, List.mem_singleton] at hown
    have hplaced := hc.placed
    have hnames := hc.names
    match index with
    | 0 =>
      obtain rfl := Option.some.inj hplaced
      obtain rfl := Option.some.inj hnames
      rfl
    | index + 1 => cases hplaced
  · rintro rfl
    refine ⟨foo, rfl, ⟨?_, rfl, rfl, rfl, by decide, by decide, ?_⟩⟩
    · rw [hbodies]
      exact List.mem_singleton_self _
    · exact ⟨foo, List.mem_singleton_self _, hdefines, .inl rfl⟩

theorem reportable (known : Set TypeId) : Reportable p {foo} known := by
  have honly : ∀ b ∈ p.bodiesOf foo, ∀ ins ∈ b.instructions, ins = callTake := by
    rw [hbodies]
    intro b hb ins hins
    obtain rfl := List.mem_singleton.1 hb
    exact List.mem_singleton.1 hins
  refine reportable_of_numbers known ?_ ?_
  · rintro source rfl b hb ins hins hload
    rw [honly b hb ins hins] at hload
    cases hload
  · rintro source rfl b hb ins hins n hn
    rw [honly b hb ins hins] at hn
    cases hn

end

theorem callsForReport : site.CallsForReport := by
  refine .inr ⟨rfl, rfl, ?_⟩
  rintro ins ⟨⟩

end Stray

/-- The stray call gives one report. -/
theorem run_reports_stray : ∃ p, Listing.load (Listing.text Stray.types) "stray" none = .ok p ∧
    (∀ name ∈ ["Foo"], p.findType? name ≠ none) ∧ ({} : ClosureOptions).generateAll = false ∧
    ∃ r, (run p ["Foo"] {} {}).1 = .ok r ∧
      ∃ d, (r.diagnostics.filter fun d => d.phase = some "dispatch") = [d] ∧ Stray.site.Told d := by
  obtain ⟨p, hl, hdefines, hid, hbodies, -⟩ := Stray.exists_load
  obtain ⟨d, hfind, hd⟩ := Option.map_eq_some_iff.1 hid
  have hn : ∀ name ∈ ["Foo"], p.findType? name ≠ none := by simp [hfind]
  have hnamed : namedTypes p ["Foo"] = {Stray.foo} := by
    ext t
    simp [namedTypes, hfind, hd, eq_comm]
  have hreports := (run_reports hl hn {} rfl).2
  rw [hnamed] at hreports
  obtain ⟨r, hr, ⟨sites, hdispatch⟩, -⟩ := hreports (Stray.reportable hbodies _)
  have hmem : ∀ c, c ∈ sites ↔ c ∈ [Stray.site] := by
    intro c
    rw [hdispatch.mem, Stray.leaking_eq hbodies hdefines, List.mem_singleton]
    constructor
    · exact fun hc => hc.1
    · rintro rfl
      exact ⟨rfl, Stray.callsForReport⟩
  have hnodup : sites.Nodup := hdispatch.nodup.of_map
  have hperm := (List.perm_ext_iff_of_nodup hnodup (List.nodup_singleton _)).2 hmem
  have htold := hdispatch.told
  rw [List.perm_singleton.1 hperm] at htold
  obtain ⟨report, rest, hreport, hrest, heq⟩ := List.forall₂_cons_left_iff.1 htold
  obtain rfl := List.forall₂_nil_left_iff.1 hrest
  exact ⟨p, hl, hn, rfl, r, hr, report, heq, hreport⟩

end Closure

end StubClosure
