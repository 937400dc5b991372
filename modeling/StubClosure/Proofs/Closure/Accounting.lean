import StubClosure.Proofs.Closure.Safety

/-!
# What passes account for

Each pass tells which keys and how many members it added, by counters that are kept while the stubs change under them. `Grown` is what one addition does to a stub set: a list of new keys at the end, and a number of members more. Additions in a row add up, so the counters of a pass are right however often a key is come back to (`Records`), and those of a run add up to the stubs that it ends with (`run_accounts`).
-/

namespace StubClosure

/-! ## Counting members -/

/-- The members that a table lists, each with the type that it stands under. -/
def listed (table : Table TypeId MemberSet) : Finset (Σ _ : TypeId, Signature) :=
  table.keys.toFinset.sigma fun t => (membersAt table t).keys.toFinset

theorem mem_listed {table : Table TypeId MemberSet} {t : TypeId} {s : Signature} :
    ⟨t, s⟩ ∈ listed table ↔ s ∈ (membersAt table t).keys := by
  rw [listed, Finset.mem_sigma, List.mem_toFinset, List.mem_toFinset]
  refine ⟨fun h => h.2, fun h => ⟨?_, h⟩⟩
  by_contra ht
  rw [membersAt_of_not_mem ht] at h
  cases h

theorem card_listed {table : Table TypeId MemberSet} (h : Distinct table) :
    (listed table).card = (table.values.map Table.size).sum := by
  have hsize : ∀ entry ∈ table.entries, (membersAt table entry.1).keys.toFinset.card = entry.2.size := by
    intro entry hentry
    have hfind := Table.find?_of_mem h.keys hentry
    rw [List.toFinset_card_of_nodup (h.members entry.1), Table.length_keys, membersAt_of_find? hfind]
  rw [listed, Finset.card_sigma, List.sum_toFinset _ h.keys, Table.keys, Table.values, List.map_map, List.map_map]
  exact congrArg List.sum (List.map_congr_left hsize)

theorem Table.sum_insert {κ ν : Type} [DecidableEq κ] (weight : ν → Nat) (table : Table κ ν) (key : κ) (value : ν) :
    ((table.insert key value).values.map weight).sum + ((table.find? key).map weight).getD 0 =
      (table.values.map weight).sum + weight value := by
  obtain ⟨entries⟩ := table
  show (((put key value entries).map (·.2)).map weight).sum + ((entries.lookup key).map weight).getD 0 =
    ((entries.map (·.2)).map weight).sum + weight value
  induction entries with
  | nil => simp [put]
  | cons entry rest ih =>
    rw [put, lookup_entry]
    by_cases hk : entry.1 = key
    · rw [if_pos hk, if_pos hk.symm]
      simp only [List.map_cons, List.sum_cons, Option.map_some, Option.getD_some]
      omega
    · rw [if_neg hk, if_neg (Ne.symm hk)]
      simp only [List.map_cons, List.sum_cons]
      omega

theorem MemberSet.size_le_size_addAll (set : MemberSet) (members : List Member) :
    set.size ≤ (set.addAll members).size := by
  induction members generalizing set with
  | nil => exact Nat.le_refl _
  | cons m rest ih =>
    have hadd : set.size ≤ (set.add m).size := by
      rw [← Table.length_keys, ← Table.length_keys, MemberSet.add, Table.keys_insertNew]
      split
      · exact Nat.le_refl _
      · simp
    exact Nat.le_trans hadd (ih (set.add m))

/-! ## Growth of a stub set -/

namespace StubSet

theorem memberCount_eq (s : StubSet) : s.memberCount = (s.entries.values.map Table.size).sum := rfl

/-- The stub set grew by new keys, and by a number of members. -/
structure Grown (before : StubSet) (new : List TypeId) (count : Nat) (after : StubSet) : Prop where
  keys : after.entries.keys = before.entries.keys ++ new
  members : ∀ t, (membersAt before.entries t).keys ⊆ (membersAt after.entries t).keys
  memberCount : after.memberCount = before.memberCount + count
  distinct : Distinct before.entries → Distinct after.entries

theorem grown_refl (s : StubSet) : s.Grown [] 0 s where
  keys := (List.append_nil _).symm
  members := fun _ _ h => h
  memberCount := rfl
  distinct := id

theorem Grown.trans {before middle after : StubSet} {new more : List TypeId} {count added : Nat}
    (h : before.Grown new count middle) (h' : middle.Grown more added after) :
    before.Grown (new ++ more) (count + added) after where
  keys := by rw [h'.keys, h.keys, List.append_assoc]
  members := fun t _ hs => h'.members t (h.members t hs)
  memberCount := by rw [h'.memberCount, h.memberCount, Nat.add_assoc]
  distinct := fun hd => h'.distinct (h.distinct hd)

theorem grown_addType {t : TypeId} {s after : StubSet} {isNew : Bool}
    (h : (addType t).run.run s = (.ok isNew, after)) : s.Grown (if isNew then [t] else []) 0 after := by
  rw [run_addType] at h
  split at h
  · cases h
  split at h
  · cases h
  split at h
  · cases h
    exact grown_refl s
  next ht =>
    cases h
    have ht : t ∉ s.entries.keys := fun hk => ht (Table.contains_iff.2 hk)
    have hnone : s.entries.find? t = none := Table.find?_eq_none_iff.2 ht
    refine ⟨(Table.keys_insert _ _ _).trans (if_neg ht), fun other key hk => ?_, ?_, ?_⟩
    · rw [membersAt_insert]
      split
      next he =>
        rw [he, membersAt_of_not_mem ht] at hk
        cases hk
      · exact hk
    · have hsum := Table.sum_insert Table.size s.entries t {}
      rw [hnone] at hsum
      exact hsum
    · exact fun hd => hd.insert List.nodup_nil

theorem grown_addMembers {t : TypeId} {members : List Member} {s after : StubSet} {added : Nat}
    (h : (addMembers t members).run.run s = (.ok added, after)) : s.Grown [] added after := by
  obtain ⟨hopen, ht, howner, rfl⟩ := of_run_addMembers h
  rw [run_addMembers_of_open hopen ht howner] at h
  obtain rfl := Except.ok.inj (Prod.mk.inj h).1
  refine ⟨?_, fun other key hk => ?_, ?_, ?_⟩
  · rw [List.append_nil]
    exact (Table.keys_insert _ _ _).trans (if_pos ht)
  · rw [membersAt_insert]
    split
    next he => exact MemberSet.mem_keys_addAll.2 (.inl (he ▸ hk))
    · exact hk
  · -- what stood under the key is part of what stands there now
    have hsum := Table.sum_insert Table.size s.entries t ((membersAt s.entries t).addAll members)
    have hle := MemberSet.size_le_size_addAll (membersAt s.entries t) members
    obtain ⟨entry, hentry⟩ := Table.exists_find?_of_mem ht
    rw [hentry, Option.map_some, Option.getD_some, ← membersAt_of_find? hentry] at hsum
    rw [memberCount_eq, memberCount_eq]
    dsimp only
    omega
  · exact fun hd => hd.insert (MemberSet.nodup_keys_addAll (hd.members t) members)

end StubSet

/-! ## Passes as they follow one another -/

namespace ClosureResult

/-- Passes, each with the stubs that it begins with: those that the pass before it ends with. -/
def stagesFrom : Table TypeId MemberSet → List PassSummary → List (Table TypeId MemberSet × PassSummary)
  | _, [] => []
  | before, summary :: rest => (before, summary) :: stagesFrom summary.snapshot rest

/-- The passes of a run, each with the stubs that it begins with. The first begins with none. -/
def stages (r : ClosureResult) : List (Table TypeId MemberSet × PassSummary) := stagesFrom {} r.passes

end ClosureResult

namespace Closure

open Closing

variable {p : Program} {options : ClosureOptions} {sources : List TypeId}

/-! ## Growth in a pass -/

theorem grown_addKeys {types new : List TypeId} {run after : Run}
    (h : (addKeys types).run.run run = (.ok new, after)) : run.stubs.Grown new 0 after.stubs ∧ new.Sublist types := by
  induction types generalizing run new with
  | nil =>
    cases h
    exact ⟨StubSet.grown_refl _, List.Sublist.refl _⟩
  | cons t rest ih =>
    obtain ⟨stubs, ⟨hadd, hrest⟩ | ⟨hadd, origin, more, -, hrest, rfl⟩⟩ := exists_of_run_addKeys_cons h
    · obtain ⟨hgrown, hsub⟩ := ih hrest
      have hkey := (StubSet.grown_addType hadd).trans hgrown
      exact ⟨hkey, hsub.cons t⟩
    · obtain ⟨hgrown, hsub⟩ := ih hrest
      have hkey := (StubSet.grown_addType hadd).trans hgrown
      exact ⟨hkey, hsub.cons_cons t⟩

theorem grown_fill {wanted : Wanted} {types : List TypeId} {run after : Run} {added : Nat}
    (h : (fill p sources wanted types).run.run run = (.ok added, after)) :
    run.stubs.Grown [] added after.stubs := by
  induction types generalizing run added with
  | nil =>
    cases h
    exact StubSet.grown_refl _
  | cons t rest ih =>
    unfold fill at h
    obtain ⟨content, mid, hcontent, h⟩ := Step.exists_of_run_bind h
    obtain ⟨seeds, mid', hseeds, h⟩ := Step.exists_of_run_bind h
    obtain ⟨count, mid'', hadd, h⟩ := Step.exists_of_run_bind h
    obtain ⟨more, last, hrest, h⟩ := Step.exists_of_run_bind h
    cases h
    obtain ⟨-, hsame, -⟩ := settles_scan (settles_stubContents p t sources) run content mid hcontent
    obtain ⟨-, hsame', -⟩ := settles_scan (settles_foldSeeds p _) mid seeds mid' hseeds
    obtain ⟨stubs, hmembers, rfl⟩ := of_run_stub hadd
    rw [hsame', hsame] at hmembers
    have hstep := (StubSet.grown_addMembers hmembers).trans (ih hrest)
    exact hstep

theorem grown_stubAll {types new : List TypeId} {run after : Run} {added : Nat}
    (h : (stubAll p sources types).run.run run = (.ok (new, added), after)) :
    run.stubs.Grown new added after.stubs ∧ new.Sublist types := by
  induction types generalizing run new added with
  | nil =>
    cases h
    exact ⟨StubSet.grown_refl _, List.Sublist.refl _⟩
  | cons t rest ih =>
    unfold stubAll at h
    obtain ⟨isNew, mid, hkey, h⟩ := Step.exists_of_run_bind h
    obtain ⟨content, mid', hcontent, h⟩ := Step.exists_of_run_bind h
    obtain ⟨count, mid'', hadd, h⟩ := Step.exists_of_run_bind h
    obtain ⟨⟨newTypes, more⟩, last, hrest, hpure⟩ := Step.exists_of_run_bind h
    obtain ⟨stubs, htype, rfl⟩ := of_run_stub hkey
    obtain ⟨-, hsame, -⟩ := settles_scan (settles_stubContents p t sources) _ content mid' hcontent
    obtain ⟨stubs', hmembers, rfl⟩ := of_run_stub hadd
    rw [hsame] at hmembers
    have hlast : ((.ok (if isNew then t :: newTypes else newTypes, count + more), last) :
        Except ClosureError (List TypeId × Nat) × Run) = (.ok (new, added), after) := hpure
    obtain ⟨hout, rfl⟩ := Prod.mk.inj hlast
    obtain ⟨hnew, rfl⟩ := Prod.mk.inj (Except.ok.inj hout)
    obtain ⟨hgrown, hsub⟩ := ih hrest
    have hstep := ((StubSet.grown_addType htype).trans (StubSet.grown_addMembers hmembers)).trans hgrown
    rw [List.append_nil, Nat.zero_add] at hstep
    rw [← hnew]
    cases isNew with
    | false => exact ⟨hstep, hsub.cons t⟩
    | true => exact ⟨hstep, hsub.cons_cons t⟩

/-- What a pass tells is what it did to the stubs: its new keys are in the order of their names. -/
structure Records (index : Nat) (before : StubSet) (summary : PassSummary) (after : StubSet) : Prop where
  index_eq : summary.index = index
  snapshot : summary.snapshot = after.entries
  sorted : summary.newTypes.Pairwise fun t t' => t.fullName ≤ t'.fullName
  grown : before.Grown summary.newTypes summary.newMembers after

theorem records_runPass {index : Nat} {run after : Run} {summary : PassSummary}
    (h : (runPass p sources index).run.run run = (.ok summary, after)) :
    Records index run.stubs summary after.stubs := by
  obtain ⟨wanted, mid, added, hwanted, hadd, hfill, hindex, hsnapshot⟩ := of_run_runPass h
  obtain ⟨-, hstubs, -⟩ := settles_wantedTypes p sources _ sources {} run wanted mid hwanted
  obtain ⟨hkeys, hsub⟩ := grown_addKeys hadd
  have hgrown := hkeys.trans (grown_fill hfill)
  rw [hstubs, List.append_nil, Nat.zero_add] at hgrown
  exact ⟨hindex, hsnapshot, (pairwise_sortOn _ _).sublist hsub, hgrown⟩

theorem records_stubEverything {run after : Run} {summary : PassSummary}
    (h : (stubEverything p sources).run.run run = (.ok summary, after)) :
    Records 1 run.stubs summary after.stubs := by
  unfold stubEverything at h
  obtain ⟨⟨newTypes, newMembers⟩, mid, hall, h⟩ := Step.exists_of_run_bind h
  cases h
  obtain ⟨hgrown, hsub⟩ := grown_stubAll hall
  exact ⟨rfl, rfl, ((pairwise_sortOn _ _).filter _).sublist hsub, hgrown⟩

/-- A pass, seen from the stubs before it: it keeps what they hold, names the keys that are new, and counts the members that are. -/
structure Adds (before : Table TypeId MemberSet) (summary : PassSummary) : Prop where
  keys : before.keys ⊆ summary.snapshot.keys
  members : ∀ t, (membersAt before t).keys ⊆ (membersAt summary.snapshot t).keys
  newTypes : summary.newTypes = sortOn TypeId.fullName (summary.snapshot.keys.filter (· ∉ before.keys))
  newMembers : summary.newMembers = (listed summary.snapshot \ listed before).card

theorem Records.adds {index : Nat} {before after : StubSet} {summary : PassSummary}
    (h : Records index before summary after) (hd : Distinct before.entries) : Adds before.entries summary := by
  have hafter := h.grown.distinct hd
  have hsplit := h.grown.keys
  have hnodup := hafter.keys
  rw [hsplit, List.nodup_append] at hnodup
  obtain ⟨-, -, hapart⟩ := hnodup
  refine ⟨?_, ?_, ?_, ?_⟩
  · rw [h.snapshot, hsplit]
    exact List.subset_append_left _ _
  · rw [h.snapshot]
    exact h.grown.members
  · have hold : before.entries.keys.filter (· ∉ before.entries.keys) = [] := by simp
    have hnew : summary.newTypes.filter (· ∉ before.entries.keys) = summary.newTypes := by
      rw [List.filter_eq_self]
      intro t ht
      exact decide_eq_true fun hk => hapart t hk t ht rfl
    rw [h.snapshot, hsplit, List.filter_append, hold, hnew, List.nil_append, sortOn_of_pairwise h.sorted]
  · have hsubset : listed before.entries ⊆ listed after.entries := by
      rintro ⟨t, s⟩ hs
      exact mem_listed.2 (h.grown.members t (mem_listed.1 hs))
    have hcount := h.grown.memberCount
    rw [StubSet.memberCount_eq, StubSet.memberCount_eq, ← card_listed hafter, ← card_listed hd] at hcount
    rw [h.snapshot, Finset.card_sdiff_of_subset hsubset]
    omega

/-! ## Growth along the passes -/

/-- Passes from an index on that begin with some stubs and end with others. -/
structure Accounted (index : Nat) (before : StubSet) (passes : List PassSummary) (after : StubSet) : Prop where
  indexes : passes.map PassSummary.index = List.range' index passes.length
  stages : ∀ stage ∈ ClosureResult.stagesFrom before.entries passes, Adds stage.1 stage.2
  grown : before.Grown (passes.flatMap PassSummary.newTypes) (passes.map PassSummary.newMembers).sum after
  last : (passes.getLast?.map PassSummary.snapshot).getD before.entries = after.entries

theorem accounted_nil (index : Nat) (stubs : StubSet) : Accounted index stubs [] stubs where
  indexes := rfl
  stages := by rintro stage ⟨⟩
  grown := StubSet.grown_refl stubs
  last := rfl

theorem Accounted.cons {index : Nat} {before middle after : StubSet} {summary : PassSummary} {rest : List PassSummary}
    (hrest : Accounted (index + 1) middle rest after) (h : Records index before summary middle)
    (hd : Distinct before.entries) : Accounted index before (summary :: rest) after where
  indexes := by
    rw [List.map_cons, List.length_cons, List.range'_succ, h.index_eq, hrest.indexes]
  stages := by
    intro stage hstage
    rcases List.mem_cons.1 hstage with rfl | hstage
    · exact h.adds hd
    · rw [h.snapshot] at hstage
      exact hrest.stages stage hstage
  grown := by
    rw [List.flatMap_cons, List.map_cons, List.sum_cons]
    exact h.grown.trans hrest.grown
  last := by
    have hlast := hrest.last
    rw [List.getLast?_cons]
    cases hl : rest.getLast? with
    | none =>
      rw [hl] at hlast
      exact h.snapshot.trans hlast
    | some pass =>
      rw [hl] at hlast
      exact hlast

theorem accounted_passesFrom {more index : Nat} {run after : Run} {list : List PassSummary}
    (h : (passesFrom p options sources more index).run.run run = (.ok list, after))
    (hd : Distinct run.stubs.entries) : Accounted index run.stubs list after.stubs := by
  induction more generalizing index run list with
  | zero =>
    cases h
    exact accounted_nil index _
  | succ more ih =>
    rcases hrun : (runPass p sources index).run.run run with ⟨e | summary, mid⟩
    · rw [run_passesFrom_of_error hrun] at h
      cases h
    · have hpass := records_runPass hrun
      have hmid := hpass.grown.distinct hd
      by_cases hrep : Repeats options summary
      · rw [run_passesFrom_of_repeats hrun hrep] at h
        obtain ⟨rest, last, hrest, h⟩ := Step.exists_of_run_bind h
        cases h
        have htail := ih hrest hmid
        exact htail.cons hpass hd
      · rw [run_passesFrom_of_not_repeats hrun hrep] at h
        cases h
        exact (accounted_nil _ _).cons hpass hd

/-- The passes of a run are accounted for, on whatever session it is made. -/
theorem accounted_passes {run after : Run} {list : List PassSummary}
    (h : (passes p options sources).run.run run = (.ok list, after)) (hd : Distinct run.stubs.entries) :
    Accounted 1 run.stubs list after.stubs ∧ list ≠ [] := by
  unfold passes at h
  split at h
  · obtain ⟨summary, mid, hone, h⟩ := Step.exists_of_run_bind h
    cases h
    exact ⟨(accounted_nil 2 _).cons (records_stubEverything hone) hd, List.cons_ne_nil _ _⟩
  · refine ⟨accounted_passesFrom h hd, ?_⟩
    rintro rfl
    rcases hrun : (runPass p sources 1).run.run run with ⟨e | summary, mid⟩
    · rw [run_passesFrom_of_error hrun] at h
      cases h
    · by_cases hrep : Repeats options summary
      · rw [run_passesFrom_of_repeats hrun hrep] at h
        obtain ⟨rest, last, -, h⟩ := Step.exists_of_run_bind h
        cases h
      · rw [run_passesFrom_of_not_repeats hrun hrep] at h
        cases h

theorem exists_passes_of_ok {names : List String} {session : Session} {r : ClosureResult}
    (h : (run p names options session).1 = .ok r) : ∃ sources list resolved after,
      (passes p options sources).run.run (start sources resolved) = (.ok list, after) ∧
        r = result sources list after := by
  rcases hclosing : (closing p names options).run.run { session } with ⟨outcome, last⟩
  unfold run at h
  rw [hclosing] at h
  obtain rfl : outcome = .ok r := h
  unfold closing at hclosing
  obtain ⟨sources, before, -, hrest⟩ := Step.exists_of_run_bind hclosing
  rw [Step.run_modify_bind] at hrest
  obtain ⟨list, after, hpasses, hrest⟩ := Step.exists_of_run_bind hrest
  cases hrest
  exact ⟨sources, list, before.session, after, hpasses, rfl⟩

theorem accounted_run {names : List String} {session : Session} {r : ClosureResult}
    (h : (run p names options session).1 = .ok r) :
    Accounted 1 { sources := r.sources } r.passes r.stubs ∧ r.passes ≠ [] ∧ Distinct r.stubs.entries := by
  obtain ⟨sources, list, resolved, after, hpasses, rfl⟩ := exists_passes_of_ok h
  obtain ⟨haccounted, hne⟩ := accounted_passes hpasses distinct_empty
  have hgrown := haccounted.grown
  refine ⟨⟨haccounted.indexes, haccounted.stages, ?_, haccounted.last⟩, hne, hgrown.distinct distinct_empty⟩
  exact ⟨hgrown.keys, hgrown.members, hgrown.memberCount, hgrown.distinct⟩

theorem exists_ok_iff {p : Program} (hp : p.Built) {names : List String} (hn : ∀ name ∈ names, p.findType? name ≠ none)
    (options : ClosureOptions) (sink : Sink) : (∃ r, (run p names options { sink }).1 = .ok r) ↔
      options.generateAll = true ∨ Reportable p (namedTypes p names) (wanting p (namedTypes p names)).lfp := by
  cases hg : options.generateAll with
  | true =>
    obtain ⟨sources, summary, after, -, hrun, -⟩ :=
      exists_run_of_generateAll hp.coherent hp.indexed hn hg { sink } (Memory.faithful_empty p)
    exact ⟨fun _ => .inl rfl, fun _ => ⟨_, congrArg Prod.fst hrun⟩⟩
  | false =>
    rcases run_cases hp hn options hg sink with ⟨e, hmuted, hfail⟩ | ⟨hreport, sources, passes, after, -, hok, -⟩
    · constructor
      · rintro ⟨r, hr⟩
        cases hr.symm.trans hfail
      · rintro (hg | hreport)
        · cases hg
        · exact absurd hreport hmuted.not_reportable
    · exact ⟨fun _ => .inr hreport, fun _ => ⟨_, hok⟩⟩

/-- **Passes account for what they add.** A run of a built program from known names comes to a result exactly if everything is to be stubbed or no call is mute that leaks with respect to the least fixed point of what is wanted. Of every result, whatever session it was come to on: the passes are numbered from one; each keeps what there was before it, names the keys that are new by full name, and counts the members that are; no key is new twice, and the keys in the end are those that were new, in that order; the counts add up to the number of members in the end; and the last pass ends with the stubs of the result. -/
theorem run_accounts {p : Program} (hp : p.Built) {names : List String} (hn : ∀ name ∈ names, p.findType? name ≠ none)
    (options : ClosureOptions) :
    (∀ sink, (∃ r, (run p names options { sink }).1 = .ok r) ↔
      options.generateAll = true ∨ Reportable p (namedTypes p names) (wanting p (namedTypes p names)).lfp) ∧
    ∀ session r, (run p names options session).1 = .ok r →
      r.passes.map PassSummary.index = List.range' 1 r.passes.length ∧
      (∀ stage ∈ r.stages, Adds stage.1 stage.2) ∧
      r.passes.Pairwise (fun pass later => pass.newTypes.Disjoint later.newTypes) ∧
      r.passes.flatMap PassSummary.newTypes = r.stubs.entries.keys ∧
      (r.passes.map PassSummary.newMembers).sum = r.stubs.memberCount ∧
      r.passes.getLast?.map PassSummary.snapshot = some r.stubs.entries := by
  refine ⟨exists_ok_iff hp hn options, fun session r hr => ?_⟩
  obtain ⟨haccounted, hne, hdistinct⟩ := accounted_run hr
  have hkeys : r.stubs.entries.keys = r.passes.flatMap PassSummary.newTypes := haccounted.grown.keys
  have hcount : r.stubs.memberCount = 0 + (r.passes.map PassSummary.newMembers).sum := haccounted.grown.memberCount
  have hnodup := hdistinct.keys
  rw [hkeys, List.nodup_flatMap] at hnodup
  refine ⟨haccounted.indexes, haccounted.stages, hnodup.2, hkeys.symm, ?_, ?_⟩
  · rw [Nat.zero_add] at hcount
    exact hcount.symm
  · have hlast := haccounted.last
    rw [List.getLast?_eq_some_getLast hne] at hlast ⊢
    exact congrArg some hlast

/-- In the zoo, the passes account for what an animal and a dog declare. -/
theorem run_accounts_zoo : (∀ name ∈ ["Foo"], Zoo.program.findType? name ≠ none) ∧
    ∃ r, (run Zoo.program ["Foo"] {} {}).1 = .ok r ∧ (∀ stage ∈ r.stages, Adds stage.1 stage.2) ∧
      r.passes.flatMap PassSummary.newTypes = r.stubs.entries.keys ∧
      (r.passes.map PassSummary.newMembers).sum = r.stubs.memberCount := by
  have hn : ∀ name ∈ ["Foo"], Zoo.program.findType? name ≠ none := by decide
  obtain ⟨hresult, haccounts⟩ := run_accounts Zoo.built hn {}
  obtain ⟨r, hr⟩ := (hresult {}).2 (.inr (by rw [namedTypes_zoo]; exact reportable_zoo _))
  obtain ⟨-, hstages, -, hkeys, hcount, -⟩ := haccounts {} r hr
  exact ⟨hn, r, hr, hstages, hkeys, hcount⟩

end Closure

end StubClosure
