import StubClosure.Proofs.Closure.Discovery

/-!
# What a pass has to stub

The discoveries of all source types are put together in one table: of the types asked for, those that can have a stub, each with the overrides that calls on it were refined to. `ends_wantedTypes` says what the table holds, and that each of its types has an origin.
-/

namespace StubClosure.Closure

open Closing

variable {p : Program} {sources known : List TypeId}

theorem isSourced_iff {t : TypeId} :
    isSourced sources t = true ↔ t ∈ sources ∨ ∃ source ∈ sources, t.isNestedIn source = true := by
  simp [isSourced, nestedInAny]

theorem stubbable_iff {t : TypeId} : stubbable p sources t = true ↔ Stubbable p {s | s ∈ sources} t := by
  have h : (!isSourced sources t) = true ↔ ¬ isSourced sources t = true := by simp
  unfold stubbable
  rw [Bool.and_eq_true, h, isSourced_iff]
  simp only [Stubbable, Set.mem_ofPred_eq, not_or, not_exists, not_and]
  tauto

namespace Wanted

/-- Takes in one type that is asked for. -/
def take (d : Discovery) (wanted : Wanted) (t : TypeId) : Wanted :=
  wanted.insert t ((membersAt wanted t).addAll (membersAt d.seeds t).values)

/-- What the table holds once some call sites have been taken in. -/
structure Collects (p : Program) (sources : List TypeId) (sites : Set CallSite) (wanted : Wanted) : Prop where
  nodup : wanted.keys.Nodup
  keyed : ∀ t, (membersAt wanted t).IsKeyed
  keys : ∀ t, t ∈ wanted.keys ↔ Stubbable p {s | s ∈ sources} t ∧ ∃ c ∈ sites, c.AsksFor t
  seeds : ∀ t s, s ∈ (membersAt wanted t).keys ↔ Stubbable p {s | s ∈ sources} t ∧
    ∃ c ∈ sites, c.refined? = some t ∧ ∃ m, p.override? t c.callee = some m ∧ m.toSignature = s

variable {d : Discovery} {wanted : Wanted} {types : List TypeId}

theorem nodup_foldl_take (h : wanted.keys.Nodup) : (types.foldl (take d) wanted).keys.Nodup := by
  induction types generalizing wanted with
  | nil => exact h
  | cons t rest ih => exact ih (Table.nodup_keys_insert h _ _)

theorem keyed_foldl_take (h : ∀ t, (membersAt wanted t).IsKeyed) (t : TypeId) :
    (membersAt (types.foldl (take d) wanted) t).IsKeyed := by
  induction types generalizing wanted with
  | nil => exact h t
  | cons first rest ih =>
    refine ih fun other => ?_
    rw [take, membersAt_insert]
    split
    · exact MemberSet.isKeyed_addAll (h first) _
    · exact h other

theorem mem_keys_foldl_take {t : TypeId} :
    t ∈ (types.foldl (take d) wanted).keys ↔ t ∈ wanted.keys ∨ t ∈ types := by
  induction types generalizing wanted with
  | nil => simp
  | cons first rest ih =>
    rw [List.foldl_cons, ih, take, Table.mem_keys_insert, List.mem_cons]
    tauto

theorem mem_membersAt_foldl_take (hd : ∀ t, (membersAt d.seeds t).IsKeyed) {t : TypeId} {s : Signature} :
    s ∈ (membersAt (types.foldl (take d) wanted) t).keys ↔
      s ∈ (membersAt wanted t).keys ∨ t ∈ types ∧ s ∈ (membersAt d.seeds t).keys := by
  induction types generalizing wanted with
  | nil => simp
  | cons first rest ih =>
    rw [List.foldl_cons, ih, take, membersAt_insert, List.mem_cons]
    split
    next he =>
      subst he
      rw [MemberSet.mem_keys_addAll, (hd t).map_values]
      tauto
    next he => simp only [he, false_or]

theorem Collects.foldl_take {p : Program} {sources : List TypeId} {sites more : Set CallSite}
    (hw : Collects p sources sites wanted) (hd : d.Gathers p more)
    (ht : ∀ t, t ∈ types ↔ t ∈ d.wanted ∧ stubbable p sources t = true) :
    Collects p sources (sites ∪ more) (types.foldl (take d) wanted) where
  nodup := nodup_foldl_take hw.nodup
  keyed := keyed_foldl_take hw.keyed
  keys := by
    intro t
    rw [mem_keys_foldl_take, hw.keys, ht, hd.wanted, stubbable_iff]
    simp only [Set.mem_union]
    grind
  seeds := by
    intro t s
    rw [mem_membersAt_foldl_take hd.seeds_keyed, hw.seeds, hd.seeds, ht, hd.wanted, stubbable_iff]
    have hasks : ∀ c : CallSite, c.refined? = some t → c.AsksFor t := fun c h => .inr h
    simp only [Set.mem_union]
    grind

theorem collects_empty (p : Program) (sources : List TypeId) : Collects p sources ∅ {} where
  nodup := List.nodup_nil
  keyed := fun _ => MemberSet.isKeyed_empty
  keys := by simp
  seeds := by simp [membersAt]

end Wanted

theorem mem_keys_foldl_insertNew {types : List TypeId} {origins : Table TypeId TypeId} {source t : TypeId} :
    t ∈ (types.foldl (fun origins t => origins.insertNew t source) origins).keys ↔ t ∈ origins.keys ∨ t ∈ types := by
  induction types generalizing origins with
  | nil => simp
  | cons first rest ih =>
    rw [List.foldl_cons, ih, Table.mem_keys_insertNew, List.mem_cons]
    tauto

theorem run_want (source : TypeId) (d : Discovery) (wanted : Wanted) (types : List TypeId) (run : Run) :
    (want source d wanted types).run.run run =
      (.ok (types.foldl (Wanted.take d) wanted),
        { run with origins := types.foldl (fun origins t => origins.insertNew t source) run.origins }) := rfl

/-- What putting discoveries together comes to: the table for the call sites, with an origin for each of its types. -/
theorem ends_wantedTypes (hp : p.Coherent) {rest : List TypeId} {sites : Set CallSite} {wanted : Wanted}
    (hw : Answers (Wanted.Collects p sources) sites (.ok wanted)) {run : Run} (hf : run.session.memory.Faithful p)
    (ho : ∀ t ∈ wanted.keys, t ∈ run.origins.keys) :
    Step.Ends (wantedTypes p sources known rest wanted) run fun outcome after =>
      Answers (Wanted.Collects p sources) (sites ∪ leaking p {s | s ∈ rest} {t | t ∈ known}) outcome ∧
        after.session.memory.Faithful p ∧ after.stubs = run.stubs ∧
          ∀ wanted', outcome = .ok wanted' → ∀ t ∈ wanted'.keys, t ∈ after.origins.keys := by
  induction rest generalizing sites wanted run with
  | nil =>
    have hsites : sites ∪ leaking p {s | s ∈ []} {t | t ∈ known} = sites := by simp [leaking]
    rw [hsites]
    refine ⟨hw, hf, rfl, ?_⟩
    rintro wanted' h
    obtain rfl := Except.ok.inj h
    exact ho
  | cons source rest ih =>
    have hsites : sites ∪ leaking p {s | s ∈ source :: rest} {t | t ∈ known} =
        (sites ∪ {c | c.Leaks p source {t | t ∈ known}}) ∪ leaking p {s | s ∈ rest} {t | t ∈ known} := by
      ext c
      simp only [leaking, Set.mem_union, Set.mem_ofPred_eq, List.mem_cons, exists_eq_or_imp]
      tauto
    rw [hsites]
    refine (finds_relatedCalls hp source known run hf).bind ?_ ?_
    · rintro e after ⟨he, hm, hs, -⟩
      refine ⟨Answers.mono_error he ?_, hm, hs, by rintro _ ⟨⟩⟩
      intro c hc
      exact .inl (.inr hc)
    · rintro d after ⟨⟨hd, hmute⟩, hm, hs, ho'⟩
      rw [ends_scan_bind]
      refine Step.Ends.bind_of_run (run_want _ _ _ _ _) (Step.Ends.mono (ih ⟨hw.1.foldl_take hd ?_, ?_⟩ hm ?_) ?_)
      · intro t
        rw [List.mem_filter, mem_sortOn]
      · rintro c (hc | hc)
        · exact hw.2 c hc
        · exact hmute c hc
      · intro t ht
        rw [Wanted.mem_keys_foldl_take] at ht
        rw [mem_keys_foldl_insertNew, ho']
        exact ht.imp_left (ho t)
      · rintro outcome last ⟨hout, hlast, hstubs, horigins⟩
        exact ⟨hout, hlast, hstubs.trans hs, horigins⟩

end StubClosure.Closure
