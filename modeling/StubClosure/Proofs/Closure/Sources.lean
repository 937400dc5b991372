import StubClosure.Manifest
import StubClosure.Proofs.Closure.Origins
import StubClosure.Proofs.Closure.Safety

/-!
# The names of a run

A run is asked for by names, which may come in any order and more than once. They are resolved to types, each kept once, and the types are sorted by full name. No two of these types have one name, because each was found under its own, so nothing of the order of the names is left: lists of the same known names have the same run (`run_names`). Only if a name is not known does the order decide on something, which is the name that the run fails on.
-/

namespace StubClosure.Closure

variable {p : Program} {names names' : List String}

theorem namedTypes_congr (hs : ∀ name, name ∈ names' ↔ name ∈ names) : namedTypes p names' = namedTypes p names := by
  ext t
  simp [namedTypes, hs]

theorem eq_of_mem_namedTypes (hp : p.Built) {t other : TypeId} (ht : t ∈ namedTypes p names)
    (ho : other ∈ namedTypes p names) (h : t.fullName = other.fullName) : t = other := by
  have hfound := find?_names_of_mem_namedTypes hp ht
  rw [h, find?_names_of_mem_namedTypes hp ho] at hfound
  exact (Option.some.inj hfound).symm

theorem run_resolveSources_congr (hp : p.Built) (hn : ∀ name ∈ names, p.findType? name ≠ none)
    (hs : ∀ name, name ∈ names' ↔ name ∈ names) (run : Run) :
    (resolveSources p names').run.run run = (resolveSources p names).run.run run := by
  obtain ⟨types, htypes, hset⟩ := run_resolveNames hn run
  obtain ⟨types', htypes', hset'⟩ := run_resolveNames (fun name h => hn name ((hs name).1 h)) run
  have hmem : ∀ t, t ∈ (Table.firstBy id types).keys ↔ t ∈ namedTypes p names := by
    intro t
    rw [Table.mem_keys_firstBy, ← hset]
    simp
  have hmem' : ∀ t, t ∈ (Table.firstBy id types').keys ↔ t ∈ namedTypes p names := by
    intro t
    rw [Table.mem_keys_firstBy, ← namedTypes_congr hs, ← hset']
    simp
  have hperm : (Table.firstBy id types').keys.Perm (Table.firstBy id types).keys := by
    apply (List.perm_ext_iff_of_nodup (Table.nodup_keys_firstBy id types') (Table.nodup_keys_firstBy id types)).2
    intro t
    rw [hmem, hmem']
  have hsorted : sortOn TypeId.fullName (Table.firstBy id types').keys =
      sortOn TypeId.fullName (Table.firstBy id types).keys := by
    apply sortOn_congr hperm
    intro t ht other ho he
    exact eq_of_mem_namedTypes hp ((hmem' t).1 ht) ((hmem' other).1 ho) he
  unfold resolveSources
  rw [Step.run_bind_of_ok htypes, Step.run_bind_of_ok htypes', hsorted]

theorem run_congr_names (hp : p.Built) (hn : ∀ name ∈ names, p.findType? name ≠ none)
    (hs : ∀ name, name ∈ names' ↔ name ∈ names) (options : ClosureOptions) (session : Session) :
    run p names' options session = run p names options session := by
  unfold run closing
  rw [Step.run_bind, Step.run_bind, run_resolveSources_congr hp hn hs]

/-- If some name is not known, the run fails on the first such name. -/
theorem exists_run_unresolved {name : String} (hmem : name ∈ names) (hn : p.findType? name = none)
    (options : ClosureOptions) (session : Session) :
    ∃ first ∈ names, p.findType? first = none ∧ (run p names options session).1 = .error (.unresolved first) := by
  cases hfirst : names.find? fun other => (p.findType? other).isNone with
  | none =>
    have hknown := List.find?_eq_none.1 hfirst name hmem
    rw [hn] at hknown
    simp at hknown
  | some first =>
    obtain ⟨hunknown, before, after, rfl, hb⟩ := List.find?_eq_some_iff_append.1 hfirst
    have hfirst : p.findType? first = none := Option.isNone_iff_eq_none.1 hunknown
    refine ⟨first, by simp, hfirst, (run_of_unknown (fun other ho => ?_) hfirst options session).1⟩
    apply Option.isSome_iff_ne_none.1
    simpa using hb other ho

/-- **The order of names does not matter, nor does repetition.** Let two lists hold the same names. If one of these is not known, then both runs fail on a name that is not known. Else they are the same run, with the same reports: it has a result if it is to stub everything, or if no mute call leaks with respect to the least fixed point, and then both give the same manifest; if not, it fails on a mute call. -/
theorem run_names {p : Program} (hp : p.Built) {names names' : List String}
    (hs : ∀ name, name ∈ names' ↔ name ∈ names) (options : ClosureOptions) (sink : Sink) :
    let ended := run p names options { sink }
    let ended' := run p names' options { sink }
    let reportable := Reportable p (namedTypes p names) (wanting p (namedTypes p names)).lfp
    ((∃ name ∈ names, ¬ p.Knows name) →
      (∃ first ∈ names, ¬ p.Knows first ∧ ended.1 = .error (.unresolved first)) ∧
      ∃ first ∈ names', ¬ p.Knows first ∧ ended'.1 = .error (.unresolved first)) ∧
    ((∀ name ∈ names, p.Knows name) → ended' = ended ∧
      (options.generateAll = true ∨ reportable → ∃ r r', ended.1 = .ok r ∧ ended'.1 = .ok r' ∧ r' = r ∧
        ∀ title, (Manifest.build r' p title).compact = (Manifest.build r p title).compact) ∧
      (options.generateAll = false → ¬ reportable →
        ∃ e, Muted p (namedTypes p names) (wanting p (namedTypes p names)).lfp e ∧ ended.1 = .error e)) := by
  intro ended ended' reportable
  have hunknown : ∀ name, p.findType? name = none ↔ ¬ p.Knows name := by
    intro name
    rw [← hp.indexed.findType?_ne_none_iff, not_not]
  refine ⟨?_, fun hknown => ?_⟩
  · rintro ⟨name, hmem, hn⟩
    simp only [← hunknown] at hn ⊢
    exact ⟨exists_run_unresolved hmem hn options { sink }, exists_run_unresolved ((hs name).2 hmem) hn options { sink }⟩
  · have hn : ∀ name ∈ names, p.findType? name ≠ none :=
      fun name h => hp.indexed.findType?_ne_none_iff.2 (hknown name h)
    have hsame : ended' = ended := run_congr_names hp hn hs options { sink }
    have hresult : (∃ r, ended.1 = .ok r) → ∃ r r', ended.1 = .ok r ∧ ended'.1 = .ok r' ∧ r' = r ∧
        ∀ title, (Manifest.build r' p title).compact = (Manifest.build r p title).compact := by
      rintro ⟨r, hr⟩
      exact ⟨r, r, hr, hsame ▸ hr, rfl, fun _ => rfl⟩
    refine ⟨hsame, fun h => hresult ?_, fun hg hno => ?_⟩
    · by_cases hg : options.generateAll = true
      · obtain ⟨sources, summary, after, -, hrun, -⟩ :=
          exists_run_of_generateAll hp.coherent hp.indexed hn hg { sink } (Memory.faithful_empty p)
        exact ⟨_, congrArg Prod.fst hrun⟩
      · rcases run_cases hp hn options (Bool.eq_false_iff.2 hg) sink with
          ⟨e, hmuted, -⟩ | ⟨-, sources, passes, after, -, hok, -⟩
        · exact absurd (h.resolve_left hg) hmuted.not_reportable
        · exact ⟨_, hok⟩
    · rcases run_cases hp hn options hg sink with hfail | ⟨hreport, -⟩
      · exact hfail
      · exact absurd hreport hno

/-- In the zoo, asking for `Foo` twice and in any order with `Dog` makes no difference. -/
theorem run_names_zoo :
    (∀ name, name ∈ ["Dog", "Foo", "Foo"] ↔ name ∈ ["Foo", "Dog"]) ∧
    (∀ name ∈ ["Foo", "Dog"], Zoo.program.Knows name) ∧
    run Zoo.program ["Dog", "Foo", "Foo"] {} { sink := {} } = run Zoo.program ["Foo", "Dog"] {} { sink := {} } := by
  have hs : ∀ name, name ∈ ["Dog", "Foo", "Foo"] ↔ name ∈ ["Foo", "Dog"] := by
    intro name
    simp only [List.mem_cons, List.not_mem_nil, or_false, or_self]
    exact or_comm
  have hknown : ∀ name ∈ ["Foo", "Dog"], Zoo.program.Knows name := by
    intro name hname
    rw [List.mem_cons, List.mem_singleton] at hname
    rcases hname with rfl | rfl
    · exact ⟨Zoo.foo, by decide, by decide⟩
    · exact ⟨Zoo.dog, by decide, by decide⟩
  exact ⟨hs, hknown, ((run_names Zoo.built hs {} {}).2 hknown).1⟩

end StubClosure.Closure
