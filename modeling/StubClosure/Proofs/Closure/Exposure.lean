import StubClosure.Proofs.Closure.LeastFixedPoint

/-!
# What stubs declare

Members are given pass by pass, each time in view of fewer keys than there are in the end. Nothing is lost by that, as the last pass wants every key and gives it all that the final keys call for; and nothing is given too much, as what is exposed in view of some keys is exposed in view of more. So the stubs of a run declare exactly what is exposed in view of all its keys.
-/

namespace StubClosure.Closure

/-- Where the loop has settled, the stubs declare exactly what is exposed. -/
theorem Settled.members_iff {p : Program} {sources : List TypeId} {after : Run} (h : Settled p sources after)
    {t : TypeId} (ht : t ∈ wanting p {t | t ∈ sources} (keySet after)) {s : Signature} :
    s ∈ (membersAt after.stubs.entries t).keys ↔ Exposed p {t | t ∈ sources} (keySet after) t s :=
  ⟨h.sound.exposed t s, h.filled t ht s⟩

/-- **The stubs declare exactly what is exposed.** Whether passes are repeated for new members or not, a run comes to a result exactly if no call is mute that leaks with respect to the least fixed point of what is wanted; and then the members under each key, as identities, are those that are exposed in view of all keys. -/
theorem run_members_eq_exposed {p : Program} (hp : p.Built) {names : List String}
    (hn : ∀ name ∈ names, p.findType? name ≠ none) (options : ClosureOptions) (hg : options.generateAll = false)
    (sink : Sink) :
    let outcome := (run p names options { sink }).1
    (¬ Reportable p (namedTypes p names) (wanting p (namedTypes p names)).lfp →
      ∃ e, Muted p (namedTypes p names) (wanting p (namedTypes p names)).lfp e ∧ outcome = .error e) ∧
    (Reportable p (namedTypes p names) (wanting p (namedTypes p names)).lfp → ∃ r, outcome = .ok r ∧
      ∀ t ∈ r.stubs.entries.keys, ∃ members, r.stubs.members t = .ok members ∧
        ∀ s, (∃ m ∈ members.values, m.toSignature = s) ↔
          Exposed p (namedTypes p names) {t | t ∈ r.stubs.entries.keys} t s) := by
  intro outcome
  rcases run_cases hp hn options hg sink with
    ⟨e, hmuted, hfail⟩ | ⟨hreport, sources, passes, after, hset, hok, hsettled, -, hlfp⟩
  · exact ⟨fun _ => ⟨e, hmuted, hfail⟩, fun hreport => absurd hreport hmuted.not_reportable⟩
  · refine ⟨fun h => absurd hreport h, fun _ => ⟨result sources passes after, hok, fun t ht => ?_⟩⟩
    obtain ⟨members, hmembers⟩ := Table.exists_find?_of_mem (show t ∈ after.stubs.entries.keys from ht)
    have hwanted : t ∈ wanting p {t | t ∈ sources} (keySet after) := by
      rw [hset, hlfp, OrderHom.map_lfp, ← hlfp]
      exact ht
    have hiff := fun s => hsettled.members_iff hwanted (s := s)
    have hkeyed := hsettled.sound.keyed t
    rw [membersAt_of_find? hmembers] at hiff hkeyed
    refine ⟨members, ?_, fun s => ?_⟩
    · unfold StubSet.members
      rw [show (result sources passes after).stubs.entries = after.stubs.entries from rfl, hmembers]
    · rw [← List.mem_map (f := fun m : Member => m.toSignature), hkeyed.map_values, hiff s, hset]
      rfl

/-- In the zoo, the stubs declare what is exposed in view of an animal and a dog. -/
theorem run_members_zoo : (∀ name ∈ ["Foo"], Zoo.program.findType? name ≠ none) ∧
    ∃ r, (run Zoo.program ["Foo"] { repassOnNewMembers := true } { sink := {} }).1 = .ok r ∧
      ∀ t ∈ r.stubs.entries.keys, ∃ members, r.stubs.members t = .ok members ∧
        ∀ s, (∃ m ∈ members.values, m.toSignature = s) ↔
          Exposed Zoo.program {Zoo.foo} {t | t ∈ r.stubs.entries.keys} t s := by
  have hn : ∀ name ∈ ["Foo"], Zoo.program.findType? name ≠ none := by decide
  have hrun := (run_members_eq_exposed Zoo.built hn { repassOnNewMembers := true } rfl {}).2
  rw [namedTypes_zoo] at hrun
  exact ⟨hn, hrun (reportable_zoo _)⟩

end StubClosure.Closure
