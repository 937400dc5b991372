import StubClosure.Proofs.Closure.Exposure
import StubClosure.Proofs.Closure.Termination

/-!
# The two ways to stub

A run looks for the types that leaking calls ask for, or it stubs whatever can have a stub and does not look at calls at all. The second way gives more keys. It does not give more members: what is mentioned is the same for both, and the overrides that calls were refined to come to light in the first way only. So under a key of both, the two differ in such overrides and in nothing else.
-/

namespace StubClosure

/-- The stubs declare a member of that signature under the key. -/
def StubSet.Declares (stubs : StubSet) (t : TypeId) (s : Signature) : Prop :=
  ∃ members, stubs.members t = .ok members ∧ ∃ m ∈ members.values, m.toSignature = s

namespace Closure

variable {p : Program} {sources : List TypeId}

theorem Sound.declares_iff {run : Run} (h : Sound p sources run) {passes : List PassSummary} {t : TypeId}
    {s : Signature} : (result sources passes run).stubs.Declares t s ↔ s ∈ (membersAt run.stubs.entries t).keys := by
  have hkeyed := h.keyed t
  unfold StubSet.Declares StubSet.members
  rw [show (result sources passes run).stubs.entries = run.stubs.entries from rfl]
  cases hfind : run.stubs.entries.find? t with
  | none =>
    have hnone : membersAt run.stubs.entries t = {} := by rw [membersAt, hfind]; rfl
    rw [hnone]
    simp
  | some members =>
    rw [membersAt_of_find? hfind] at hkeyed ⊢
    rw [← hkeyed.map_values, List.mem_map]
    simp

theorem exists_run_of_reportable (hp : p.Built) {names : List String} (hn : ∀ name ∈ names, p.findType? name ≠ none)
    (options : ClosureOptions) (hg : options.generateAll = false) (sink : Sink)
    (hreport : Reportable p (namedTypes p names) (wanting p (namedTypes p names)).lfp) :
    ∃ r, (run p names options { sink }).1 = .ok r ∧
      ∀ t ∈ r.stubs.entries.keys, Stubbable p (namedTypes p names) t ∧
        ∀ s, r.stubs.Declares t s ↔ Exposed p (namedTypes p names) {t | t ∈ r.stubs.entries.keys} t s := by
  rcases run_cases hp hn options hg sink with
    ⟨e, hmuted, -⟩ | ⟨-, sources, passes, after, hset, hok, hsettled, -, hlfp⟩
  · exact absurd hreport hmuted.not_reportable
  · refine ⟨result sources passes after, hok, fun t ht => ?_⟩
    have hwanted : t ∈ wanting p {t | t ∈ sources} (keySet after) := by
      rw [hset, hlfp, OrderHom.map_lfp, ← hlfp]
      exact ht
    rw [← hset]
    refine ⟨hsettled.sound.stubbable t ht, fun s => ?_⟩
    rw [hsettled.sound.declares_iff, hsettled.members_iff hwanted]
    rfl

/-- **The two ways to stub.** Stubbing everything always comes to a result: its keys are the types that can have a stub, and they declare what is mentioned. Looking for what is asked for comes to a result exactly if no call is mute that leaks with respect to the least fixed point of what is wanted. Each of its keys is then a key in the other way too, and declares all that it declares there; what it declares beyond that is the target of an override that a leaking call was refined to. -/
theorem run_modes {p : Program} (hp : p.Built) {names : List String} (hn : ∀ name ∈ names, p.findType? name ≠ none)
    (options : ClosureOptions) (hg : options.generateAll = false) (sink other : Sink) :
    let named := namedTypes p names
    let found := (run p names options { sink }).1
    ∃ all, (run p names { options with generateAll := true } { sink := other }).1 = .ok all ∧
      (∀ t, t ∈ all.stubs.entries.keys ↔ Stubbable p named t) ∧
      (∀ t s, all.stubs.Declares t s ↔ Stubbable p named t ∧ s.owner = t ∧ Mentioned p named s) ∧
      (¬ Reportable p named (wanting p named).lfp →
        ∃ e, Muted p named (wanting p named).lfp e ∧ found = .error e) ∧
      (Reportable p named (wanting p named).lfp → ∃ r, found = .ok r ∧
        r.stubs.entries.keys ⊆ all.stubs.entries.keys ∧
        ∀ t ∈ r.stubs.entries.keys, ∀ s,
          (all.stubs.Declares t s → r.stubs.Declares t s) ∧
          (r.stubs.Declares t s → ¬ all.stubs.Declares t s →
            Refined p named {t | t ∈ r.stubs.entries.keys} t s)) := by
  intro named found
  obtain ⟨sources, summary, last, -, hall, hsound, hkeys, hmembers⟩ :=
    @exists_run_of_generateAll p { options with generateAll := true } hp.coherent hp.indexed names hn rfl
      { sink := other } (Memory.faithful_empty p)
  have hstubbable : ∀ t, t ∈ keySet last ↔ Stubbable p named t := fun t => Set.ext_iff.1 hkeys t
  have hdeclares : ∀ t s, (result sources [summary] last).stubs.Declares t s ↔
      Stubbable p named t ∧ s.owner = t ∧ Mentioned p named s := by
    intro t s
    rw [hsound.declares_iff, hmembers, hstubbable]
  refine ⟨_, congrArg Prod.fst hall, hstubbable, hdeclares, fun hmute => ?_, fun hreport => ?_⟩
  · rcases run_cases hp hn options hg sink with hfail | ⟨hreport, -⟩
    · exact hfail
    · exact absurd hreport hmute
  · obtain ⟨r, hok, hr⟩ := exists_run_of_reportable hp hn options hg sink hreport
    refine ⟨r, hok, fun t ht => (hstubbable t).2 (hr t ht).1, fun t ht s => ?_⟩
    obtain ⟨hcan, hexposed⟩ := hr t ht
    rw [hdeclares, hexposed]
    constructor
    · rintro ⟨-, hmentioned⟩
      exact .inl hmentioned
    · rintro (hmentioned | hrefined) hnot
      · exact absurd ⟨hcan, hmentioned⟩ hnot
      · exact hrefined

/-- In the zoo a dog can have a stub, which does not declare its `Speak` as long as nobody looks at the call on an animal. -/
theorem run_modes_zoo : (∀ name ∈ ["Foo"], Zoo.program.findType? name ≠ none) ∧
    ∃ all r, (run Zoo.program ["Foo"] { generateAll := true } { sink := {} }).1 = .ok all ∧
      (run Zoo.program ["Foo"] {} { sink := {} }).1 = .ok r ∧ r.stubs.entries.keys ⊆ all.stubs.entries.keys ∧
        Zoo.dog ∈ all.stubs.entries.keys ∧ ¬ all.stubs.Declares Zoo.dog { Zoo.speak.toSignature with owner := Zoo.dog } := by
  have hn : ∀ name ∈ ["Foo"], Zoo.program.findType? name ≠ none := by decide
  obtain ⟨all, hall, hkeys, hdeclares, -, hsearch⟩ := run_modes Zoo.built hn {} rfl {} {}
  have hreport := reportable_zoo (wanting Zoo.program {Zoo.foo}).lfp
  rw [← namedTypes_zoo] at hreport
  obtain ⟨r, hok, hsub, -⟩ := hsearch hreport
  refine ⟨hn, all, r, hall, hok, hsub, (hkeys _).2 ?_, fun h => ?_⟩
  · rw [namedTypes_zoo]
    refine ⟨by decide, by decide, ?_⟩
    rintro source rfl
    decide
  · obtain ⟨-, -, hmentioned⟩ := (hdeclares _ _).1 h
    rw [namedTypes_zoo] at hmentioned
    obtain ⟨source, rfl, t, ht, b, hb, ins, hi, m, hm, hcases⟩ := hmentioned
    obtain rfl : t = Zoo.foo := by
      have htypes : ∀ t ∈ Zoo.program.types.keys, t = Zoo.foo ∨ t.isNestedIn Zoo.foo = true → t = Zoo.foo := by decide
      exact htypes t (Table.contains_iff.1 (Program.defines_of_mem_bodiesOf hb)) ht
    obtain rfl : b = Zoo.make := by rwa [Zoo.bodiesOf_foo, List.mem_singleton] at hb
    have hnone : ∀ ins ∈ Zoo.make.instructions, ∀ m ∈ ins.member?,
        (Zoo.program.folded m).owner ≠ Zoo.dog ∧ m.owner ≠ Zoo.dog := by decide
    obtain ⟨hfolded, hown⟩ := hnone ins hi m hm
    rcases hcases with ⟨-, h⟩ | ⟨-, h⟩
    · exact hfolded (congrArg Signature.owner h).symm
    · exact hown (congrArg Signature.owner h).symm

end Closure

end StubClosure
