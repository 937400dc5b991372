import StubClosure.Proofs.Closure.LeastFixedPoint
import StubClosure.Proofs.Closure.Termination
import StubClosure.Proofs.Program.Descent
import StubClosure.Proofs.Session.Settled

/-!
# The types that are scanned

Two questions are asked about nesting. To fill a stub, a run descends from the source types into the types listed with them and reads the bodies of all that it comes by; to decide whether a type can have a stub, it asks the identity of the type whether it is nested in a source type. In a program that was built without a failure the two go together: the defined types whose bodies are read are those that are no key of the stubs in any run.

What is read is seen in the memory of the session: `Scan.Reads` tells the bodies that are remembered after some work. What can be a key is said of runs with any options, and of runs that fail as well (`CanBeKey`).
-/

namespace StubClosure

/-- The bodies that the work reads are those of some methods: after it, these are remembered and what was remembered before. -/
def Scan.Reads {α : Type} (work : Scan α) (methods : Set Signature) : Prop :=
  ∀ s : Session, ∀ key, key ∈ (work.run s).2.memory.scanned.keys ↔ key ∈ s.memory.scanned.keys ∨ key ∈ methods

namespace Scan

variable {α β : Type}

theorem reads_pure (a : α) : Reads (pure a) ∅ := fun _ _ => (or_iff_left (Set.notMem_empty _)).symm

theorem Reads.bind {work : Scan α} {next : α → Scan β} {first rest : Set Signature} (hw : Reads work first)
    (hn : ∀ a, Reads (next a) rest) : Reads (work >>= next) (first ∪ rest) := by
  intro s key
  refine (hn (work.run s).1 (work.run s).2 key).trans ?_
  rw [hw s key, or_assoc]
  exact Iff.rfl

theorem Reads.congr {work : Scan α} {methods other : Set Signature} (hw : Reads work methods)
    (h : methods = other) : Reads work other := h ▸ hw

end Scan

/-- The methods of the bodies. -/
def Body.methods (bodies : List Body) : Set Signature := {key | ∃ b ∈ bodies, b.method.toSignature = key}

namespace Reference

open Scan

variable {p : Program}

theorem reads_ofBody (p : Program) (b : Body) : Reads (ofBody p b) {b.method.toSignature} := by
  intro s key
  rw [run_ofBody, Set.mem_singleton_iff]
  cases hf : s.memory.scanned.find? b.method.toSignature with
  | some known =>
    have hmem : b.method.toSignature ∈ s.memory.scanned.keys := Table.mem_keys_of_find? hf
    exact ⟨.inl, fun h => h.elim id fun h => h ▸ hmem⟩
  | none =>
    refine Table.mem_keys_insert.trans ?_
    rw [scanned_ofInstructions, or_comm]

theorem reads_ofBodies (p : Program) (bodies : List Body) : Reads (ofBodies p bodies) (Body.methods bodies) := by
  induction bodies with
  | nil => exact (reads_pure []).congr (by simp [Body.methods])
  | cons b rest ih =>
    have hread := (reads_ofBody p b).bind fun found => ih.bind fun others => reads_pure ((b, found) :: others)
    refine hread.congr ?_
    ext key
    simp [Body.methods, eq_comm]

theorem reads_into (p : Program) (stub scanned : TypeId) :
    Reads (into p stub scanned) (Body.methods (p.bodiesOf scanned)) :=
  ((reads_ofBodies p (p.bodiesOf scanned)).bind fun _ => reads_pure _).congr (Set.union_empty _)

end Reference

namespace Closure

open Scan

variable {p : Program} {sources : List TypeId}

theorem reads_contentsFrom (p : Program) (stub : TypeId) (scanned : List TypeId) (content : MemberSet) :
    Reads (contentsFrom p stub scanned content) {key | ∃ t ∈ scanned, key ∈ Body.methods (p.bodiesOf t)} := by
  induction scanned generalizing content with
  | nil => exact (reads_pure content).congr (by simp)
  | cons t rest ih =>
    have hread := (Reference.reads_into p stub t).bind fun found => ih (content.addAll found.values)
    refine hread.congr ?_
    ext key
    simp

theorem reads_stubContents (p : Program) (stub : TypeId) (sources : List TypeId) :
    Reads (stubContents p stub sources) {key | ∃ t ∈ scannedTypes p sources, key ∈ Body.methods (p.bodiesOf t)} :=
  reads_contentsFrom p stub (scannedTypes p sources) {}

/-! ## The types that can be keys -/

/-- In some run for these source types, with whatever options and to whatever end, the type becomes a key of the stubs. -/
def CanBeKey (p : Program) (sources : List TypeId) (t : TypeId) : Prop :=
  ∃ options sink, t ∈ keySet ((passes p options sources).run.run (start sources { sink })).2

theorem stubbable_of_mem_iterate {n : Nat} {t : TypeId}
    (h : t ∈ (wanting p {t | t ∈ sources})^[n] ∅) : Stubbable p {t | t ∈ sources} t := by
  cases n with
  | zero => cases h
  | succ n =>
    rw [Function.iterate_succ_apply'] at h
    exact h.1

theorem canBeKey_iff (hp : p.Built) (sources : List TypeId) (t : TypeId) :
    CanBeKey p sources t ↔ Stubbable p {t | t ∈ sources} t := by
  have hall := fun (options : ClosureOptions) (hg : options.generateAll = true) (sink : Sink) =>
    exists_passes_of_generateAll hp.coherent hp.indexed sources hg { sink } (Memory.faithful_empty p)
  constructor
  · rintro ⟨options, sink, ht⟩
    by_cases hg : options.generateAll = true
    · obtain ⟨summary, after, hpasses, -, -, hkeys, -⟩ := hall options hg sink
      rw [hpasses, hkeys] at ht
      exact ht
    · have hsound := sound_start sources { sink } (Memory.faithful_empty p)
      have hbound := length_stubbables_le p sources
      obtain ⟨list, ended, after, hloop, hpasses⟩ :=
        @exists_passes p options sources hp.coherent (p.types.size + 2) 1 _ hsound (by omega)
      have hiter := hloop.iterated hp.coherent hsound (n := 0) (keySet_start sources _)
      unfold passes at ht
      rw [if_neg hg, hpasses, hiter.keys] at ht
      exact stubbable_of_mem_iterate ht
  · intro ht
    obtain ⟨summary, after, hpasses, -, -, hkeys, -⟩ := hall { generateAll := true } rfl {}
    refine ⟨{ generateAll := true }, {}, ?_⟩
    rw [hpasses, hkeys]
    exact ht

/-! ## The two notions of nesting -/

/-- From defined source types, the descent comes by the defined types that are compiled from source. -/
theorem mem_scannedTypes_iff (hp : p.Coherent) (hl : p.ListsNested) (hs : ∀ s ∈ sources, p.defines s = true)
    {t : TypeId} : t ∈ scannedTypes p sources ↔ p.defines t = true ∧ isSourced sources t = true := by
  unfold scannedTypes
  rw [List.mem_flatMap, isSourced_iff]
  constructor
  · rintro ⟨source, hsource, ht⟩
    refine ⟨hp.defines_of_mem_withNested hl (hs source hsource) ht, ?_⟩
    rcases hp.isNestedIn_of_mem_withNested ht with rfl | ht
    · exact .inl hsource
    · exact .inr ⟨source, hsource, ht⟩
  · rintro ⟨hd, ht | ⟨source, hsource, ht⟩⟩
    · exact ⟨t, ht, (hp.mem_withNested_iff hd).2 (.inl rfl)⟩
    · exact ⟨source, hsource, (hp.mem_withNested_iff hd).2 (.inr ht)⟩

theorem not_canBeKey_iff (hp : p.Built) {t : TypeId} (hd : p.defines t = true) :
    ¬ CanBeKey p sources t ↔ isSourced sources t = true := by
  rw [canBeKey_iff hp, ← stubbable_iff]
  unfold stubbable
  simp [hd]

/-- **The two notions of nesting agree.** In a program that was built without a failure, nesting of identities is a strict order, and there is one way only to descend into the listed types, which ends. From a defined type it comes by that type and the defined types nested in it, by each once, and by none before a type around it. So from defined source types it comes by the source types and the defined types that are nested in one, which are the defined types that are never a key; and the bodies that are read to fill a stub are those of these types. -/
theorem scanned_types {p : Program} (hp : p.CleanlyBuilt) :
    IsStrictOrder TypeId (fun inner outer => inner.isNestedIn outer = true) ∧
    WellFounded (fun inner t => inner ∈ p.nestedOf t) ∧
    (∀ descent : TypeId → List TypeId,
      (∀ t, descent t = t :: (p.nestedOf t).flatMap descent) ↔ descent = p.withNested) ∧
    (∀ t, p.defines t = true → (p.withNested t).Nodup ∧
      (p.withNested t).Pairwise (fun earlier later => ¬ earlier.isNestedIn later = true) ∧
      ∀ other, other ∈ p.withNested t ↔ other = t ∨ p.defines other = true ∧ other.isNestedIn t = true) ∧
    ∀ sources, (∀ source ∈ sources, p.defines source = true) →
      (∀ t, t ∈ scannedTypes p sources ↔ t ∈ sources ∨ p.defines t = true ∧ nestedInAny t sources = true) ∧
      (∀ t, p.defines t = true → (t ∈ scannedTypes p sources ↔ ¬ CanBeKey p sources t)) ∧
      ∀ stub, Scan.Reads (stubContents p stub sources)
        {key | ∃ t, p.defines t = true ∧ ¬ CanBeKey p sources t ∧ key ∈ Body.methods (p.bodiesOf t)} := by
  have hc := hp.built.coherent
  have hl := hp.keeps.toListsNested
  refine ⟨TypeId.isStrictOrder_isNestedIn, hc.wellFounded_nested, hc.eq_withNested_iff, fun t ht => ?_,
    fun sources hs => ?_⟩
  · refine ⟨hc.nodup_withNested hl t, hc.pairwise_withNested hl t, fun other => ?_⟩
    constructor
    · intro h
      exact (hc.isNestedIn_of_mem_withNested h).imp_right fun hn => ⟨hc.defines_of_mem_withNested hl ht h, hn⟩
    · rintro (rfl | ⟨hd, hn⟩)
      · exact (hc.mem_withNested_iff ht).2 (.inl rfl)
      · exact (hc.mem_withNested_iff hd).2 (.inr hn)
  · have hscanned : ∀ t, p.defines t = true → (t ∈ scannedTypes p sources ↔ ¬ CanBeKey p sources t) := by
      intro t ht
      rw [mem_scannedTypes_iff hc hl hs, not_canBeKey_iff hp.built ht]
      exact and_iff_right ht
    refine ⟨fun t => ?_, hscanned, fun stub => ?_⟩
    · rw [mem_scannedTypes_iff hc hl hs, isSourced, Bool.or_eq_true, and_or_left, List.contains_iff_mem]
      exact or_congr_left (and_iff_right_of_imp (hs t))
    · refine (reads_stubContents p stub sources).congr ?_
      ext key
      constructor
      · rintro ⟨t, ht, hkey⟩
        have hd := ((mem_scannedTypes_iff hc hl hs).1 ht).1
        exact ⟨t, hd, (hscanned t hd).1 ht, hkey⟩
      · rintro ⟨t, hd, ht, hkey⟩
        exact ⟨t, (hscanned t hd).2 ht, hkey⟩

/-- In the zoo, `Foo` and `Dog` with its `Kennel` are scanned if they are the sources, and only `Foo` has a body to be read; an `Animal` is a key in some run. -/
theorem scanned_types_zoo : Zoo.withKennel.CleanlyBuilt ∧ Zoo.withKennel.withNested Zoo.dog = [Zoo.dog, Zoo.kennel] ∧
    (∀ source ∈ [Zoo.foo, Zoo.dog], Zoo.withKennel.defines source = true) ∧
    ¬ CanBeKey Zoo.withKennel [Zoo.foo, Zoo.dog] Zoo.kennel ∧ CanBeKey Zoo.withKennel [Zoo.foo, Zoo.dog] Zoo.animal ∧
    (((stubContents Zoo.withKennel Zoo.animal [Zoo.foo, Zoo.dog]).run {}).2.memory.scanned.keys =
      [Zoo.make.method.toSignature]) := by
  have hd : ∀ source ∈ [Zoo.foo, Zoo.dog], Zoo.withKennel.defines source = true := by decide
  obtain ⟨-, -, -, -, hsources⟩ := scanned_types Zoo.cleanlyBuilt_withKennel
  obtain ⟨-, hkey, -⟩ := hsources _ hd
  refine ⟨Zoo.cleanlyBuilt_withKennel, by decide, hd, ?_, ?_, by decide⟩
  · exact (hkey Zoo.kennel (by decide)).1 (by decide)
  · exact not_not.1 fun h => absurd ((hkey Zoo.animal (by decide)).2 h) (by decide)

end Closure

end StubClosure
