import Mathlib.Data.Finset.Card
import Mathlib.Data.Finset.Dedup
import StubClosure.Proofs.Program.Built
import StubClosure.Proofs.StubSet.Listed

/-!
# The history of a stub set

A stub set comes about by calls that add a key, add members to a key, or freeze it, in any order, and some of them fail. Whatever a call does, it does under the one key that it names (`StubStep.after_cases`): nothing changes, or members of that key are added under it, or the set is frozen. Everything else follows from this one lemma: what holds of a stub set at any time (`Orderly`), what a call keeps (`Kept`), and that nothing is added any more once the set is frozen (`foldl_after_of_frozen`). What is listed depends on the mapping alone and not on the calls that led to it.
-/

namespace StubClosure

/-- A call that may change a stub set. -/
inductive StubStep where
  | addType (t : TypeId)
  | addMembers (t : TypeId) (members : List Member)
  | freeze

namespace StubStep

/-- The key that the call names. -/
def key? : StubStep → Option TypeId
  | addType t | addMembers t _ => some t
  | freeze => none

/-- The stub set that the call leaves, whether it fails or not. -/
def after : StubStep → StubSet → StubSet
  | addType t, s => ((StubSet.addType t).run.run s).2
  | addMembers t members, s => ((StubSet.addMembers t members).run.run s).2
  | freeze, s => s.freeze

end StubStep

namespace StubSet

/-- The stub set that calls lead to, one after the other, from one without keys. -/
def made (sources : List TypeId) (steps : List StubStep) : StubSet :=
  steps.foldl (fun s step => step.after s) { sources }

/-- The stub set with more members under a key. -/
def withMembers (s : StubSet) (t : TypeId) (more : List Member) : StubSet :=
  { s with entries := s.entries.insert t ((membersAt s.entries t).addAll more) }

end StubSet

open StubSet

/-! ## One call -/

namespace StubStep

variable {s : StubSet}

/-- **What a call can do**: nothing, or add members under the key that it names, or freeze the set. -/
theorem after_cases (step : StubStep) (s : StubSet) :
    step.after s = s ∨
      (∃ t more, step.key? = some t ∧ s.isFrozen = false ∧ (t ∈ s.entries.keys ∨ t ∉ s.sources) ∧
        (∀ m ∈ more, m.owner = t) ∧ step.after s = s.withMembers t more) ∨
      step.after s = s.freeze := by
  cases step with
  | addType t =>
    simp only [after, run_addType]
    split
    · exact .inl rfl
    next hopen =>
      split
      · exact .inl rfl
      next hsource =>
        split
        · exact .inl rfl
        next hnew =>
          have hnot : t ∉ s.entries.keys := fun ht => hnew (Table.contains_iff.2 ht)
          refine .inr (.inl ⟨t, [], rfl, Bool.eq_false_iff.2 hopen, .inr hsource, by simp, ?_⟩)
          rw [withMembers, membersAt_of_not_mem hnot]
          rfl
  | addMembers t members =>
    simp only [after, run_addMembers]
    split
    · exact .inl rfl
    next hopen =>
      cases hentry : s.entries.find? t with
      | none => exact .inl rfl
      | some entry =>
        have hkey : t ∈ s.entries.keys := Table.mem_keys_of_find? hentry
        -- where a foreign member ends the call, the ones before it are in
        refine .inr (.inl ⟨t, members.takeWhile fun m => m.owner = t, rfl, Bool.eq_false_iff.2 hopen, .inl hkey, ?_, ?_⟩)
        · intro m hm
          simpa using List.mem_takeWhile_imp hm
        · rw [withMembers, membersAt_of_find? hentry]
  | freeze => exact .inr (.inr rfl)

/-- The call takes nothing away, and leaves every entry alone but the one that it names. -/
structure Kept (step : StubStep) (s : StubSet) : Prop where
  sources : (step.after s).sources = s.sources
  keys : s.entries.keys <+: (step.after s).entries.keys
  members : ∀ t, (membersAt s.entries t).entries <+: (membersAt (step.after s).entries t).entries
  others : ∀ t, step.key? ≠ some t → (step.after s).entries.find? t = s.entries.find? t

theorem kept_of_same {step : StubStep} (hs : (step.after s).sources = s.sources)
    (he : (step.after s).entries = s.entries) : step.Kept s where
  sources := hs
  keys := by simp [he]
  members := by simp [he]
  others := by simp [he]

theorem kept (step : StubStep) (s : StubSet) : step.Kept s := by
  rcases step.after_cases s with h | ⟨t, more, hkey, -, -, -, h⟩ | h
  · exact kept_of_same (by rw [h]) (by rw [h])
  · constructor
    · rw [h]
      rfl
    · rw [h]
      exact Table.keys_prefix_insert _ _ _
    · intro other
      rw [h, withMembers, membersAt_insert]
      split
      next he =>
        rw [he]
        exact MemberSet.entries_prefix_addAll _ more
      · exact List.prefix_rfl
    · intro other hne
      have hother : other ≠ t := fun he => hne (he ▸ hkey)
      rw [h, withMembers, Table.find?_insert, if_neg hother]
  · exact kept_of_same (by rw [h]; rfl) (by rw [h]; rfl)

end StubStep

/-! ## Any number of calls -/

namespace StubSet

/-- What holds of a stub set for the sources at any time. Every key, and every member under its key, stands there once. -/
structure Orderly (sources : List TypeId) (s : StubSet) : Prop extends Distinct s.entries where
  sources_eq : s.sources = sources
  outside : ∀ t ∈ s.entries.keys, t ∉ sources
  keyed : ∀ t, (membersAt s.entries t).IsKeyed
  owned : ∀ t, ∀ m ∈ (membersAt s.entries t).keys, m.owner = t

variable {sources : List TypeId} {s : StubSet}

theorem orderly_empty (sources : List TypeId) : Orderly sources { sources } where
  toDistinct := distinct_empty
  sources_eq := rfl
  outside := by
    intro t h
    cases h
  keyed := fun _ => MemberSet.isKeyed_empty
  owned := by
    intro t m h
    cases h

theorem Orderly.withMembers (h : s.Orderly sources) {t : TypeId} (ht : t ∈ s.entries.keys ∨ t ∉ sources)
    {more : List Member} (ho : ∀ m ∈ more, m.owner = t) : (s.withMembers t more).Orderly sources where
  toDistinct := h.toDistinct.insert (MemberSet.nodup_keys_addAll (h.members t) more)
  sources_eq := h.sources_eq
  outside := by
    intro other hother
    rcases Table.mem_keys_insert.1 hother with rfl | hother
    · exact ht.elim (h.outside other) id
    · exact h.outside other hother
  keyed := by
    intro other
    rw [StubSet.withMembers, membersAt_insert]
    split
    · exact MemberSet.isKeyed_addAll (h.keyed t) more
    · exact h.keyed other
  owned := by
    intro other m hm
    rw [StubSet.withMembers, membersAt_insert] at hm
    split at hm
    next he =>
      rw [he]
      rcases MemberSet.mem_keys_addAll.1 hm with hm | hm
      · exact h.owned t m hm
      · obtain ⟨member, hmember, rfl⟩ := List.mem_map.1 hm
        exact ho member hmember
    · exact h.owned other m hm

theorem Orderly.after (h : s.Orderly sources) (step : StubStep) : (step.after s).Orderly sources := by
  rcases step.after_cases s with hs | ⟨t, more, -, -, ht, ho, hs⟩ | hs
  · rwa [hs]
  · rw [hs]
    rw [h.sources_eq] at ht
    exact h.withMembers ht ho
  · rw [hs]
    exact ⟨h.toDistinct, h.sources_eq, h.outside, h.keyed, h.owned⟩

theorem orderly_made (sources : List TypeId) (steps : List StubStep) : (made sources steps).Orderly sources := by
  unfold made
  have hstart := orderly_empty sources
  generalize ({ sources } : StubSet) = s at hstart ⊢
  induction steps generalizing s with
  | nil => exact hstart
  | cons step rest ih => exact ih (step.after s) (hstart.after step)

theorem foldl_after_of_frozen (h : s.isFrozen = true) (steps : List StubStep) :
    steps.foldl (fun s step => step.after s) s = s := by
  induction steps with
  | nil => rfl
  | cons step rest ih =>
    have hstep : step.after s = s := by
      rcases step.after_cases s with hs | ⟨_, _, -, hopen, -⟩ | hs
      · exact hs
      · rw [h] at hopen
        cases hopen
      · rw [hs, freeze, ← h]
    rw [List.foldl_cons, hstep, ih]

theorem made_freeze (sources : List TypeId) (steps later : List StubStep) :
    made sources (steps ++ .freeze :: later) = (made sources steps).freeze := by
  unfold made
  rw [List.foldl_append, List.foldl_cons]
  exact foldl_after_of_frozen rfl later

/-! ## What a call tells -/

/-- The members that a set does not hold yet, each counted once. -/
def newTo (set : MemberSet) (members : List Member) : Finset Signature :=
  (members.map (·.toSignature)).toFinset \ set.keys.toFinset

theorem size_addAll {set : MemberSet} (h : set.keys.Nodup) (members : List Member) :
    (set.addAll members).size = set.size + (newTo set members).card := by
  have hkeys : (set.addAll members).keys.toFinset = (members.map (·.toSignature)).toFinset ∪ set.keys.toFinset := by
    ext s
    simp only [List.mem_toFinset, Finset.mem_union]
    exact MemberSet.mem_keys_addAll.trans or_comm
  have hcard := Finset.card_sdiff_add_card (members.map (·.toSignature)).toFinset set.keys.toFinset
  rw [← hkeys, List.toFinset_card_of_nodup h, List.toFinset_card_of_nodup (MemberSet.nodup_keys_addAll h members),
    Table.length_keys, Table.length_keys] at hcard
  unfold newTo
  omega

/-- What adding tells: whether a key is new, and how many members are. It fails if the set is frozen, on a source type, on a key that is not there, and on a member that another type declares. -/
structure Tells (sources : List TypeId) (s : StubSet) : Prop where
  addsType : ∀ t, (∃ isNew, ((addType t).run.run s).1 = .ok isNew) ↔ s.isFrozen = false ∧ t ∉ sources
  isNew : ∀ t isNew, ((addType t).run.run s).1 = .ok isNew → (isNew = true ↔ t ∉ s.entries.keys)
  addsMembers : ∀ t members, (∃ added, ((addMembers t members).run.run s).1 = .ok added) ↔
    s.isFrozen = false ∧ t ∈ s.entries.keys ∧ ∀ m ∈ members, m.owner = t
  added : ∀ t members added, ((addMembers t members).run.run s).1 = .ok added →
    (membersAt ((StubStep.addMembers t members).after s).entries t).size = (membersAt s.entries t).size + added ∧
      added = (newTo (membersAt s.entries t) members).card

theorem Orderly.tells (h : s.Orderly sources) : s.Tells sources where
  addsType := by
    intro t
    rw [run_addType, h.sources_eq]
    cases hopen : s.isFrozen with
    | true => simp
    | false =>
      by_cases ht : t ∈ sources
      · simp [ht]
      · cases hc : s.entries.contains t <;> simp [ht]
  isNew := by
    intro t isNew htold
    rw [run_addType] at htold
    split at htold
    · cases htold
    · split at htold
      · cases htold
      · split at htold
        next hc =>
          cases htold
          simp [Table.contains_iff.1 hc]
        next hc =>
          cases htold
          simpa [Table.contains_iff] using hc
  addsMembers := by
    intro t members
    constructor
    · rintro ⟨added, htold⟩
      obtain ⟨hopen, ht, ho, -⟩ := of_run_addMembers (Prod.ext htold rfl)
      exact ⟨hopen, ht, ho⟩
    · rintro ⟨hopen, ht, ho⟩
      rw [run_addMembers_of_open hopen ht ho]
      exact ⟨_, rfl⟩
  added := by
    intro t members added htold
    obtain ⟨hopen, ht, ho, -⟩ := of_run_addMembers (Prod.ext htold rfl)
    have hsize := size_addAll (h.members t) members
    rw [run_addMembers_of_open hopen ht ho] at htold
    obtain rfl := Except.ok.inj htold
    simp only [StubStep.after, run_addMembers_of_open hopen ht ho, membersAt_insert, if_true]
    omega

/-- **Whatever is done to a stub set**, at any time none of its keys is a source type and every member stands under the type that declares it. Any further call, whether it fails or not, takes nothing away and leaves alone every entry but the one that it names. Adding a key tells whether it is new, and adding members tells how many there are more, each signature counted once. Once the set is frozen every attempt to add fails, and nothing changes any more. Keys with different full names are listed in strict order of these names, and then the keys listed, and the members listed under each if their sort keys differ, are the same for every history that leads to the same stubs. -/
theorem history (sources : List TypeId) (steps : List StubStep) :
    let s := made sources steps
    (∀ t, s.contains t = true → t ∉ sources) ∧
    (∀ t set, s.members t = .ok set → ∀ m ∈ set.values, m.owner = t) ∧
    (∀ step : StubStep, step.Kept s) ∧
    s.Tells sources ∧
    (∀ later, made sources (steps ++ .freeze :: later) = s.freeze ∧ ∀ t members,
      (addType t).run.run s.freeze = (.error .frozen, s.freeze) ∧
      (addMembers t members).run.run s.freeze = (.error .frozen, s.freeze)) ∧
    (s.NamesApart → s.keys.Pairwise (fun t t' => t.fullName < t'.fullName) ∧
      ∀ sources' steps', s.same (made sources' steps') = true →
        s.keys = (made sources' steps').keys ∧
        (s.SortsApart → s.listing = (made sources' steps').listing)) := by
  intro s
  have hs : s.Orderly sources := orderly_made sources steps
  refine ⟨fun t ht => hs.outside t (Table.contains_iff.1 ht), ?_, fun step => step.kept s, hs.tells, ?_, ?_⟩
  · intro t set hset m hm
    have hfound : s.entries.find? t = some set := by
      unfold members at hset
      cases hf : s.entries.find? t with
      | none =>
        rw [hf] at hset
        cases hset
      | some entry =>
        rw [hf] at hset
        exact congrArg some (Except.ok.inj hset)
    have hkeyed := hs.keyed t
    have howned := hs.owned t
    rw [membersAt_of_find? hfound] at hkeyed howned
    exact howned m.toSignature (hkeyed.mem_keys hm)
  · intro later
    exact ⟨made_freeze sources steps later, fun t members => ⟨run_addType t s.freeze, run_addMembers t members s.freeze⟩⟩
  · intro hn
    refine ⟨pairwise_keys hs.keys hn, fun sources' steps' hsame => ?_⟩
    refine ⟨keys_of_same hs.toDistinct hn hsame, fun hapart => ?_⟩
    exact listing_of_same hs.toDistinct hs.keyed (orderly_made sources' steps').keyed hn hapart hsame

end StubSet

namespace Zoo

def bark : Member := .method dog "Bark" [] .void

/-- Many calls in vain: on the source type, on a key that is not there yet, with a member that another type declares, and on the frozen set. -/
def stubbedSlowly : List StubStep :=
  [.addType foo, .addMembers dog [bark], .addType dog, .addType animal, .addMembers animal [speak, bark, speak],
   .addMembers dog [bark, bark.withRole .getter], .addType dog, .freeze, .addMembers dog []]

def stubbedFast : List StubStep := [.addType animal, .addType dog, .addMembers dog [bark], .addMembers animal [speak]]

end Zoo

/-- Two histories, of which one is full of calls that fail, lead to the same stubs, so the same is listed in the same order. In the first, the call that a foreign member ended did add the member before it, once; the set is frozen after it, and a call that adds nothing fails all the same. -/
theorem StubSet.history_zoo :
    let slow := made [Zoo.foo] Zoo.stubbedSlowly
    let fast := made [Zoo.foo] Zoo.stubbedFast
    (slow.NamesApart ∧ slow.SortsApart ∧ slow.same fast = true) ∧
    slow.listing = fast.listing ∧ slow.keys.Pairwise (fun t t' => t.fullName < t'.fullName) ∧
    (slow.entries.keys, fast.entries.keys) = ([Zoo.dog, Zoo.animal], [Zoo.animal, Zoo.dog]) ∧
    (membersAt slow.entries Zoo.animal).keys = [Zoo.speak.toSignature] ∧
    slow.isFrozen = true ∧ ¬ ∃ added, ((addMembers Zoo.dog []).run.run slow).1 = .ok added := by
  intro slow fast
  have hfacts : slow.NamesApart ∧ slow.SortsApart ∧ slow.same fast = true := by decide
  obtain ⟨-, -, -, htells, -, hlisted⟩ := history [Zoo.foo] Zoo.stubbedSlowly
  obtain ⟨hsorted, hsame⟩ := hlisted hfacts.1
  have hfrozen : slow.isFrozen = true := by decide
  refine ⟨hfacts, (hsame _ _ hfacts.2.2).2 hfacts.2.1, hsorted, by decide, by decide, hfrozen, fun hadds => ?_⟩
  have hopen := ((htells.addsMembers _ _).1 hadds).1
  rw [show slow.isFrozen = true from hfrozen] at hopen
  cases hopen

end StubClosure
