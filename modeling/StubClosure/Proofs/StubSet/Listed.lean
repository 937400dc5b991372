import Mathlib.Data.List.Lex
import Mathlib.Data.List.Perm.Subperm
import Mathlib.Data.String.Basic
import StubClosure.Proofs.StubSet

/-!
# How stubs are listed

Keys are listed by full name, and the members of a key by a key of their own, which compares parts one after the other. So what is listed is a matter of what there is, and not of the order in which it came, as long as the names and sort keys tell things apart (`keys_of_same`, `listing_of_same`).
-/

namespace StubClosure

/-! ## The order of members -/

theorem Signature.precedes_iff {a b : Signature} : a.precedes b = true ↔ a.sortKey < b.sortKey := by
  have hpart : (fun part other : List String => part.lex other fun text other => decide (text < other)) =
      fun part other => decide (part < other) := by
    funext part other
    rw [Bool.eq_iff_iff, List.lex_eq_true_iff_lt, decide_eq_true_eq]
  unfold precedes
  rw [hpart, List.lex_eq_true_iff_lt]

theorem Signature.not_precedes_iff {a b : Signature} : (!b.precedes a) = true ↔ a.sortKey ≤ b.sortKey := by
  rw [Bool.not_eq_true', Bool.eq_false_iff, Ne, Signature.precedes_iff, not_lt]

theorem sortMembers_perm (members : List Member) : (sortMembers members).Perm members :=
  List.mergeSort_perm members _

theorem pairwise_sortMembers (members : List Member) :
    (sortMembers members).Pairwise fun a b => a.sortKey ≤ b.sortKey := by
  have htrans : ∀ a b c : Member, (!b.precedes a.toSignature) = true → (!c.precedes b.toSignature) = true →
      (!c.precedes a.toSignature) = true := by
    intro a b c hab hbc
    rw [Signature.not_precedes_iff] at hab hbc ⊢
    exact le_trans hab hbc
  have htotal : ∀ a b : Member, (!b.precedes a.toSignature || !a.precedes b.toSignature) = true := by
    intro a b
    rw [Bool.or_eq_true, Signature.not_precedes_iff, Signature.not_precedes_iff]
    exact le_total a.sortKey b.sortKey
  have hsorted := List.pairwise_mergeSort htrans htotal members
  exact hsorted.imp fun h => Signature.not_precedes_iff.1 h

theorem map_sortMembers_congr {members others : List Member}
    (h : (members.map (·.toSignature)).Perm (others.map (·.toSignature)))
    (hk : ∀ a ∈ members, ∀ b ∈ members, a.sortKey = b.sortKey → a.toSignature = b.toSignature) :
    (sortMembers members).map (·.toSignature) = (sortMembers others).map (·.toSignature) := by
  have hperm : ∀ list : List Member, ((sortMembers list).map (·.toSignature)).Perm (list.map (·.toSignature)) :=
    fun list => (sortMembers_perm list).map _
  have hsorted : ∀ list : List Member,
      ((sortMembers list).map (·.toSignature)).Pairwise fun s s' => s.sortKey ≤ s'.sortKey := by
    intro list
    rw [List.pairwise_map]
    exact pairwise_sortMembers list
  refine List.Perm.eq_of_pairwise ?_ (hsorted members) (hsorted others) ((hperm members).trans (h.trans (hperm others).symm))
  intro s s' hs hs' hle hge
  obtain ⟨a, ha, rfl⟩ := List.mem_map.1 ((hperm members).mem_iff.1 hs)
  obtain ⟨b, hb, rfl⟩ := List.mem_map.1 (h.mem_iff.2 ((hperm others).mem_iff.1 hs'))
  exact hk a ha b hb (le_antisymm hle hge)

/-! ## The same stubs -/

theorem MemberSet.keys_perm_of_same {set other : MemberSet} (hset : set.keys.Nodup) (h : set.same other = true) :
    set.keys.Perm other.keys := by
  unfold MemberSet.same at h
  rw [Bool.and_eq_true, decide_eq_true_eq, List.all_eq_true] at h
  have hsub : set.keys ⊆ other.keys := fun s hs => Table.contains_iff.1 (h.2 s hs)
  apply (List.subperm_of_subset hset hsub).perm_of_length_le
  rw [Table.length_keys, Table.length_keys, h.1]

namespace StubSet

variable {stubs other : StubSet}

theorem perm_of_same (hd : Distinct stubs.entries) (h : stubs.same other = true) :
    stubs.entries.keys.Perm other.entries.keys ∧
      ∀ t, (membersAt stubs.entries t).keys.Perm (membersAt other.entries t).keys := by
  unfold same at h
  rw [Bool.and_eq_true, decide_eq_true_eq, List.all_eq_true] at h
  obtain ⟨hsize, hall⟩ := h
  have hentry : ∀ t set, stubs.entries.find? t = some set →
      ∃ set', other.entries.find? t = some set' ∧ set.same set' = true := by
    intro t set hset
    have hfound := hall (t, set) (Table.mem_of_find? hset)
    rwa [Option.any_eq_true] at hfound
  have hsub : stubs.entries.keys ⊆ other.entries.keys := by
    intro t ht
    obtain ⟨set, hset⟩ := Table.exists_find?_of_mem ht
    obtain ⟨set', hset', -⟩ := hentry t set hset
    exact Table.mem_keys_of_find? hset'
  have hkeys : stubs.entries.keys.Perm other.entries.keys := by
    apply (List.subperm_of_subset hd.keys hsub).perm_of_length_le
    rw [Table.length_keys, Table.length_keys]
    exact hsize.ge
  refine ⟨hkeys, fun t => ?_⟩
  by_cases ht : t ∈ stubs.entries.keys
  · obtain ⟨set, hset⟩ := Table.exists_find?_of_mem ht
    obtain ⟨set', hset', hsame⟩ := hentry t set hset
    have hdistinct := hd.members t
    rw [membersAt_of_find? hset] at hdistinct ⊢
    rw [membersAt_of_find? hset']
    exact MemberSet.keys_perm_of_same hdistinct hsame
  · rw [membersAt_of_not_mem ht, membersAt_of_not_mem fun ht' => ht (hkeys.mem_iff.2 ht')]

/-! ## Listings -/

/-- No two keys have the same full name. -/
def NamesApart (stubs : StubSet) : Prop :=
  ∀ t ∈ stubs.entries.keys, ∀ t' ∈ stubs.entries.keys, t.fullName = t'.fullName → t = t'

/-- No two members of one key have the same sort key. -/
def SortsApart (stubs : StubSet) : Prop :=
  ∀ t ∈ stubs.entries.keys, ∀ m ∈ (membersAt stubs.entries t).values, ∀ m' ∈ (membersAt stubs.entries t).values,
    m.sortKey = m'.sortKey → m.toSignature = m'.toSignature

instance (stubs : StubSet) : Decidable stubs.NamesApart :=
  inferInstanceAs (Decidable (∀ t ∈ stubs.entries.keys, ∀ t' ∈ stubs.entries.keys, t.fullName = t'.fullName → t = t'))

instance (stubs : StubSet) : Decidable stubs.SortsApart :=
  inferInstanceAs (Decidable (∀ t ∈ stubs.entries.keys, ∀ m ∈ (membersAt stubs.entries t).values,
    ∀ m' ∈ (membersAt stubs.entries t).values, m.sortKey = m'.sortKey → m.toSignature = m'.toSignature))

/-- What is listed, members told by their identities. -/
def listing (stubs : StubSet) : List (TypeId × List Signature) :=
  stubs.items.map fun entry => (entry.1, entry.2.map (·.toSignature))

/-- **Keys are listed in strict order** of their full names. -/
theorem pairwise_keys (hd : stubs.entries.keys.Nodup) (hn : stubs.NamesApart) :
    stubs.keys.Pairwise fun t t' => t.fullName < t'.fullName :=
  pairwise_lt_sortOn hd hn

theorem keys_of_same (hd : Distinct stubs.entries) (hn : stubs.NamesApart) (h : stubs.same other = true) :
    stubs.keys = other.keys :=
  sortOn_congr (perm_of_same hd h).1 hn

theorem listing_eq (stubs : StubSet) : stubs.listing =
    stubs.keys.map fun t => (t, (sortMembers (membersAt stubs.entries t).values).map (·.toSignature)) := by
  unfold listing items
  rw [List.map_map]
  rfl

theorem listing_of_same (hd : Distinct stubs.entries) (hk : ∀ t, (membersAt stubs.entries t).IsKeyed)
    (hk' : ∀ t, (membersAt other.entries t).IsKeyed) (hn : stubs.NamesApart) (hs : stubs.SortsApart)
    (h : stubs.same other = true) : stubs.listing = other.listing := by
  rw [listing_eq, listing_eq, keys_of_same hd hn h]
  apply List.map_congr_left
  intro t ht
  have hkeys := (perm_of_same hd h).1
  have hperm := (perm_of_same hd h).2 t
  rw [← (hk t).map_values, ← (hk' t).map_values] at hperm
  rw [map_sortMembers_congr hperm (hs t (hkeys.mem_iff.2 (mem_sortOn.1 ht)))]

end StubSet

end StubClosure
