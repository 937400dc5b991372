/-!
# Sorting

Everything that is listed is sorted by a key, equal keys in the order in which they came. Text is ordered by code point, and lists are ordered by their first difference.
-/

namespace StubClosure

/-- The list sorted by a key, stably. -/
def sortOn {α κ : Type} [LE κ] [DecidableLE κ] (key : α → κ) (items : List α) : List α :=
  items.mergeSort fun a b => decide (key a ≤ key b)

theorem sortOn_perm {α κ : Type} [LE κ] [DecidableLE κ] (key : α → κ) (items : List α) :
    (sortOn key items).Perm items :=
  List.mergeSort_perm items _

@[simp] theorem mem_sortOn {α κ : Type} [LE κ] [DecidableLE κ] {key : α → κ} {items : List α} {a : α} :
    a ∈ sortOn key items ↔ a ∈ items :=
  (sortOn_perm key items).mem_iff

theorem pairwise_sortOn {α : Type} (key : α → String) (items : List α) :
    (sortOn key items).Pairwise fun a b => key a ≤ key b := by
  have htrans : ∀ a b c : α, decide (key a ≤ key b) = true → decide (key b ≤ key c) = true →
      decide (key a ≤ key c) = true := by
    intro a b c hab hbc
    exact decide_eq_true (String.le_trans (of_decide_eq_true hab) (of_decide_eq_true hbc))
  have htotal : ∀ a b : α, (decide (key a ≤ key b) || decide (key b ≤ key a)) = true := by
    intro a b
    rw [Bool.or_eq_true, decide_eq_true_eq, decide_eq_true_eq]
    exact String.le_total (key a) (key b)
  have hsorted := List.pairwise_mergeSort htrans htotal items
  exact hsorted.imp fun h => of_decide_eq_true h

theorem pairwise_lt_sortOn {α : Type} {key : α → String} {items : List α} (hd : items.Nodup)
    (hk : ∀ a ∈ items, ∀ b ∈ items, key a = key b → a = b) :
    (sortOn key items).Pairwise fun a b => key a < key b := by
  have hnodup : (sortOn key items).Nodup := (sortOn_perm key items).nodup_iff.2 hd
  refine (hnodup.and (pairwise_sortOn key items)).imp_of_mem ?_
  rintro a b ha hb ⟨hne, hle⟩
  refine String.not_le.1 fun hge => hne ?_
  exact hk a (mem_sortOn.1 ha) b (mem_sortOn.1 hb) (String.le_antisymm hle hge)

theorem sortOn_of_pairwise {α : Type} {key : α → String} {items : List α}
    (h : items.Pairwise fun a b => key a ≤ key b) : sortOn key items = items :=
  List.mergeSort_of_pairwise (h.imp fun hle => decide_eq_true hle)

theorem sortOn_congr {α : Type} {key : α → String} {items others : List α} (h : items.Perm others)
    (hk : ∀ a ∈ items, ∀ b ∈ items, key a = key b → a = b) : sortOn key items = sortOn key others := by
  have hperm : (sortOn key items).Perm (sortOn key others) :=
    (sortOn_perm key items).trans (h.trans (sortOn_perm key others).symm)
  refine hperm.eq_of_pairwise ?_ (pairwise_sortOn key items) (pairwise_sortOn key others)
  intro a b ha hb hab hba
  apply hk a (mem_sortOn.1 ha) b (h.mem_iff.2 (mem_sortOn.1 hb))
  exact String.le_antisymm hab hba

theorem sortOn_map {α β κ : Type} [LE κ] [DecidableLE κ] (key : β → κ) (f : α → β) (items : List α) :
    sortOn key (items.map f) = (sortOn (fun a => key (f a)) items).map f := by
  unfold sortOn
  rw [List.map_mergeSort]
  exact fun _ _ _ _ => rfl

end StubClosure
