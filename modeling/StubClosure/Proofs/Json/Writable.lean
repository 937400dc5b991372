import StubClosure.Json.Write
import StubClosure.Proofs.Json.Same

/-!
# Values that have a text

A number is written only if it is short enough, and a value only if all the numbers in it are (`Json.Writable`). Every way to write a value fails on the others alike. The order of fields has no part in this.
-/

namespace StubClosure.Json

/-- All numbers in the value can be written. -/
inductive Writable : Json → Prop where
  | null : Writable .null
  | bool (b : Bool) : Writable (.bool b)
  | number {n : Int} (h : n.natAbs < Text.unwritableFrom) : Writable (.number n)
  | text (s : String) : Writable (.text s)
  | array {items : List Json} (h : ∀ item ∈ items, Writable item) : Writable (.array items)
  | object {fields : List (String × Json)} (h : ∀ field ∈ fields, Writable field.2) : Writable (.object fields)

theorem writable_number_iff {n : Int} : (number n).Writable ↔ n.natAbs < Text.unwritableFrom :=
  ⟨fun | .number h => h, .number⟩

theorem writable_array_iff {items : List Json} : (array items).Writable ↔ ∀ item ∈ items, item.Writable :=
  ⟨fun | .array h => h, .array⟩

theorem writable_object_iff {fields : List (String × Json)} :
    (object fields).Writable ↔ ∀ field ∈ fields, field.2.Writable :=
  ⟨fun | .object h => h, .object⟩

theorem areWritable_eq (items : List Json) : areWritable items = items.all isWritable := by
  induction items with
  | nil => rfl
  | cons item items ih => rw [areWritable, ih, List.all_cons]

theorem fieldsWritable_eq (fields : List (String × Json)) :
    fieldsWritable fields = fields.all fun field => field.2.isWritable := by
  induction fields with
  | nil => rfl
  | cons field fields ih => rw [fieldsWritable, ih, List.all_cons]

theorem isWritable_iff {v : Json} : v.isWritable = true ↔ v.Writable := by
  induction v with
  | null => exact ⟨fun _ => .null, fun _ => rfl⟩
  | bool b => exact ⟨fun _ => .bool b, fun _ => rfl⟩
  | number n => rw [isWritable, decide_eq_true_iff, writable_number_iff]
  | text s => exact ⟨fun _ => .text s, fun _ => rfl⟩
  | array items ih =>
    rw [isWritable, areWritable_eq, List.all_eq_true, writable_array_iff]
    exact forall₂_congr ih
  | object fields ih =>
    rw [isWritable, fieldsWritable_eq, List.all_eq_true, writable_object_iff]
    exact forall₂_congr ih

theorem Writable.write_eq {v : Json} (h : v.Writable) (layout : Layout) :
    v.write layout = .ok (writeAt layout 0 v.sorted) := by
  rw [write, if_pos (isWritable_iff.2 h)]

theorem write_of_not_writable {v : Json} (h : ¬ v.Writable) (layout : Layout) : v.write layout = .error .unwritable := by
  rw [write, if_neg fun hw => h (isWritable_iff.1 hw)]

theorem writable_sorted_iff {v : Json} : v.sorted.Writable ↔ v.Writable := by
  induction v with
  | null => rfl
  | bool b => rfl
  | number n => rfl
  | text s => rfl
  | array items ih =>
    rw [sorted_array, writable_array_iff, writable_array_iff, List.forall_mem_map]
    exact forall₂_congr ih
  | object fields ih =>
    rw [sorted_object, writable_object_iff, writable_object_iff]
    simp only [mem_sortOn, List.forall_mem_map]
    exact forall₂_congr ih

theorem Same.writable_iff {a b : Json} (h : a.Same b) (ha : a.Distinct) : a.Writable ↔ b.Writable := by
  rw [← writable_sorted_iff, (sorted_eq_iff ha).2 h, writable_sorted_iff]

theorem Same.write_eq {a b : Json} (h : a.Same b) (ha : a.Distinct) (layout : Layout) :
    a.write layout = b.write layout := by
  by_cases hw : a.Writable
  · rw [hw.write_eq, ((h.writable_iff ha).1 hw).write_eq, (sorted_eq_iff ha).2 h]
  · rw [write_of_not_writable hw, write_of_not_writable fun hb => hw ((h.writable_iff ha).2 hb)]

theorem writable_texts (items : List String) : (texts items).Writable :=
  .array (List.forall_mem_map.2 fun s _ => .text s)

theorem writable_ofOption {α : Type} {f : α → Json} (hf : ∀ a, (f a).Writable) : ∀ a, (ofOption f a).Writable
  | none => .null
  | some a => hf a

end StubClosure.Json
