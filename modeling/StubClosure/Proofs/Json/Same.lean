import Mathlib.Data.List.Nodup
import Mathlib.Data.List.Perm.Basic
import StubClosure.Json.Value

/-!
# Values that differ in the order of fields

Two values are the same up to the order of fields if one becomes the other when the fields of objects are put in another order, in as many objects and as deep as one likes (`Json.Same`). Sorting gives every such class a value of its own: values with distinct keys are the same exactly if they are equal once sorted (`Json.sorted_eq_iff`).
-/

namespace StubClosure.Json

/-- What holds of a value if it holds of its items, or of the values of its fields, holds of every value. -/
@[elab_as_elim, induction_eliminator]
theorem induct {motive : Json → Prop} (null : motive .null) (bool : ∀ b, motive (.bool b))
    (number : ∀ n, motive (.number n)) (text : ∀ s, motive (.text s))
    (array : ∀ items, (∀ item ∈ items, motive item) → motive (.array items))
    (object : ∀ fields : List (String × Json), (∀ field ∈ fields, motive field.2) → motive (.object fields)) :
    ∀ value, motive value
  | .null => null
  | .bool b => bool b
  | .number n => number n
  | .text s => text s
  | .array items => array items fun item _ => induct null bool number text array object item
  | .object fields => object fields fun field _ => induct null bool number text array object field.2
termination_by value => sizeOf value
decreasing_by
  · have := List.sizeOf_lt_of_mem ‹item ∈ items›
    rw [Json.array.sizeOf_spec]
    omega
  · have := List.sizeOf_lt_of_mem ‹field ∈ fields›
    rw [Prod.mk.sizeOf_spec] at this
    rw [Json.object.sizeOf_spec]
    omega

mutual

/-- The values are equal up to the order of fields. -/
inductive Same : Json → Json → Prop where
  | null : Same .null .null
  | bool (b : Bool) : Same (.bool b) (.bool b)
  | number (n : Int) : Same (.number n) (.number n)
  | text (s : String) : Same (.text s) (.text s)
  | array {items items' : List Json} (h : List.Forall₂ Same items items') : Same (.array items) (.array items')
  | object {fields ordered fields' : List (String × Json)} (h : List.Forall₂ SameField fields ordered)
      (hp : ordered.Perm fields') : Same (.object fields) (.object fields')

/-- The fields have one key, and values that are equal up to the order of fields. -/
inductive SameField : String × Json → String × Json → Prop where
  | mk (key : String) {value value' : Json} (h : Same value value') : SameField (key, value) (key, value')

end

/-- No object in the value has a key twice. -/
inductive Distinct : Json → Prop where
  | null : Distinct .null
  | bool (b : Bool) : Distinct (.bool b)
  | number (n : Int) : Distinct (.number n)
  | text (s : String) : Distinct (.text s)
  | array {items : List Json} (h : ∀ item ∈ items, Distinct item) : Distinct (.array items)
  | object {fields : List (String × Json)} (hk : (fields.map Prod.fst).Nodup)
      (h : ∀ field ∈ fields, Distinct field.2) : Distinct (.object fields)

/-! ## Sorting -/

/-- The field with its value sorted. -/
def sortedField (field : String × Json) : String × Json := (field.1, field.2.sorted)

theorem sortedItems_eq (items : List Json) : sortedItems items = items.map sorted := by
  induction items with
  | nil => rfl
  | cons item items ih => rw [sortedItems, ih, List.map_cons]

theorem sortedFields_eq (fields : List (String × Json)) : sortedFields fields = fields.map sortedField := by
  induction fields with
  | nil => rfl
  | cons field fields ih =>
    rw [sortedFields, ih]
    rfl

theorem sorted_array (items : List Json) : (array items).sorted = array (items.map sorted) := by
  rw [sorted, sortedItems_eq]

theorem sorted_object (fields : List (String × Json)) :
    (object fields).sorted = object (sortOn Prod.fst (fields.map sortedField)) := by
  rw [sorted, sortedFields_eq]

theorem map_eq_map_of_forall₂ {α β : Type} {R : α → α → Prop} {f : α → β} {xs ys : List α}
    (h : List.Forall₂ R xs ys) (hf : ∀ x ∈ xs, ∀ y, R x y → f x = f y) : xs.map f = ys.map f := by
  induction h with
  | nil => rfl
  | @cons x y xs ys hxy _ ih =>
    rw [List.map_cons, List.map_cons, hf x List.mem_cons_self y hxy,
      ih fun other ho => hf other (List.mem_cons_of_mem x ho)]

theorem forall₂_of_map_eq_map {α β : Type} {R : α → α → Prop} {f : α → β} {xs ys : List α}
    (h : xs.map f = ys.map f) (hf : ∀ x ∈ xs, ∀ y, f x = f y → R x y) : List.Forall₂ R xs ys := by
  induction xs generalizing ys with
  | nil =>
    obtain rfl : ys = [] := List.map_eq_nil_iff.1 h.symm
    exact .nil
  | cons x xs ih =>
    cases ys with
    | nil => cases h
    | cons y ys =>
      obtain ⟨hxy, hrest⟩ := List.cons.inj h
      exact .cons (hf x List.mem_cons_self y hxy) (ih hrest fun other ho => hf other (List.mem_cons_of_mem x ho))

/-- Lists with the same images in some order have the same images item by item once one of them is put in order. -/
theorem exists_perm_of_perm_map {α β : Type} {f : α → β} {xs ys : List α} (h : (xs.map f).Perm (ys.map f)) :
    ∃ ordered : List α, xs.map f = ordered.map f ∧ ordered.Perm ys := by
  have hys : List.Forall₂ (fun image y => image = f y) (ys.map f) ys :=
    List.forall₂_map_left_iff.2 (List.forall₂_same.2 fun y _ => rfl)
  obtain ⟨ordered, hxs, hp⟩ := List.perm_comp_forall₂ h hys
  refine ⟨ordered, ?_, hp⟩
  rwa [← List.forall₂_map_right_iff, List.forall₂_eq_eq_eq] at hxs

theorem Same.sorted_eq {a b : Json} (h : Same a b) (ha : Distinct a) : a.sorted = b.sorted := by
  induction a generalizing b with
  | null => cases h; rfl
  | bool => cases h; rfl
  | number => cases h; rfl
  | text => cases h; rfl
  | array items ih =>
    cases h with
    | array h =>
      cases ha with
      | array ha =>
        rw [sorted_array, sorted_array,
          map_eq_map_of_forall₂ h fun item hi other hs => ih item hi hs (ha item hi)]
  | object fields ih =>
    cases h with
    | object h hp =>
      cases ha with
      | object hk ha =>
        have hfields := map_eq_map_of_forall₂ (f := sortedField) h fun field hf other hs => by
          cases hs with
          | mk key hs => exact congrArg (Prod.mk key) (ih _ hf hs (ha _ hf))
        rw [sorted_object, sorted_object]
        refine congrArg Json.object (sortOn_congr ?_ ?_)
        · rw [hfields]
          exact hp.map sortedField
        · refine List.inj_on_of_nodup_map ?_
          rw [List.map_map]
          exact hk

/-- Values that are equal once sorted differ in the order of fields only. -/
theorem same_of_sorted_eq {a b : Json} (h : a.sorted = b.sorted) : Same a b := by
  induction a generalizing b with
  | null => cases b <;> simp only [sorted, reduceCtorEq] at h; exact .null
  | bool => cases b <;> simp only [sorted, reduceCtorEq, bool.injEq] at h; exact h ▸ .bool _
  | number => cases b <;> simp only [sorted, reduceCtorEq, number.injEq] at h; exact h ▸ .number _
  | text => cases b <;> simp only [sorted, reduceCtorEq, text.injEq] at h; exact h ▸ .text _
  | array items ih =>
    cases b with
    | array items' =>
      rw [sorted_array, sorted_array, array.injEq] at h
      exact .array (forall₂_of_map_eq_map h fun item hi other he => ih item hi he)
    | _ => simp only [sorted, reduceCtorEq] at h
  | object fields ih =>
    cases b with
    | object fields' =>
      rw [sorted_object, sorted_object, object.injEq] at h
      -- the fields of the one, sorted each, are those of the other in some order
      have hperm : (fields.map sortedField).Perm (fields'.map sortedField) :=
        (sortOn_perm Prod.fst _).symm.trans (h ▸ sortOn_perm Prod.fst _)
      obtain ⟨ordered, hmap, hp⟩ := exists_perm_of_perm_map hperm
      refine .object (forall₂_of_map_eq_map hmap fun field hf other he => ?_) hp
      obtain ⟨key, value⟩ := field
      obtain ⟨key', value'⟩ := other
      obtain ⟨rfl, hvalue⟩ := Prod.mk.inj he
      exact .mk key (ih _ hf hvalue)
    | _ => simp only [sorted, reduceCtorEq] at h

theorem sorted_eq_iff {a b : Json} (ha : Distinct a) : a.sorted = b.sorted ↔ Same a b :=
  ⟨same_of_sorted_eq, fun h => h.sorted_eq ha⟩

end StubClosure.Json
