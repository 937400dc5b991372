/-!
# Tables

A finite map that keeps its keys in the order in which they came. A key is in the table at most once: giving it a new value leaves it where it stands, and keeping the first value leaves the entry untouched.
-/

namespace StubClosure

/-- A map from keys to values in order of first insertion. -/
structure Table (κ ν : Type) where
  entries : List (κ × ν) := []
  deriving DecidableEq, Repr

namespace Table

variable {κ ν : Type} [DecidableEq κ]

instance : Inhabited (Table κ ν) := ⟨{}⟩

/-- The value of a key. -/
def find? (table : Table κ ν) (key : κ) : Option ν := table.entries.lookup key

def contains (table : Table κ ν) (key : κ) : Bool := (table.find? key).isSome

def keys (table : Table κ ν) : List κ := table.entries.map (·.1)

def values (table : Table κ ν) : List ν := table.entries.map (·.2)

def size (table : Table κ ν) : Nat := table.entries.length

/-- Gives the key a value in a list of entries. -/
def put (key : κ) (value : ν) : List (κ × ν) → List (κ × ν)
  | [] => [(key, value)]
  | entry :: rest => if entry.1 = key then (entry.1, value) :: rest else entry :: put key value rest

/-- Gives the key a value; a new key goes to the end. -/
def insert (table : Table κ ν) (key : κ) (value : ν) : Table κ ν := ⟨put key value table.entries⟩

/-- Adds a key that is not in the table yet, and else changes nothing. -/
def insertNew (table : Table κ ν) (key : κ) (value : ν) : Table κ ν :=
  if table.contains key then table else ⟨table.entries ++ [(key, value)]⟩

/-- Changes the value of a key that is in the table. -/
def modify (table : Table κ ν) (key : κ) (change : ν → ν) : Table κ ν :=
  match table.find? key with
  | some value => table.insert key (change value)
  | none => table

/-- The table of the given values under the keys read off them, the first of equal keys kept. -/
def firstBy (key : ν → κ) (values : List ν) : Table κ ν :=
  values.foldl (fun table value => table.insertNew (key value) value) {}

/-! ## What each operation does to the values found -/

@[simp] theorem find?_empty (key : κ) : (({} : Table κ ν).find? key) = none := rfl

theorem lookup_entry (entry : κ × ν) (rest : List (κ × ν)) (key : κ) :
    (entry :: rest).lookup key = if key = entry.1 then some entry.2 else rest.lookup key := by
  rw [show entry :: rest = (entry.1, entry.2) :: rest from rfl, List.lookup_cons]
  by_cases h : key = entry.1
  · rw [if_pos h, beq_iff_eq.2 h]
  · rw [if_neg h, beq_eq_false_iff_ne.2 h]

theorem lookup_put (key : κ) (value : ν) (entries : List (κ × ν)) (other : κ) :
    (put key value entries).lookup other = if other = key then some value else entries.lookup other := by
  induction entries with
  | nil =>
    rw [put, lookup_entry]
  | cons entry rest ih =>
    rw [put, lookup_entry]
    by_cases hk : entry.1 = key
    · rw [if_pos hk, lookup_entry, hk]
      by_cases ho : other = key
      · rw [if_pos ho, if_pos ho]
      · rw [if_neg ho, if_neg ho, if_neg ho]
    · rw [if_neg hk, lookup_entry, ih]
      by_cases ho : other = entry.1
      · rw [if_pos ho, if_pos ho, if_neg (ho ▸ hk)]
      · rw [if_neg ho, if_neg ho]

@[simp] theorem find?_insert (table : Table κ ν) (key : κ) (value : ν) (other : κ) :
    (table.insert key value).find? other = if other = key then some value else table.find? other :=
  lookup_put key value table.entries other

@[simp] theorem find?_insertNew (table : Table κ ν) (key : κ) (value : ν) (other : κ) :
    (table.insertNew key value).find? other =
      if other = key then some ((table.find? key).getD value) else table.find? other := by
  unfold insertNew contains
  by_cases h : other = key
  · subst h
    cases hf : table.find? other with
    | some v => simp [hf]
    | none =>
      have : List.lookup other table.entries = none := hf
      simp [find?, List.lookup_append, this, lookup_entry]
  · cases hf : table.find? key with
    | some v => simp [h]
    | none => simp [find?, List.lookup_append, lookup_entry, h]

theorem mem_keys_iff {table : Table κ ν} {key : κ} : key ∈ table.keys ↔ (table.find? key).isSome := by
  obtain ⟨entries⟩ := table
  unfold keys find?
  induction entries with
  | nil => simp
  | cons entry rest ih =>
    rw [List.map_cons, List.mem_cons, ih, lookup_entry]
    by_cases h : key = entry.1
    · simp [h]
    · simp [h]

theorem contains_iff {table : Table κ ν} {key : κ} : table.contains key = true ↔ key ∈ table.keys :=
  mem_keys_iff.symm

theorem exists_find?_of_mem {table : Table κ ν} {key : κ} (h : key ∈ table.keys) :
    ∃ value, table.find? key = some value :=
  Option.isSome_iff_exists.1 (mem_keys_iff.1 h)

theorem mem_keys_of_find? {table : Table κ ν} {key : κ} {value : ν} (h : table.find? key = some value) :
    key ∈ table.keys := by
  rw [mem_keys_iff, h]
  rfl

theorem find?_of_mem {table : Table κ ν} (h : table.keys.Nodup) {entry : κ × ν} (hm : entry ∈ table.entries) :
    table.find? entry.1 = some entry.2 := by
  obtain ⟨entries⟩ := table
  replace h : (entries.map (·.1)).Nodup := h
  show entries.lookup entry.1 = some entry.2
  induction entries with
  | nil => cases hm
  | cons first rest ih =>
    rw [List.map_cons, List.nodup_cons] at h
    rw [lookup_entry]
    rcases List.mem_cons.1 hm with rfl | hm
    · rw [if_pos rfl]
    · have hne : entry.1 ≠ first.1 := fun he => h.1 (he ▸ List.mem_map_of_mem hm)
      rw [if_neg hne]
      exact ih hm h.2

theorem mem_of_find? {table : Table κ ν} {key : κ} {value : ν} (h : table.find? key = some value) :
    (key, value) ∈ table.entries := by
  obtain ⟨entries⟩ := table
  replace h : entries.lookup key = some value := h
  induction entries with
  | nil => simp at h
  | cons entry rest ih =>
    rw [lookup_entry] at h
    by_cases hk : key = entry.1
    · rw [if_pos hk] at h
      obtain rfl := Option.some.inj h
      rw [hk]
      exact List.mem_cons_self
    · rw [if_neg hk] at h
      exact List.mem_cons_of_mem _ (ih h)

theorem exists_find?_of_values {table : Table κ ν} {value : ν} (h : table.values = [value]) :
    ∃ key, table.find? key = some value := by
  obtain ⟨entries⟩ := table
  obtain ⟨⟨key, found⟩, rfl, rfl⟩ := List.map_eq_singleton_iff.1 h
  exact ⟨key, by rw [find?, lookup_entry, if_pos rfl]⟩

theorem find?_eq_none_iff {table : Table κ ν} {key : κ} : table.find? key = none ↔ key ∉ table.keys := by
  rw [mem_keys_iff, Option.not_isSome_iff_eq_none]

@[simp] theorem find?_modify (table : Table κ ν) (key : κ) (change : ν → ν) (other : κ) :
    (table.modify key change).find? other =
      if other = key then (table.find? key).map change else table.find? other := by
  unfold modify
  by_cases h : other = key
  · subst h
    cases hf : table.find? other <;> simp [hf]
  · cases hf : table.find? key <;> simp [h]

/-! ## What each operation does to the keys -/

omit [DecidableEq κ] in
@[simp] theorem keys_empty : ({} : Table κ ν).keys = [] := rfl

omit [DecidableEq κ] in
@[simp] theorem length_keys (table : Table κ ν) : table.keys.length = table.size := by simp [keys, size]

theorem keys_put (key : κ) (value : ν) (entries : List (κ × ν)) :
    (put key value entries).map (·.1) =
      if key ∈ entries.map (·.1) then entries.map (·.1) else entries.map (·.1) ++ [key] := by
  induction entries with
  | nil => rfl
  | cons entry rest ih =>
    rw [put]
    by_cases hk : entry.1 = key
    · simp [hk]
    · rw [if_neg hk, List.map_cons, ih]
      by_cases hr : key ∈ rest.map (·.1)
      · simp [hr]
      · simp [hr, Ne.symm hk]

theorem keys_insert (table : Table κ ν) (key : κ) (value : ν) :
    (table.insert key value).keys = if key ∈ table.keys then table.keys else table.keys ++ [key] :=
  keys_put key value table.entries

theorem keys_insertNew (table : Table κ ν) (key : κ) (value : ν) :
    (table.insertNew key value).keys = if key ∈ table.keys then table.keys else table.keys ++ [key] := by
  unfold insertNew
  by_cases h : key ∈ table.keys
  · rw [if_pos (contains_iff.2 h), if_pos h]
  · rw [if_neg (fun hc => h (contains_iff.1 hc)), if_neg h]
    simp [keys]

@[simp] theorem mem_keys_insert {table : Table κ ν} {key : κ} {value : ν} {other : κ} :
    other ∈ (table.insert key value).keys ↔ other = key ∨ other ∈ table.keys := by
  rw [keys_insert]
  split <;> grind

@[simp] theorem mem_keys_insertNew {table : Table κ ν} {key : κ} {value : ν} {other : κ} :
    other ∈ (table.insertNew key value).keys ↔ other = key ∨ other ∈ table.keys := by
  rw [keys_insertNew]
  split <;> grind

theorem nodup_keys_insert {table : Table κ ν} (h : table.keys.Nodup) (key : κ) (value : ν) :
    (table.insert key value).keys.Nodup := by
  rw [keys_insert]
  split
  · exact h
  · grind

theorem nodup_keys_insertNew {table : Table κ ν} (h : table.keys.Nodup) (key : κ) (value : ν) :
    (table.insertNew key value).keys.Nodup := by
  rw [keys_insertNew]
  split
  · exact h
  · grind

theorem keys_prefix_insert (table : Table κ ν) (key : κ) (value : ν) : table.keys <+: (table.insert key value).keys := by
  rw [keys_insert]
  split
  · exact List.prefix_rfl
  · exact List.prefix_append _ _

theorem entries_prefix_insertNew (table : Table κ ν) (key : κ) (value : ν) :
    table.entries <+: (table.insertNew key value).entries := by
  unfold insertNew
  split
  · exact List.prefix_rfl
  · exact List.prefix_append _ _

theorem keys_modify (table : Table κ ν) (key : κ) (change : ν → ν) : (table.modify key change).keys = table.keys := by
  unfold modify
  cases hf : table.find? key with
  | none => rfl
  | some value => rw [keys_insert, if_pos (mem_keys_of_find? hf)]

theorem map_modify {μ : Type} (view : ν → μ) (change : ν → ν) (h : ∀ value, view (change value) = view value)
    (table : Table κ ν) (key : κ) : (table.modify key change).entries.map (fun entry => (entry.1, view entry.2)) =
      table.entries.map fun entry => (entry.1, view entry.2) := by
  unfold modify
  cases hf : table.find? key with
  | none => rfl
  | some value =>
    obtain ⟨entries⟩ := table
    replace hf : entries.lookup key = some value := hf
    show (put key (change value) entries).map _ = _
    induction entries with
    | nil => simp at hf
    | cons entry rest ih =>
      rw [put]
      by_cases hk : entry.1 = key
      · have hv : entry.2 = value := by simpa [lookup_entry, hk] using hf
        rw [if_pos hk, List.map_cons, List.map_cons, h, hv]
      · rw [if_neg hk, List.map_cons, List.map_cons, ih (by simpa [lookup_entry, Ne.symm hk] using hf)]

theorem insert_eq_self {table : Table κ ν} {key : κ} {value : ν} (h : table.find? key = some value) :
    table.insert key value = table := by
  obtain ⟨entries⟩ := table
  show Table.mk (put key value entries) = ⟨entries⟩
  congr 1
  replace h : entries.lookup key = some value := h
  induction entries with
  | nil => simp at h
  | cons entry rest ih =>
    rw [put]
    by_cases hk : entry.1 = key
    · rw [if_pos hk]
      have hv : entry.2 = value := by simpa [lookup_entry, hk] using h
      rw [← hv]
    · rw [if_neg hk, ih (by simpa [lookup_entry, Ne.symm hk] using h)]

theorem insertNew_eq_self {table : Table κ ν} {key : κ} (value : ν) (h : key ∈ table.keys) :
    table.insertNew key value = table := by
  rw [insertNew, if_pos (contains_iff.2 h)]

theorem put_put {key other : κ} {entries : List (κ × ν)} (value value' : ν) (h : key ∈ entries.map (·.1))
    (hne : other ≠ key) : put other value' (put key value entries) = put key value (put other value' entries) := by
  induction entries with
  | nil => cases h
  | cons entry rest ih =>
    by_cases hk : entry.1 = key
    · have ho : entry.1 ≠ other := fun ho => hne (ho.symm.trans hk)
      simp [put, hk, Ne.symm hne]
    · have hrest : key ∈ rest.map (·.1) := (List.mem_cons.1 h).resolve_left (Ne.symm hk)
      by_cases ho : entry.1 = other
      · simp [put, ho, hne]
      · simp [put, hk, ho, ih hrest]

theorem insert_modify (table : Table κ ν) {key other : κ} (hne : other ≠ key) (change : ν → ν) (value : ν) :
    (table.modify key change).insert other value = (table.insert other value).modify key change := by
  unfold modify
  rw [find?_insert, if_neg (Ne.symm hne)]
  cases hf : table.find? key with
  | none => rfl
  | some old =>
    have hmem : key ∈ table.keys := mem_keys_of_find? hf
    exact congrArg Table.mk (put_put (change old) value hmem hne)

theorem firstBy_append (key : ν → κ) (values more : List ν) : firstBy key (values ++ more) =
    more.foldl (fun table value => table.insertNew (key value) value) (firstBy key values) := List.foldl_append

theorem mem_keys_firstBy {key : ν → κ} {values : List ν} {k : κ} :
    k ∈ (firstBy key values).keys ↔ ∃ value ∈ values, key value = k := by
  suffices h : ∀ table : Table κ ν,
      k ∈ (values.foldl (fun table value => table.insertNew (key value) value) table).keys ↔
        k ∈ table.keys ∨ ∃ value ∈ values, key value = k by
    simpa [firstBy] using h {}
  intro table
  induction values generalizing table with
  | nil => simp
  | cons value rest ih =>
    rw [List.foldl_cons, ih, mem_keys_insertNew]
    grind

theorem firstBy_append_of_forall {key : ν → κ} {values more : List ν} (h : ∀ value ∈ more, key value ∈ values.map key) :
    firstBy key (values ++ more) = firstBy key values := by
  rw [firstBy_append]
  induction more with
  | nil => rfl
  | cons value rest ih =>
    have hknown : key value ∈ (firstBy key values).keys :=
      mem_keys_firstBy.2 (List.mem_map.1 (h value List.mem_cons_self))
    rw [List.foldl_cons, insertNew_eq_self value hknown]
    exact ih fun other ho => h other (List.mem_cons_of_mem _ ho)

theorem values_firstBy_concat {key : ν → κ} {values : List ν} {value : ν} (h : key value ∉ values.map key) :
    (firstBy key (values ++ [value])).values = (firstBy key values).values ++ [value] := by
  have hnew : ¬ (firstBy key values).contains (key value) = true := fun hc =>
    h (List.mem_map.2 (mem_keys_firstBy.1 (contains_iff.1 hc)))
  rw [firstBy_append, List.foldl_cons, List.foldl_nil, insertNew, if_neg hnew]
  simp [Table.values]

theorem nodup_keys_firstBy (key : ν → κ) (values : List ν) : (firstBy key values).keys.Nodup := by
  suffices h : ∀ table : Table κ ν, table.keys.Nodup →
      (values.foldl (fun table value => table.insertNew (key value) value) table).keys.Nodup from
    h {} List.nodup_nil
  intro table hd
  induction values generalizing table with
  | nil => exact hd
  | cons value rest ih => exact ih _ (nodup_keys_insertNew hd _ _)

end Table

end StubClosure
