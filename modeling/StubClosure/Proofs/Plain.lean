import StubClosure.Closure.Run
import StubClosure.Proofs.StubSet

/-!
# Plain members

Two references of one signature name the same member, whatever role and flag they tell. `plain` forgets these two, wherever members are kept: in sets, in stubs, in what a pass adds and in what a run comes to. Things that are equal when made plain are the same as far as identities go. Adding to a set, and to stubs, is the same work on plain members as on others, as it never looks at a role or flag.
-/

namespace StubClosure

namespace Table

variable {κ ν μ : Type}

/-- The table with its values changed. -/
def mapValues (view : ν → μ) (table : Table κ ν) : Table κ μ := ⟨table.entries.map fun entry => (entry.1, view entry.2)⟩

@[simp] theorem keys_mapValues (view : ν → μ) (table : Table κ ν) : (table.mapValues view).keys = table.keys := by
  simp [keys, mapValues]

@[simp] theorem values_mapValues (view : ν → μ) (table : Table κ ν) :
    (table.mapValues view).values = table.values.map view := by
  simp [values, mapValues]

@[simp] theorem size_mapValues (view : ν → μ) (table : Table κ ν) : (table.mapValues view).size = table.size := by
  simp [size, mapValues]

variable [DecidableEq κ]

@[simp] theorem find?_mapValues (view : ν → μ) (table : Table κ ν) (key : κ) :
    (table.mapValues view).find? key = (table.find? key).map view := by
  obtain ⟨entries⟩ := table
  show (entries.map fun entry => (entry.1, view entry.2)).lookup key = (entries.lookup key).map view
  induction entries with
  | nil => rfl
  | cons entry rest ih =>
    rw [List.map_cons, lookup_entry, lookup_entry, ih]
    split <;> rfl

@[simp] theorem contains_mapValues (view : ν → μ) (table : Table κ ν) (key : κ) :
    (table.mapValues view).contains key = table.contains key := by
  rw [Bool.eq_iff_iff, contains_iff, contains_iff, keys_mapValues]

theorem mapValues_insert (view : ν → μ) (table : Table κ ν) (key : κ) (value : ν) :
    (table.insert key value).mapValues view = (table.mapValues view).insert key (view value) := by
  obtain ⟨entries⟩ := table
  show Table.mk ((put key value entries).map _) = ⟨put key (view value) (entries.map _)⟩
  congr 1
  induction entries with
  | nil => rfl
  | cons entry rest ih =>
    rw [put, List.map_cons, put]
    split
    · rfl
    · rw [List.map_cons, ih]

theorem mapValues_insertNew (view : ν → μ) (table : Table κ ν) (key : κ) (value : ν) :
    (table.insertNew key value).mapValues view = (table.mapValues view).insertNew key (view value) := by
  unfold insertNew
  rw [contains_mapValues]
  split
  · rfl
  · simp [mapValues]

end Table

/-! ## Members and sets of them -/

/-- The member without its role and flag. -/
def Member.plain (m : Member) : Member := { toSignature := m.toSignature }

theorem Member.plain_eq_iff {m m' : Member} : m.plain = m'.plain ↔ m.toSignature = m'.toSignature := by
  constructor
  · intro h
    have hs : m.plain.toSignature = m'.plain.toSignature := by rw [h]
    exact hs
  · intro h
    unfold plain
    rw [h]

namespace MemberSet

def plain (set : MemberSet) : MemberSet := Table.mapValues Member.plain set

section
variable {view : Member → Member} (hv : ∀ m, (view m).toSignature = m.toSignature)
include hv

theorem mapValues_add (set : MemberSet) (m : Member) : (set.add m).mapValues view = add (set.mapValues view) (view m) := by
  unfold add
  rw [Table.mapValues_insertNew, hv]

theorem mapValues_addAll (set : MemberSet) (members : List Member) :
    (set.addAll members).mapValues view = addAll (set.mapValues view) (members.map view) := by
  induction members generalizing set with
  | nil => rfl
  | cons m rest ih =>
    show ((set.add m).addAll rest).mapValues view = addAll (add (set.mapValues view) (view m)) _
    rw [ih, mapValues_add hv]

end

theorem plain_add (set : MemberSet) (m : Member) : (set.add m).plain = set.plain.add m.plain :=
  @mapValues_add Member.plain (fun _ => rfl) set m

theorem plain_addAll (set : MemberSet) (members : List Member) :
    (set.addAll members).plain = set.plain.addAll (members.map Member.plain) :=
  @mapValues_addAll Member.plain (fun _ => rfl) set members

theorem size_plain (set : MemberSet) : Table.size set.plain = Table.size set := Table.size_mapValues _ _

theorem values_plain (set : MemberSet) : Table.values set.plain = (Table.values set).map Member.plain :=
  Table.values_mapValues _ _

theorem map_plain_sorted (set : MemberSet) : set.sorted.map Member.plain = set.plain.sorted := by
  unfold sorted sortMembers
  rw [values_plain]
  exact List.map_mergeSort fun _ _ _ _ => rfl

end MemberSet

/-! ## Stubs -/

namespace StubSet

/-- The stubs with plain members. -/
def plain (stubs : StubSet) : StubSet := { stubs with entries := stubs.entries.mapValues MemberSet.plain }

theorem run_addType_plain (t : TypeId) (stubs : StubSet) :
    (addType t).run.run stubs.plain = (((addType t).run.run stubs).1, ((addType t).run.run stubs).2.plain) := by
  rw [run_addType, run_addType, show stubs.plain.isFrozen = stubs.isFrozen from rfl,
    show stubs.plain.sources = stubs.sources from rfl,
    show stubs.plain.entries.contains t = stubs.entries.contains t from Table.contains_mapValues _ _ t]
  split
  · rfl
  split
  · rfl
  split
  · rfl
  · exact congrArg (fun entries => (Except.ok true, { stubs with entries }))
      (Table.mapValues_insert MemberSet.plain stubs.entries t {}).symm

theorem run_addMembers_plain (t : TypeId) (members : List Member) (stubs : StubSet) :
    (addMembers t (members.map Member.plain)).run.run stubs.plain =
      (((addMembers t members).run.run stubs).1, ((addMembers t members).run.run stubs).2.plain) := by
  rw [run_addMembers, run_addMembers, show stubs.plain.isFrozen = stubs.isFrozen from rfl,
    show stubs.plain.entries.find? t = (stubs.entries.find? t).map MemberSet.plain from Table.find?_mapValues _ _ t]
  split
  · rfl
  cases stubs.entries.find? t with
  | none => rfl
  | some entry =>
    have hown : (members.map Member.plain).takeWhile (fun m => m.owner = t) =
        (members.takeWhile fun m => m.owner = t).map Member.plain := List.takeWhile_map ..
    have hforeign : (members.map Member.plain).find? (fun m => m.owner ≠ t) =
        (members.find? fun m => m.owner ≠ t).map Member.plain := List.find?_map ..
    dsimp only [Option.map_some]
    rw [hown, hforeign, ← MemberSet.plain_addAll, MemberSet.size_plain, MemberSet.size_plain]
    refine Prod.ext ?_ ?_
    · cases members.find? fun m => m.owner ≠ t <;> rfl
    · exact congrArg (fun entries => { stubs with entries }) (Table.mapValues_insert MemberSet.plain ..).symm

end StubSet

/-- What a pass added, with plain members. -/
def PassSummary.plain (summary : PassSummary) : PassSummary :=
  { summary with snapshot := summary.snapshot.mapValues MemberSet.plain }

/-- What a run comes to, with plain members. -/
def ClosureResult.plain (r : ClosureResult) : ClosureResult :=
  { r with stubs := r.stubs.plain, passes := r.passes.map PassSummary.plain }

end StubClosure
