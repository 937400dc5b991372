import Mathlib.Data.List.TakeWhile
import StubClosure.StubSet
import StubClosure.Proofs.Step

/-!
# Growing stub sets

What each addition to a stub set comes to, in one equation. `membersAt` reads a table of members by type without asking whether the type is a key: adding a key changes no members, and adding members changes those of one key.
-/

namespace StubClosure

/-- The members that a table has under a type. -/
def membersAt (table : Table TypeId MemberSet) (t : TypeId) : MemberSet := (table.find? t).getD {}

theorem membersAt_insert (table : Table TypeId MemberSet) (t : TypeId) (set : MemberSet) (other : TypeId) :
    membersAt (table.insert t set) other = if other = t then set else membersAt table other := by
  unfold membersAt
  rw [Table.find?_insert]
  split <;> rfl

theorem membersAt_of_find? {table : Table TypeId MemberSet} {t : TypeId} {set : MemberSet}
    (h : table.find? t = some set) : membersAt table t = set := by
  rw [membersAt, h]
  rfl

theorem membersAt_of_not_mem {table : Table TypeId MemberSet} {t : TypeId} (h : t ∉ table.keys) :
    membersAt table t = {} := by
  rw [membersAt, Table.find?_eq_none_iff.2 h]
  rfl

/-- Every key of the table stands there once, and every member once under its key. -/
structure Distinct (table : Table TypeId MemberSet) : Prop where
  keys : table.keys.Nodup
  members : ∀ t, (membersAt table t).keys.Nodup

theorem distinct_empty : Distinct {} where
  keys := List.nodup_nil
  members := fun _ => List.nodup_nil

theorem Distinct.insert {table : Table TypeId MemberSet} (h : Distinct table) {t : TypeId} {set : MemberSet}
    (hset : set.keys.Nodup) : Distinct (table.insert t set) where
  keys := Table.nodup_keys_insert h.keys t set
  members := by
    intro other
    rw [membersAt_insert]
    split
    · exact hset
    · exact h.members other

namespace StubSet

open Step

theorem run_checkMutable_bind {α : Type} (next : Stubbing α) (s : StubSet) :
    (checkMutable >>= fun _ => next).run.run s = if s.isFrozen then (.error .frozen, s) else next.run.run s := by
  show ((if s.isFrozen then throw .frozen else pure () : Stubbing Unit) >>= fun _ => next).run.run s = _
  split <;> rfl

theorem run_addType (t : TypeId) (s : StubSet) :
    (addType t).run.run s =
      if s.isFrozen then (.error .frozen, s)
      else if t ∈ s.sources then (.error (.sourceType t), s)
      else if s.entries.contains t then (.ok false, s)
      else (.ok true, { s with entries := s.entries.insert t {} }) := by
  unfold addType
  rw [run_checkMutable_bind]
  split
  · rfl
  rw [run_get_bind]
  dsimp only
  by_cases hs : t ∈ s.sources
  · rw [if_pos hs, if_pos hs]
    rfl
  · rw [if_neg hs, if_neg hs, run_get_bind]
    by_cases hc : s.entries.contains t = true
    · rw [if_pos hc, if_pos hc]
      rfl
    · rw [if_neg hc, if_neg hc]
      rfl

theorem run_addMembers (t : TypeId) (members : List Member) (s : StubSet) :
    (addMembers t members).run.run s =
      if s.isFrozen then (.error .frozen, s)
      else match s.entries.find? t with
        | none => (.error (.notStubbed t), s)
        | some entry =>
          let grown := entry.addAll (members.takeWhile fun m => m.owner = t)
          (match members.find? fun m => m.owner ≠ t with
            | some m => .error (.foreignMember m.toSignature t)
            | none => .ok (grown.size - entry.size),
            { s with entries := s.entries.insert t grown }) := by
  unfold addMembers
  rw [run_checkMutable_bind]
  split
  · rfl
  rw [run_get_bind]
  cases s.entries.find? t with
  | none => rfl
  | some entry =>
    dsimp only
    rw [run_modify_bind]
    cases members.find? fun m => m.owner ≠ t <;> rfl

theorem run_addType_eq_false_iff {t : TypeId} {s after : StubSet} :
    (addType t).run.run s = (.ok false, after) ↔
      after = s ∧ s.isFrozen = false ∧ t ∉ s.sources ∧ t ∈ s.entries.keys := by
  rw [run_addType]
  constructor
  · intro h
    split at h
    · cases h
    next hf =>
      split at h
      · cases h
      next hs =>
        split at h
        next ht =>
          cases h
          exact ⟨rfl, Bool.eq_false_iff.2 hf, hs, Table.contains_iff.1 ht⟩
        · cases h
  · rintro ⟨rfl, hf, hs, ht⟩
    rw [if_neg (Bool.eq_false_iff.1 hf), if_neg hs, if_pos (Table.contains_iff.2 ht)]

/-! ## Additions that nothing stands against -/

theorem takeWhile_owner {t : TypeId} {members : List Member} (h : ∀ m ∈ members, m.owner = t) :
    (members.takeWhile fun m => m.owner = t) = members :=
  List.takeWhile_eq_self_iff.2 fun m hm => by simpa using h m hm

theorem run_addType_of_open {t : TypeId} {s : StubSet} (hopen : s.isFrozen = false) (ht : t ∉ s.sources) :
    (addType t).run.run s =
      if s.entries.contains t then (.ok false, s) else (.ok true, { s with entries := s.entries.insert t {} }) := by
  rw [run_addType, if_neg (by simp [hopen]), if_neg ht]

theorem run_addMembers_of_open {t : TypeId} {members : List Member} {s : StubSet} (hopen : s.isFrozen = false)
    (ht : t ∈ s.entries.keys) (ho : ∀ m ∈ members, m.owner = t) :
    (addMembers t members).run.run s =
      let grown := (membersAt s.entries t).addAll members
      (.ok (grown.size - (membersAt s.entries t).size), { s with entries := s.entries.insert t grown }) := by
  obtain ⟨entry, hentry⟩ := Table.exists_find?_of_mem ht
  have hfind : (members.find? fun m => m.owner ≠ t) = none := by
    rw [List.find?_eq_none]
    intro m hm
    simpa using ho m hm
  rw [run_addMembers, if_neg (by simp [hopen]), hentry]
  dsimp only
  rw [takeWhile_owner ho, hfind, membersAt_of_find? hentry]

/-! ## Growth -/

/-- The other stub set is as large: it has the keys, and under each of them the members. -/
structure Within (stubs other : StubSet) : Prop where
  sources : other.sources = stubs.sources
  isFrozen : other.isFrozen = stubs.isFrozen
  keys : stubs.entries.keys ⊆ other.entries.keys
  members : ∀ t, (membersAt stubs.entries t).keys ⊆ (membersAt other.entries t).keys

theorem within_refl (stubs : StubSet) : stubs.Within stubs := ⟨rfl, rfl, fun _ h => h, fun _ _ h => h⟩

theorem Within.trans {stubs middle other : StubSet} (h : stubs.Within middle) (h' : middle.Within other) :
    stubs.Within other :=
  ⟨h'.sources.trans h.sources, h'.isFrozen.trans h.isFrozen, fun _ ht => h'.keys (h.keys ht),
    fun t _ hs => h'.members t (h.members t hs)⟩

theorem of_run_addMembers {t : TypeId} {members : List Member} {s after : StubSet} {added : Nat}
    (h : (addMembers t members).run.run s = (.ok added, after)) :
    s.isFrozen = false ∧ t ∈ s.entries.keys ∧ (∀ m ∈ members, m.owner = t) ∧
      after = { s with entries := s.entries.insert t ((membersAt s.entries t).addAll members) } := by
  rw [run_addMembers] at h
  split at h
  · cases h
  next hf =>
    cases hentry : s.entries.find? t with
    | none =>
      rw [hentry] at h
      cases h
    | some entry =>
      rw [hentry] at h
      dsimp only at h
      cases hforeign : members.find? fun m => m.owner ≠ t with
      | some m =>
        rw [hforeign] at h
        cases h
      | none =>
        rw [hforeign] at h
        have ho : ∀ m ∈ members, m.owner = t := by simpa using List.find?_eq_none.1 hforeign
        rw [takeWhile_owner ho] at h
        cases h
        refine ⟨Bool.eq_false_iff.2 hf, Table.mem_keys_of_find? hentry, ho, ?_⟩
        rw [membersAt_of_find? hentry]

theorem addMembers_again {t : TypeId} {members : List Member} {s after : StubSet} {added : Nat}
    (h : (addMembers t members).run.run s = (.ok added, after)) :
    s.Within after ∧ after.entries.keys = s.entries.keys ∧
      ∀ later : StubSet, after.Within later → (addMembers t members).run.run later = (.ok 0, later) := by
  obtain ⟨hopen, ht, ho, rfl⟩ := of_run_addMembers h
  have hkeys : (s.entries.insert t ((membersAt s.entries t).addAll members)).keys = s.entries.keys := by
    rw [Table.keys_insert, if_pos ht]
  refine ⟨⟨rfl, rfl, ?_, ?_⟩, hkeys, fun later hl => ?_⟩
  · rw [hkeys]
    exact fun _ h => h
  · intro other key hk
    rw [membersAt_insert]
    split
    next he => exact MemberSet.mem_keys_addAll.2 (.inl (he ▸ hk))
    · exact hk
  · have hin : t ∈ later.entries.keys := hl.keys (by rwa [hkeys])
    have hmem : ∀ m ∈ members, m.toSignature ∈ (membersAt later.entries t).keys := by
      intro m hm
      refine hl.members t ?_
      rw [membersAt_insert, if_pos rfl]
      exact MemberSet.mem_keys_addAll.2 (.inr (List.mem_map_of_mem hm))
    obtain ⟨entry, hentry⟩ := Table.exists_find?_of_mem hin
    rw [run_addMembers_of_open (hl.isFrozen.trans hopen) hin ho, MemberSet.addAll_eq_self hmem]
    dsimp only
    rw [membersAt_of_find? hentry, Table.insert_eq_self hentry, Nat.sub_self]

end StubSet

end StubClosure
