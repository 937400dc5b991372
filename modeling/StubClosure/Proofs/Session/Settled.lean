import StubClosure.Proofs.Session.Faithful

/-!
# Asking again

What a session has been asked, it answers from its memory: nothing is read, reported or remembered a second time. `Settles` says of some work that it only adds to the memory, and that done again, in any session that remembers as much, it finds the same and leaves the session as it is but for the log. This holds of whatever program.
-/

namespace StubClosure

/-- What the table has, the other has too. -/
def Table.Within {κ ν : Type} [DecidableEq κ] (table other : Table κ ν) : Prop :=
  ∀ key value, table.find? key = some value → other.find? key = some value

namespace Table

variable {κ ν : Type} [DecidableEq κ] {table middle other : Table κ ν}

theorem within_refl (table : Table κ ν) : table.Within table := fun _ _ h => h

theorem Within.trans (h : table.Within middle) (h' : middle.Within other) : table.Within other :=
  fun key value hf => h' key value (h key value hf)

theorem within_insert {key : κ} (h : table.find? key = none) (value : ν) :
    table.Within (table.insert key value) := by
  intro other found hf
  rw [find?_insert]
  split
  next he =>
    rw [he, h] at hf
    cases hf
  · exact hf

end Table

/-- The other memory remembers as much, and the same. -/
structure Memory.Within (memory other : Memory) : Prop where
  folded : memory.folded.Within other.folded
  scanned : memory.scanned.Within other.scanned
  refined : memory.refined.Within other.refined

theorem Memory.within_refl (memory : Memory) : memory.Within memory :=
  ⟨Table.within_refl _, Table.within_refl _, Table.within_refl _⟩

theorem Memory.Within.trans {memory middle other : Memory} (h : memory.Within middle) (h' : middle.Within other) :
    memory.Within other :=
  ⟨h.folded.trans h'.folded, h.scanned.trans h'.scanned, h.refined.trans h'.refined⟩

/-- The other session differs in its log at most. -/
structure Session.Resembles (session other : Session) : Prop where
  memory : other.memory = session.memory
  diagnostics : other.sink.diagnostics = session.sink.diagnostics

theorem Session.resembles_refl (session : Session) : session.Resembles session := ⟨rfl, rfl⟩

theorem Session.Resembles.trans {session middle other : Session} (h : session.Resembles middle)
    (h' : middle.Resembles other) : session.Resembles other :=
  ⟨h'.memory.trans h.memory, h'.diagnostics.trans h.diagnostics⟩

namespace Scan

variable {α β : Type}

/-- Done again, the work finds the same and changes no more than the log. -/
structure Settles (work : Scan α) : Prop where
  grows : ∀ s : Session, s.memory.Within (work.run s).2.memory
  again : ∀ s later : Session, (work.run s).2.memory.Within later.memory →
    (work.run later).1 = (work.run s).1 ∧ later.Resembles (work.run later).2

theorem settles_pure (a : α) : Settles (pure a) where
  grows := fun s => s.memory.within_refl
  again := fun _ later _ => ⟨rfl, later.resembles_refl⟩

theorem Settles.bind {work : Scan α} {next : α → Scan β} (hw : Settles work) (hn : ∀ a, Settles (next a)) :
    Settles (work >>= next) where
  grows := fun s => (hw.grows s).trans ((hn _).grows _)
  again := by
    intro s later h
    -- the work is done again first, so what comes next starts from a session that remembers the same
    obtain ⟨ha, hr⟩ := hw.again s later (((hn _).grows _).trans h)
    obtain ⟨hb, hr'⟩ := (hn (work.run s).1).again (work.run s).2 (work.run later).2 (by rwa [hr.memory])
    show ((next (work.run later).1).run (work.run later).2).1 = _ ∧
      later.Resembles ((next (work.run later).1).run (work.run later).2).2
    rw [ha]
    exact ⟨hb, hr.trans hr'⟩

theorem settles_trace (messages : List String) : Settles (trace messages) where
  grows := fun s => s.memory.within_refl
  again := fun _ later _ => ⟨rfl, rfl, Sink.diagnostics_debugAll later.sink messages⟩

end Scan

namespace Reference

open Scan

theorem settles_normalize (p : Program) (m : Member) (site : Option Signature) : Settles (normalize p m site) where
  grows := by
    intro s
    rw [run_normalize]
    cases hf : s.memory.folded.find? (m.toSignature, site) with
    | some known => exact s.memory.within_refl
    | none => exact ⟨Table.within_insert hf _, Table.within_refl _, Table.within_refl _⟩
  again := by
    intro s later h
    have hfound : later.memory.folded.find? (m.toSignature, site) = some ((normalize p m site).run s).1 := by
      refine h.folded _ _ ?_
      rw [run_normalize]
      cases hf : s.memory.folded.find? (m.toSignature, site) with
      | some known => exact hf
      | none => simp
    rw [run_normalize p m site later, hfound]
    exact ⟨rfl, later.resembles_refl⟩

theorem settles_ofInstruction? (p : Program) (site : Signature) (index : Nat) (ins : Instruction) :
    Settles (ofInstruction? p site index ins) := by
  unfold ofInstruction?
  cases ins.member? with
  | none => exact settles_pure none
  | some m =>
    dsimp only
    split
    · exact (settles_normalize p m (some site)).bind fun target => settles_pure _
    · split
      · exact settles_pure _
      · exact settles_pure none

theorem settles_ofInstructions (p : Program) (site : Signature) (index : Nat) (instructions : List Instruction) :
    Settles (ofInstructions p site index instructions) := by
  induction instructions generalizing index with
  | nil => exact settles_pure []
  | cons ins rest ih =>
    exact (settles_ofInstruction? p site index ins).bind fun found => (ih (index + 1)).bind fun others => settles_pure _

/-! A body is remembered once it has been read, and reading it remembers members only. -/

theorem scanned_normalize (p : Program) (m : Member) (site : Option Signature) (s : Session) :
    ((normalize p m site).run s).2.memory.scanned = s.memory.scanned := by
  rw [run_normalize]
  cases s.memory.folded.find? (m.toSignature, site) <;> rfl

theorem scanned_ofInstruction? (p : Program) (site : Signature) (index : Nat) (ins : Instruction) (s : Session) :
    ((ofInstruction? p site index ins).run s).2.memory.scanned = s.memory.scanned := by
  unfold ofInstruction?
  cases ins.member? with
  | none => rfl
  | some m =>
    dsimp only
    split
    · exact scanned_normalize p m (some site) s
    · split <;> rfl

theorem scanned_ofInstructions (p : Program) (site : Signature) (index : Nat) (instructions : List Instruction)
    (s : Session) : ((ofInstructions p site index instructions).run s).2.memory.scanned = s.memory.scanned := by
  induction instructions generalizing index s with
  | nil => rfl
  | cons ins rest ih =>
    exact (ih (index + 1) ((ofInstruction? p site index ins).run s).2).trans (scanned_ofInstruction? p site index ins s)

theorem settles_ofBody (p : Program) (b : Body) : Settles (ofBody p b) where
  grows := by
    intro s
    rw [run_ofBody]
    cases hf : s.memory.scanned.find? b.method.toSignature with
    | some known => exact s.memory.within_refl
    | none =>
      have hread := (settles_ofInstructions p b.method.toSignature 0 b.instructions).grows s
      refine hread.trans ⟨Table.within_refl _, Table.within_insert ?_ _, Table.within_refl _⟩
      rw [scanned_ofInstructions, hf]
  again := by
    intro s later h
    have hfound : later.memory.scanned.find? b.method.toSignature = some ((ofBody p b).run s).1 := by
      refine h.scanned _ _ ?_
      rw [run_ofBody]
      cases hf : s.memory.scanned.find? b.method.toSignature with
      | some known => exact hf
      | none => simp
    rw [run_ofBody p b later, hfound]
    exact ⟨rfl, later.resembles_refl⟩

theorem settles_ofBodies (p : Program) (bodies : List Body) : Settles (ofBodies p bodies) := by
  induction bodies with
  | nil => exact settles_pure []
  | cons b rest ih => exact (settles_ofBody p b).bind fun found => ih.bind fun others => settles_pure _

theorem settles_into (p : Program) (stub scanned : TypeId) : Settles (into p stub scanned) :=
  (settles_ofBodies p (p.bodiesOf scanned)).bind fun _ => settles_pure _

end Reference

end StubClosure
