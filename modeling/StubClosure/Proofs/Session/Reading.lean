import StubClosure.Receiver
import StubClosure.Reference

/-!
# Reading without a memory

The questions that a session answers can be answered without one, by going over the program each time. A `Reading` is what is found so, and what the program was looked up for on the way: each member that is folded for a site and each call whose receiver is looked for, as often as it comes up. On every such `Lookup` there may be something to report. A session knows lookups by their keys, and reports once on each key. So the lookups of some readings tell what a session has to report that answers the same questions (`Lookup.reported`).
-/

namespace StubClosure

/-! ## Lookups -/

/-- Something looked up in a program on which there may be a report: what a member at a site stands for, or what the call at an index of a body is a call on. -/
inductive Lookup where
  | fold (m : Member) (site : Option Signature)
  | receiver (b : Body) (index : Int)

namespace Lookup

/-- What a session knows a lookup by: member and site, or method and index. -/
abbrev Key := (Signature × Option Signature) ⊕ (Signature × Int)

def key : Lookup → Key
  | fold m site => .inl (m.toSignature, site)
  | receiver b index => .inr (b.method.toSignature, index)

/-- What there is to report on a lookup. -/
def reports (p : Program) : Lookup → List Diagnostic
  | fold m site => (Reference.foldAccessor p m site).2
  | receiver b index =>
    match Receiver.resolveHere p b index with
    | .ok (_, reports) => reports
    | .error _ => []

/-- What there is to report on lookups made one after the other, if of each key the first is reported on and no other. -/
def reported (p : Program) (past : List Lookup) : List Diagnostic :=
  (Table.firstBy key past).values.flatMap (reports p)

/-- One of the lookups has the key. -/
def Known (past : List Lookup) (key : Key) : Prop := key ∈ past.map Lookup.key

variable {p : Program} {past more : List Lookup} {look : Lookup} {key : Key}

theorem Known.append (h : Known past key) (more : List Lookup) : Known (past ++ more) key := by
  unfold Known
  rw [List.map_append]
  exact List.mem_append_left _ h

theorem known_append_of_mem (past : List Lookup) (h : look ∈ more) : Known (past ++ more) look.key := by
  unfold Known
  rw [List.map_append]
  exact List.mem_append_right _ (List.mem_map_of_mem h)

theorem known_append_iff_of_forall (h : ∀ look ∈ more, Known past look.key) :
    Known (past ++ more) key ↔ Known past key := by
  unfold Known
  rw [List.map_append, List.mem_append, or_iff_left_of_imp]
  intro hk
  obtain ⟨look, hlook, rfl⟩ := List.mem_map.1 hk
  exact h look hlook

theorem known_concat_iff : Known (past ++ [look]) key ↔ Known past key ∨ key = look.key := by
  unfold Known
  rw [List.map_append, List.map_singleton, List.mem_append, List.mem_singleton]

theorem reported_append_of_forall (h : ∀ look ∈ more, Known past look.key) :
    reported p (past ++ more) = reported p past := by
  rw [reported, Table.firstBy_append_of_forall h]
  rfl

theorem reported_concat_of_new (h : ¬ Known past look.key) :
    reported p (past ++ [look]) = reported p past ++ look.reports p := by
  rw [reported, Table.values_firstBy_concat h, List.flatMap_append, List.flatMap_singleton]
  rfl

theorem reported_concat_of_silent (h : look.reports p = []) : reported p (past ++ [look]) = reported p past := by
  by_cases hknown : Known past look.key
  · exact reported_append_of_forall (List.forall_mem_singleton.2 hknown)
  · rw [reported_concat_of_new hknown, h, List.append_nil]

end Lookup

/-! ## Readings -/

/-- What is found, and the lookups that were made for it. -/
structure Reading (α : Type) where
  found : α
  lookups : List Lookup := []

namespace Reading

variable {α β : Type}

instance : Monad Reading where
  pure a := { found := a }
  bind reading next :=
    { found := (next reading.found).found, lookups := reading.lookups ++ (next reading.found).lookups }

@[simp] theorem lookups_pure (a : α) : (pure a : Reading α).lookups = [] := rfl

@[simp] theorem lookups_bind (reading : Reading α) (next : α → Reading β) :
    (reading >>= next).lookups = reading.lookups ++ (next reading.found).lookups := rfl

end Reading

namespace Reference

/-- The member that a reference to a method stands for. -/
def readMember (p : Program) (m : Member) (site : Option Signature) : Reading Member where
  found := (foldAccessor p m site).1
  lookups := [.fold m site]

/-- The reference that an instruction makes. -/
def read? (p : Program) (site : Signature) (index : Nat) (ins : Instruction) : Reading (Option Reference) :=
  match ins.member? with
  | none => return none
  | some m =>
    if ins.isCall then do
      let target ← readMember p m (some site)
      return some { category := ins.category, target, declared := m, index }
    else if ins.isFieldAccess then return some { category := ins.category, target := m, declared := m, index }
    else return none

/-- The references of instructions that begin at an index. -/
def readFrom (p : Program) (site : Signature) : Nat → List Instruction → Reading (List Reference)
  | _, [] => return []
  | index, ins :: rest => do
    let found ← read? p site index ins
    let others ← readFrom p site (index + 1) rest
    return found.toList ++ others

/-- The references of a body, in the order of its instructions. -/
def readBody (p : Program) (b : Body) : Reading (List Reference) := readFrom p b.method.toSignature 0 b.instructions

/-- The references of several bodies, body by body. -/
def readBodies (p : Program) : List Body → Reading (List (Body × List Reference))
  | [] => return []
  | b :: rest => do
    let found ← readBody p b
    let others ← readBodies p rest
    return (b, found) :: others

/-- The members of one type that the bodies of another refer to. -/
def readInto (p : Program) (stub scanned : TypeId) : Reading MemberSet := do
  let found ← readBodies p (p.bodiesOf scanned)
  return MemberSet.ofList ((found.flatMap (·.2)).map Reference.target |>.filter (·.owner = stub))

end Reference

/-- The refinement of the virtual call at an index. -/
def Receiver.read (p : Program) (b : Body) (index : Int) : Reading (Except ReceiverError (Option Refinement)) where
  found := (resolveHere p b index).map (·.1)
  lookups := [.receiver b index]

end StubClosure
