import StubClosure.Session

/-!
# References

The members that a method body refers to. A stub declares a property and not its accessors, so a call of an accessor counts as a reference to the property: it is folded. A special method that no property lists is reported and kept as it is.
-/

namespace StubClosure

namespace Property

/-- The accessor in the slot that a role belongs to. -/
def slot? (row : Property) : Role → Option Member
  | .getter => row.getter
  | .setter => row.setter
  | .ordinary | .constructor | .special => none

end Property

namespace Program

/-- The method as the program defines it, or the reference itself if it does not. -/
def definition (p : Program) (m : Member) : Member := ((p.type? m.owner).bind (·.definition? m)).getD m

/-- The first property of the type that has the method in the slot of the method's role. -/
def owningProperty? (p : Program) (definition : Member) : Option Property :=
  (p.propertiesOf definition.owner).find? fun row => (row.slot? definition.role).any (·.same definition)

/-- The method might be an accessor: its type has properties, and its definition is special and no constructor. -/
def isFoldable (p : Program) (m : Member) : Bool :=
  m.kind = .method && !(p.propertiesOf m.owner).isEmpty &&
    (p.definition m).isSpecialName && !(p.definition m).isConstructor

end Program

namespace Reference

/-- The report on a special method that belongs to no property. -/
def unknownSpecial (definition : Member) (site : Option Signature) : Diagnostic where
  message :=
    if definition.role = .special then s!"unknown special method {definition.name}, that is no property accessor"
    else s!"accessor {definition.name} of {definition.owner.fullName} has no owning property"
  code := some DiagnosticCode.unknownSpecialMember.name
  phase := some "scan"
  notes := site.toList.map fun site => s!"referenced from {site.text}"

/-- The member that a reference to a method stands for, and what is to be reported on it. -/
def foldAccessor (p : Program) (m : Member) (site : Option Signature) : Member × List Diagnostic :=
  if p.isFoldable m then
    match p.owningProperty? (p.definition m) with
    | some row => (row.ref, [])
    | none => (m, [unknownSpecial (p.definition m) site])
  else (m, [])

/-- The member that a reference to a method stands for. The report on a member is made once for each site. -/
def normalize (p : Program) (m : Member) (site : Option Signature) : Scan Member := do
  match (← get).memory.folded.find? (m.toSignature, site) with
  | some known => return known
  | none =>
    let (target, reports) := foldAccessor p m site
    Scan.report reports
    Scan.remember fun memory => { memory with folded := memory.folded.insert (m.toSignature, site) target }
    return target

/-- The reference that an instruction makes. Only calls and accesses to fields make one. -/
def ofInstruction? (p : Program) (site : Signature) (index : Nat) (ins : Instruction) : Scan (Option Reference) :=
  match ins.member? with
  | none => return none
  | some m =>
    if ins.isCall then do
      let target ← normalize p m (some site)
      return some { category := ins.category, target, declared := m, index }
    else if ins.isFieldAccess then return some { category := ins.category, target := m, declared := m, index }
    else return none

/-- The references of instructions that begin at an index. -/
def ofInstructions (p : Program) (site : Signature) : Nat → List Instruction → Scan (List Reference)
  | _, [] => return []
  | index, ins :: rest => do
    let found ← ofInstruction? p site index ins
    let others ← ofInstructions p site (index + 1) rest
    return found.toList ++ others

/-- The references of a body, in the order of its instructions. A body is read once for each method. -/
def ofBody (p : Program) (b : Body) : Scan (List Reference) := do
  match (← get).memory.scanned.find? b.method.toSignature with
  | some known => return known
  | none =>
    let found ← ofInstructions p b.method.toSignature 0 b.instructions
    Scan.remember fun memory => { memory with scanned := memory.scanned.insert b.method.toSignature found }
    return found

/-- The references of several bodies, body by body. -/
def ofBodies (p : Program) : List Body → Scan (List (Body × List Reference))
  | [] => return []
  | b :: rest => do
    let found ← ofBody p b
    let others ← ofBodies p rest
    return (b, found) :: others

/-- The members of one type that the bodies of another refer to. -/
def into (p : Program) (stub scanned : TypeId) : Scan MemberSet := do
  let found ← ofBodies p (p.bodiesOf scanned)
  return MemberSet.ofList ((found.flatMap (·.2)).map Reference.target |>.filter (·.owner = stub))

end Reference

end StubClosure
