import StubClosure.Closure.Discovery

/-!
# Passes

A pass takes the stub types known at its start and goes over all source types. Every type that is asked for and can be stubbed becomes a key, if it is none yet; then each of these types gets every member that the source types, or types nested in them, refer to.
-/

namespace StubClosure

/-- What a pass added, and the stubs after it. -/
structure PassSummary where
  index : Nat
  newTypes : List TypeId
  newMembers : Nat
  snapshot : Table TypeId MemberSet
  deriving Repr

namespace Closure

/-- Nested in one of the types, at any depth. -/
def nestedInAny (t : TypeId) (outers : List TypeId) : Bool := outers.any t.isNestedIn

/-- Compiled from source, as a source type or nested in one. -/
def isSourced (sources : List TypeId) (t : TypeId) : Bool := sources.contains t || nestedInAny t sources

/-- The type can have a stub: the program defines it, and it is not compiled from source. -/
def stubbable (p : Program) (sources : List TypeId) (t : TypeId) : Bool := !isSourced sources t && p.defines t

/-- The types whose bodies show what stubs have to declare: the source types, each with the types nested in it. -/
def scannedTypes (p : Program) (sources : List TypeId) : List TypeId := sources.flatMap p.withNested

/-- The members of a type that the given types refer to. -/
def contentsFrom (p : Program) (stub : TypeId) : List TypeId → MemberSet → Scan MemberSet
  | [], content => return content
  | scanned :: rest, content => do
    let found ← Reference.into p stub scanned
    contentsFrom p stub rest (content.addAll found.values)

/-- The members of a type that the source types, or types nested in them, refer to. -/
def stubContents (p : Program) (stub : TypeId) (sources : List TypeId) : Scan MemberSet :=
  contentsFrom p stub (scannedTypes p sources) {}

/-- The types that a pass has to stub, each with the methods to declare on it because calls were refined to them. -/
abbrev Wanted := Table TypeId MemberSet

/-- Takes in the types that a source type asks for, the source type as the origin of those that have none. -/
def want (source : TypeId) (d : Discovery) (wanted : Wanted) (types : List TypeId) : Closing Wanted := do
  modify fun run => { run with origins := types.foldl (fun origins t => origins.insertNew t source) run.origins }
  return types.foldl
    (fun wanted t =>
      wanted.insert t (MemberSet.addAll ((wanted.find? t).getD {}) ((d.seeds.find? t).getD {}).values))
    wanted

/-- What all source types ask for. -/
def wantedTypes (p : Program) (sources known : List TypeId) : List TypeId → Wanted → Closing Wanted
  | [], wanted => return wanted
  | source :: rest, wanted => do
    let d ← relatedCalls p source known
    Closing.scan (Scan.trace (d.methods.sorted.map fun m => s!"STUB {m.text}, called from {source.name}"))
    let types := (sortOn TypeId.fullName d.wanted).filter (stubbable p sources)
    wantedTypes p sources known rest (← want source d wanted types)

/-- The report on a new stub type. -/
def stubbed (t origin : TypeId) : Diagnostic where
  message := s!"stubbing {t.fullName}, called from {origin.fullName}"
  code := some DiagnosticCode.stubDiscovered.name
  phase := some "closure"
  severity := .info

/-- Makes types keys. Gives those that are new. -/
def addKeys : List TypeId → Closing (List TypeId)
  | [] => return []
  | t :: rest => do
    if ← Closing.stub (StubSet.addType t) then
      match (← get).origins.find? t with
      | none => throw (.noOrigin t)
      | some origin => Closing.scan (Scan.report [stubbed t origin])
      return t :: (← addKeys rest)
    else addKeys rest

/-- The methods that calls were refined to, folded. -/
def foldSeeds (p : Program) : List Member → Scan (List Member)
  | [] => return []
  | m :: rest => do
    let folded ← Reference.normalize p m none
    return folded :: (← foldSeeds p rest)

/-- Gives types their members. Gives the number of those that are new. -/
def fill (p : Program) (sources : List TypeId) (wanted : Wanted) : List TypeId → Closing Nat
  | [] => return 0
  | t :: rest => do
    let content ← Closing.scan (stubContents p t sources)
    let seeds ← Closing.scan (foldSeeds p ((wanted.find? t).getD {}).values)
    let added ← Closing.stub (StubSet.addMembers t (content.addAll seeds).values)
    return added + (← fill p sources wanted rest)

/-- The stubs after a pass, with what it added. -/
def summarize (index : Nat) (newTypes : List TypeId) (newMembers : Nat) : Closing PassSummary := do
  return { index, newTypes, newMembers, snapshot := (← get).stubs.entries }

/-- One pass over the source types. -/
def runPass (p : Program) (sources : List TypeId) (index : Nat) : Closing PassSummary := do
  let wanted ← wantedTypes p sources (← get).stubs.keys sources {}
  let types := sortOn TypeId.fullName wanted.keys
  let newTypes ← addKeys types
  let newMembers ← fill p sources wanted types
  summarize index newTypes newMembers

/-- Stubs types whether they are asked for or not. Gives those that are new, and the number of new members. -/
def stubAll (p : Program) (sources : List TypeId) : List TypeId → Closing (List TypeId × Nat)
  | [] => return ([], 0)
  | t :: rest => do
    let isNew ← Closing.stub (StubSet.addType t)
    let content ← Closing.scan (stubContents p t sources)
    let added ← Closing.stub (StubSet.addMembers t content.values)
    let (newTypes, newMembers) ← stubAll p sources rest
    return (if isNew then t :: newTypes else newTypes, added + newMembers)

/-- A single pass that stubs every type of the program that is not compiled from source. -/
def stubEverything (p : Program) (sources : List TypeId) : Closing PassSummary := do
  let types := (sortOn TypeId.fullName (p.types.values.map (·.id))).filter fun t => !isSourced sources t
  let (newTypes, newMembers) ← stubAll p sources types
  summarize 1 newTypes newMembers

end Closure

end StubClosure
