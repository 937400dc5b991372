import StubClosure.Listing.Load
import StubClosure.Proofs.Program.Change

/-!
# The calls that load a listing

Loading descends into declarations twice, and the program grows on the way. What it asks of the builder can be told ahead: `calls` lists it, call by call, without a program in sight. First come the types, each before those inside it; then for each type its fields, methods and inner types in the order of the listing, and its properties after them. `elaborate_eq` says that loading is to make these calls one after the other, up to the first that fails, and to resolve the operands in the end.
-/

namespace StubClosure.Listing

open Step

/-- What is asked of the builder at a declaration: a step, or why it comes to none. -/
structure Call where
  position : Position
  step : Except LoadError BuildStep

namespace Call

/-- Makes the call. A step that fails is reported at the declaration. -/
def make (file : Option String) (p : Program) (c : Call) : Except LoadError Program := do
  let (_, p) ← build file c.position p (← c.step).perform
  return p

end Call

/-- Makes calls one after the other. -/
def makeAll (file : Option String) (calls : List Call) (p : Program) : Except LoadError Program :=
  calls.foldlM (Call.make file) p

/-! ## The call of a declaration -/

section
variable (file : Option String)

/-- A name that is taken for a type at the place of a declaration. -/
def namedAt {α : Type} (position : Position) (name : Except TypeNameError α) : Except LoadError α :=
  located file position (orFault typeFault name)

def headCall (outer : Option TypeId) (h : TypeHead) : Call where
  position := h.position
  step := do
    let t ← namedAt file h.position (declaredId outer h.name)
    let base ← h.base.mapM fun name => namedAt file h.position (typeNamed name)
    let interfaces ← h.interfaces.mapM fun name => namedAt file h.position (typeNamed name)
    return .type (.id t) (base.map .id) (interfaces.map .id) (h.modifiers.contains "public")

def fieldCall (owner : TypeId) (f : FieldDecl) : Call where
  position := f.position
  step := do
    let type ← namedAt file f.position (typeNamed f.type)
    return .field owner f.name (.id type) (f.modifiers.contains "static")

def propertyCall (owner : TypeId) (d : PropertyDecl) : Call where
  position := d.position
  step := do
    let type ← namedAt file d.position (typeNamed d.type)
    return .property owner d.name (.id type) (d.getter?.map .name) (d.setter?.map .name)

/-- The names of the types of a method's locals. -/
def localNames (m : MethodDecl) : List String := (m.body.bind BodyDecl.locals).getD []

def methodCall (owner : TypeId) (m : MethodDecl) : Call where
  position := m.position
  step := do
    let params ← signatureTypes m.params
    let locals ← signatureTypes (localNames m)
    let body ← m.body.mapM fun body => body.instructions.mapM (instructionOf file)
    let returns ← namedAt file m.position (typeNamed m.returns)
    return .method owner
      { name := m.name, params := params.map .id, returns := .id returns
        isStatic := m.modifiers.contains "static"
        isSpecial := m.modifiers.contains "specialname" || m.modifiers.contains "rtspecialname"
        body, locals := locals.map .id }

/-! ## Their order -/

mutual

/-- The calls for a type and the types inside it, each before those inside it. -/
def typeCalls (outer : Option TypeId) (h : TypeHead) (members : List Decl) : List Call :=
  headCall file outer h ::
    match declaredId outer h.name with
    | .ok t => innerCalls t members
    | .error _ => []

/-- The calls for the types among the members of a type. -/
def innerCalls (owner : TypeId) : List Decl → List Call
  | [] => []
  | .type h members :: rest => typeCalls (some owner) h members ++ innerCalls owner rest
  | .field _ :: rest | .property _ :: rest | .method _ :: rest => innerCalls owner rest

end

/-- The calls for the properties among the members of a type. -/
def propertyCalls (owner : TypeId) : List Decl → List Call
  | [] => []
  | .property d :: rest => propertyCall file owner d :: propertyCalls owner rest
  | .field _ :: rest | .method _ :: rest | .type .. :: rest => propertyCalls owner rest

mutual

/-- The calls for the members of a type and of those inside it: the properties of each come last. -/
def fillCalls (outer : Option TypeId) (h : TypeHead) (members : List Decl) : List Call :=
  match declaredId outer h.name with
  | .ok t => memberCalls t members ++ propertyCalls file t members
  | .error _ => []

/-- The calls for the members of a type other than its properties. -/
def memberCalls (owner : TypeId) : List Decl → List Call
  | [] => []
  | .field f :: rest => fieldCall file owner f :: memberCalls owner rest
  | .method m :: rest => methodCall file owner m :: memberCalls owner rest
  | .type h members :: rest => fillCalls (some owner) h members ++ memberCalls owner rest
  | .property _ :: rest => memberCalls owner rest

end

/-- **The calls that load a listing**, in their order. -/
def calls (types : List TypeDecl) : List Call :=
  types.flatMap (fun t => typeCalls file none t.head t.members) ++
    types.flatMap fun t => fillCalls file none t.head t.members

end

/-! ## Loading makes these calls -/

variable {file : Option String} {outer : Option TypeId} {h : TypeHead} {p : Program}

theorem makeAll_cons (c : Call) (rest : List Call) :
    makeAll file (c :: rest) p = c.make file p >>= makeAll file rest := rfl

theorem makeAll_append (first second : List Call) :
    makeAll file (first ++ second) p = makeAll file first p >>= makeAll file second := by
  induction first generalizing p with
  | nil => rfl
  | cons c rest ih =>
    rw [List.cons_append, makeAll_cons, makeAll_cons, bind_assoc]
    exact bind_congr fun q => ih

theorem makeAll_flatMap {α : Type} (list : α → List Call) (as : List α) :
    makeAll file (as.flatMap list) p = as.foldlM (fun p a => makeAll file (list a) p) p := by
  induction as generalizing p with
  | nil => rfl
  | cons a rest ih =>
    rw [List.flatMap_cons, makeAll_append, List.foldlM_cons]
    exact bind_congr fun q => ih

theorem build_forget {α : Type} (position : Position) (work : Build α) :
    build file position p (do let _ ← work) = (build file position p work).map fun found => ((), found.2) := by
  unfold build
  rw [show ExceptT.run (do let _ ← work) p = _ from run_bind work _ p,
    show ExceptT.run work p = work.run.run p from rfl]
  rcases work.run.run p with ⟨e | a, after⟩ <;> rfl

theorem addField_eq (owner : TypeId) (f : FieldDecl) :
    addField file owner f p = (fieldCall file owner f).make file p := by
  unfold addField fieldCall Call.make
  rw [bind_assoc]
  refine bind_congr fun type => ?_
  rw [pure_bind, BuildStep.perform, build_forget]
  rcases build file f.position p _ with e | ⟨m, q⟩ <;> rfl

theorem addProperty_eq (owner : TypeId) (d : PropertyDecl) :
    addProperty file owner d p = (propertyCall file owner d).make file p := by
  unfold addProperty propertyCall Call.make
  rw [bind_assoc]
  refine bind_congr fun type => ?_
  rw [pure_bind, BuildStep.perform, build_forget]
  rcases build file d.position p _ with e | ⟨m, q⟩ <;> rfl

theorem addMethod_eq (owner : TypeId) (m : MethodDecl) :
    addMethod file owner m p = (methodCall file owner m).make file p := by
  unfold addMethod methodCall Call.make
  rw [bind_assoc]
  refine bind_congr fun params => ?_
  rw [bind_assoc]
  refine bind_congr fun locals => ?_
  rw [bind_assoc]
  refine bind_congr fun body => ?_
  rw [bind_assoc]
  refine bind_congr fun returns => ?_
  rw [pure_bind, BuildStep.perform, build_forget]
  rcases build file m.position p _ with e | ⟨m, q⟩ <;> rfl

theorem ends_addType (t : TypeId) (base : Option TypeArg) (interfaces : List TypeArg) (isPublic : Bool) :
    Ends (Build.addType (.id t) base interfaces isPublic) p fun outcome _ => ∀ a, outcome = .ok a → a = t := by
  have hdefine : ∀ q, Ends (Build.defineType t base interfaces isPublic) q fun outcome _ =>
      ∀ a, outcome = .ok a → a = t := by
    intro q
    unfold Ends
    rcases Build.run_defineType_cases t base interfaces isPublic with ⟨-, e, hrun⟩ | ⟨-, found, others, hrun⟩
    · rw [hrun]
      rintro a ⟨⟩
    · rw [hrun]
      rintro a ⟨⟩
      rfl
  unfold Ends
  rcases Build.run_addType_cases p (.id t) base interfaces isPublic with
    ⟨e, hrun⟩ | ⟨found, outer, hadds, hrun⟩ | ⟨found, hfound, -, -, hrun⟩
  · rw [hrun]
    rintro a ⟨⟩
  · obtain rfl := Except.ok.inj hadds.resolves
    rw [hrun]
    exact hdefine _
  · obtain rfl := Except.ok.inj hfound
    rw [hrun]
    exact hdefine p

theorem build_addType (position : Position) (t : TypeId) (base : Option TypeArg) (interfaces : List TypeArg)
    (isPublic : Bool) : build file position p (Build.addType (.id t) base interfaces isPublic) =
      (build file position p (BuildStep.type (.id t) base interfaces isPublic).perform).map fun found => (t, found.2) := by
  have hsame := ends_addType (p := p) t base interfaces isPublic
  unfold Ends at hsame
  rw [BuildStep.perform, build_forget]
  unfold build
  rw [show StateT.run (ExceptT.run (Build.addType (.id t) base interfaces isPublic)) p =
    ExceptT.run (Build.addType (.id t) base interfaces isPublic) p from rfl] at hsame
  rcases hrun : ExceptT.run (Build.addType (.id t) base interfaces isPublic) p with ⟨e | a, after⟩
  · rfl
  · rw [hrun] at hsame
    obtain rfl := hsame a rfl
    rfl

theorem declareHead_of_error (file : Option String) (p : Program) {e : TypeNameError}
    (he : declaredId outer h.name = .error e) :
    ∃ error, declareHead file outer h p = .error error ∧ (headCall file outer h).make file p = .error error := by
  unfold declareHead headCall Call.make
  rw [he]
  exact ⟨_, rfl, rfl⟩

theorem declareHead_of_ok {t : TypeId} (ht : declaredId outer h.name = .ok t) :
    declareHead file outer h p = ((headCall file outer h).make file p).map (t, ·) := by
  unfold declareHead headCall Call.make namedAt
  rw [ht]
  dsimp only
  rw [show located file h.position (orFault typeFault (Except.ok t)) = (pure t : Except LoadError TypeId) from rfl,
    pure_bind, pure_bind]
  cases h.base.mapM fun name => located file h.position (orFault typeFault (typeNamed name)) with
  | error e => rfl
  | ok base =>
    cases h.interfaces.mapM fun name => located file h.position (orFault typeFault (typeNamed name)) with
    | error e => rfl
    | ok interfaces =>
      refine (build_addType _ t _ _ _).trans ?_
      show _ = ((build file h.position p _).bind _).map (t, ·)
      rcases build file h.position p _ with e | ⟨m, q⟩ <;> rfl

/-! ## Names that can be declared -/

mutual

/-- A type and those inside it have names that can be declared. -/
def Named (outer : Option TypeId) (h : TypeHead) (members : List Decl) : Prop :=
  ∃ t, declaredId outer h.name = .ok t ∧ InnerNamed t members

/-- The types among the members of a type have names that can be declared. -/
def InnerNamed (owner : TypeId) : List Decl → Prop
  | [] => True
  | .type h members :: rest => Named (some owner) h members ∧ InnerNamed owner rest
  | .field _ :: rest | .property _ :: rest | .method _ :: rest => InnerNamed owner rest

end

mutual

theorem declareType_eq (file : Option String) (outer : Option TypeId) (h : TypeHead) (members : List Decl) (p : Program) :
    declareType file outer h members p = makeAll file (typeCalls file outer h members) p ∧
      ∀ q, declareType file outer h members p = .ok q → Named outer h members := by
  unfold declareType typeCalls Named
  rw [makeAll_cons]
  cases ht : declaredId outer h.name with
  | error e =>
    obtain ⟨error, hd, hm⟩ := declareHead_of_error file p ht
    rw [hd, hm]
    exact ⟨rfl, by rintro q ⟨⟩⟩
  | ok t =>
    rw [declareHead_of_ok ht]
    cases (headCall file outer h).make file p with
    | error e => exact ⟨rfl, by rintro q ⟨⟩⟩
    | ok q =>
      obtain ⟨hq, hnamed⟩ := declareInner_eq file t members q
      exact ⟨hq, fun r hr => ⟨t, rfl, hnamed r hr⟩⟩

theorem declareInner_eq (file : Option String) (owner : TypeId) (members : List Decl) (p : Program) :
    declareInner file owner members p = makeAll file (innerCalls file owner members) p ∧
      ∀ q, declareInner file owner members p = .ok q → InnerNamed owner members := by
  match members with
  | [] =>
    rw [declareInner, innerCalls, InnerNamed]
    exact ⟨rfl, fun _ _ => trivial⟩
  | .type h inner :: rest =>
    obtain ⟨htype, hnamed⟩ := declareType_eq file (some owner) h inner p
    rw [declareInner, innerCalls, InnerNamed, makeAll_append, ← htype]
    cases hd : declareType file (some owner) h inner p with
    | error e => exact ⟨rfl, by rintro q ⟨⟩⟩
    | ok q =>
      obtain ⟨hq, hinner⟩ := declareInner_eq file owner rest q
      exact ⟨hq, fun r hr => ⟨hnamed q hd, hinner r hr⟩⟩
  | .field _ :: rest =>
    rw [declareInner, innerCalls, InnerNamed]
    exact declareInner_eq file owner rest p
  | .property _ :: rest =>
    rw [declareInner, innerCalls, InnerNamed]
    exact declareInner_eq file owner rest p
  | .method _ :: rest =>
    rw [declareInner, innerCalls, InnerNamed]
    exact declareInner_eq file owner rest p

end

theorem addProperties_eq (owner : TypeId) (members : List Decl) (p : Program) :
    addProperties file owner members p = makeAll file (propertyCalls file owner members) p := by
  induction members generalizing p with
  | nil => rfl
  | cons d rest ih =>
    cases d with
    | property d =>
      unfold addProperties propertyCalls
      rw [makeAll_cons, addProperty_eq]
      exact bind_congr fun q => ih q
    | field _ => exact ih p
    | method _ => exact ih p
    | type _ _ => exact ih p

mutual

theorem populateType_eq (outer : Option TypeId) (h : TypeHead) (members : List Decl) (hn : Named outer h members)
    (p : Program) : populateType file outer h members p = makeAll file (fillCalls file outer h members) p := by
  rw [Named] at hn
  obtain ⟨t, ht, hinner⟩ := hn
  rw [populateType, fillCalls, ht]
  dsimp only
  rw [makeAll_append, ← populateMembers_eq t members hinner p]
  exact bind_congr fun q => addProperties_eq t members q
termination_by (sizeOf members, 1)

theorem populateMembers_eq (owner : TypeId) (members : List Decl) (hn : InnerNamed owner members) (p : Program) :
    populateMembers file owner members p = makeAll file (memberCalls file owner members) p := by
  match members with
  | [] =>
    rw [populateMembers, memberCalls]
    rfl
  | .field f :: rest =>
    rw [InnerNamed] at hn
    rw [populateMembers, memberCalls, makeAll_cons, addField_eq]
    exact bind_congr fun q => populateMembers_eq owner rest hn q
  | .method m :: rest =>
    rw [InnerNamed] at hn
    rw [populateMembers, memberCalls, makeAll_cons, addMethod_eq]
    exact bind_congr fun q => populateMembers_eq owner rest hn q
  | .type h inner :: rest =>
    rw [InnerNamed] at hn
    rw [populateMembers, memberCalls, makeAll_append, ← populateType_eq (some owner) h inner hn.1 p]
    exact bind_congr fun q => populateMembers_eq owner rest hn.2 q
  | .property _ :: rest =>
    rw [InnerNamed] at hn
    rw [populateMembers, memberCalls]
    exact populateMembers_eq owner rest hn p
termination_by (sizeOf members, 0)

end

theorem foldlM_declareType (file : Option String) (types : List TypeDecl) (p : Program) :
    types.foldlM (fun p t => declareType file none t.head t.members p) p =
        types.foldlM (fun p t => makeAll file (typeCalls file none t.head t.members) p) p ∧
      ∀ q, types.foldlM (fun p t => declareType file none t.head t.members p) p = .ok q →
        ∀ t ∈ types, Named none t.head t.members := by
  induction types generalizing p with
  | nil => exact ⟨rfl, by simp⟩
  | cons t rest ih =>
    obtain ⟨htype, hnamed⟩ := declareType_eq file none t.head t.members p
    rw [List.foldlM_cons, List.foldlM_cons, ← htype]
    cases hd : declareType file none t.head t.members p with
    | error e => exact ⟨rfl, by rintro q ⟨⟩⟩
    | ok q =>
      obtain ⟨hq, hrest⟩ := ih q
      refine ⟨hq, fun r hr other ho => ?_⟩
      rcases List.mem_cons.1 ho with rfl | ho
      · exact hnamed q hd
      · exact hrest r hr other ho

theorem foldlM_populateType {types : List TypeDecl} (hn : ∀ t ∈ types, Named none t.head t.members) (p : Program) :
    types.foldlM (fun p t => populateType file none t.head t.members p) p =
      types.foldlM (fun p t => makeAll file (fillCalls file none t.head t.members) p) p := by
  induction types generalizing p with
  | nil => rfl
  | cons t rest ih =>
    rw [List.foldlM_cons, List.foldlM_cons, populateType_eq none t.head t.members (hn t List.mem_cons_self)]
    exact bind_congr fun q => ih (fun other ho => hn other (List.mem_cons_of_mem _ ho)) q

/-- **Loading is making its calls** and resolving the operands in the end. -/
theorem elaborate_eq (name : String) (types : List TypeDecl) :
    elaborate file name types = (makeAll file (calls file types) { name }).map Program.resolveOperands := by
  obtain ⟨hdeclared, hnamed⟩ := foldlM_declareType file types { name }
  unfold elaborate calls
  rw [makeAll_append, makeAll_flatMap, ← hdeclared]
  cases hd : types.foldlM (fun p t => declareType file none t.head t.members p) ({ name } : Program) with
  | error e => rfl
  | ok p =>
    show (types.foldlM (fun p t => populateType file none t.head t.members p) p >>= _) =
      (makeAll file (types.flatMap fun t => fillCalls file none t.head t.members) p).map _
    rw [makeAll_flatMap, foldlM_populateType (hnamed p hd)]
    rcases types.foldlM (fun p t => makeAll file (fillCalls file none t.head t.members) p) p with e | q <;> rfl

end StubClosure.Listing
