import Mathlib.Data.List.Basic
import StubClosure.Manifest
import StubClosure.Proofs.Closure.Repass

/-!
# Foreign bodies do not matter

A run reads the bodies of source types, and of types nested in them. Of all other types it reads the definitions alone, so two programs that differ in foreign bodies only have the same runs. The proof goes through the steps of a run in order: what reads no body at all depends on the types alone, in whatever order they stand, and each step that reads bodies is the same for both programs if the bodies of the types in question are.
-/

namespace StubClosure

namespace Program

variable {p q : Program} {apart : Set TypeId}

/-- The programs define the same types alike, in whatever order. -/
structure SameTypes (p q : Program) : Prop where
  type? : q.type? = p.type?
  listed : sortOn TypeId.fullName (q.types.values.map (·.id)) = sortOn TypeId.fullName (p.types.values.map (·.id))

theorem sameTypes_of_eq (h : q.types = p.types) : p.SameTypes q where
  type? := by
    unfold type?
    rw [h]
  listed := by rw [h]

theorem SameTypes.defines (h : p.SameTypes q) : q.defines = p.defines :=
  funext fun t => congrArg Option.isSome (congrFun h.type? t)

theorem SameTypes.nestedOf (h : p.SameTypes q) : q.nestedOf = p.nestedOf := by
  unfold Program.nestedOf
  rw [h.type?]

theorem SameTypes.size (h : p.SameTypes q) : q.types.size = p.types.size := by
  have hlength := congrArg List.length h.listed
  rw [(sortOn_perm _ _).length_eq, (sortOn_perm _ _).length_eq, List.length_map, List.length_map] at hlength
  simpa [Table.values, Table.size] using hlength

/-- The programs have the same types under the same names, and the same bodies but for the methods of the types set apart. -/
structure SameBut (apart : Set TypeId) (p q : Program) : Prop where
  types : q.types = p.types
  names : q.names = p.names
  bodies : ∀ m : Member, m.owner ∉ apart → q.body? m = p.body? m

theorem SameBut.findType?_eq (h : p.SameBut apart q) : q.findType? = p.findType? := by
  unfold findType?
  rw [h.names, (sameTypes_of_eq h.types).type?]

theorem SameBut.bodiesOf_eq (h : SameBut apart p q) (hp : p.Coherent) {t : TypeId} (ht : t ∉ apart) :
    q.bodiesOf t = p.bodiesOf t := by
  unfold bodiesOf
  rw [(sameTypes_of_eq h.types).type?]
  cases hd : p.type? t with
  | none => rfl
  | some d =>
    refine List.filterMap_congr fun m hm => h.bodies m ?_
    rwa [(hp.type t d hd).owner_method m hm]

theorem sameBut_setBody {b : Body} (h : b.method.owner ∈ apart) :
    p.SameBut apart (p.setBody b) where
  types := rfl
  names := rfl
  bodies := by
    intro m hm
    unfold body?
    rw [show (p.setBody b).bodies = p.bodies.insert b.method.toSignature b from rfl, Table.find?_insert]
    refine if_neg fun he => hm ?_
    rwa [show m.owner = b.method.owner from congrArg Signature.owner he]

/-! ## What depends on the types alone -/

theorem nestedWithin_congr (h : p.SameTypes q) (depth : Nat) (t : TypeId) :
    q.nestedWithin depth t = p.nestedWithin depth t := by
  induction depth generalizing t with
  | zero => rfl
  | succ depth ih =>
    rw [nestedWithin, nestedWithin, h.nestedOf]
    congr 2
    exact funext ih

theorem withNested_congr (h : p.SameTypes q) : q.withNested = p.withNested := by
  funext t
  unfold withNested
  rw [h.size, nestedWithin_congr h]

end Program

namespace Reference

variable {p q : Program}

theorem foldAccessor_congr (h : p.SameTypes q) : foldAccessor q = foldAccessor p := by
  unfold foldAccessor Program.isFoldable Program.owningProperty? Program.definition Program.propertiesOf
  rw [h.type?]

end Reference

theorem Mention.ofBody_congr {p q : Program} (h : p.SameTypes q) (b : Body) : ofBody q b = ofBody p b := by
  have hone : ofInstruction? q = ofInstruction? p := by
    unfold ofInstruction? Program.folded
    rw [Reference.foldAccessor_congr h]
  have hfrom : ∀ instructions index, ofInstructions q index instructions = ofInstructions p index instructions := by
    intro instructions
    induction instructions with
    | nil => exact fun index => rfl
    | cons ins rest ih =>
      intro index
      rw [ofInstructions, ofInstructions, hone, ih]
  exact hfrom b.instructions 0

namespace Reference

variable {p q : Program}

theorem normalize_congr (h : p.SameTypes q) : normalize q = normalize p := by
  unfold normalize
  rw [foldAccessor_congr h]

theorem ofInstruction?_congr (h : p.SameTypes q) : ofInstruction? q = ofInstruction? p := by
  funext site index ins
  unfold ofInstruction?
  rw [normalize_congr h]

theorem ofInstructions_congr (h : p.SameTypes q) (site : Signature) (index : Nat) (instructions : List Instruction) :
    ofInstructions q site index instructions = ofInstructions p site index instructions := by
  induction instructions generalizing index with
  | nil => rfl
  | cons ins rest ih => rw [ofInstructions, ofInstructions, ih, ofInstruction?_congr h]

theorem ofBody_congr (h : p.SameTypes q) : ofBody q = ofBody p := by
  funext b
  unfold ofBody
  rw [ofInstructions_congr h]

theorem ofBodies_congr (h : p.SameTypes q) (bodies : List Body) : ofBodies q bodies = ofBodies p bodies := by
  induction bodies with
  | nil => rfl
  | cons b rest ih => rw [ofBodies, ofBodies, ih, ofBody_congr h]

theorem into_congr (h : p.SameTypes q) {scanned : TypeId} (hb : q.bodiesOf scanned = p.bodiesOf scanned)
    (stub : TypeId) : into q stub scanned = into p stub scanned := by
  unfold into
  rw [hb, ofBodies_congr h]

end Reference

namespace Receiver

theorem resolveHere_congr {p q : Program} (h : p.SameTypes q) : resolveHere q = resolveHere p := by
  unfold resolveHere refine
  rw [h.type?]

theorem resolve_congr {p q : Program} (h : p.SameTypes q) : resolve q = resolve p := by
  funext b index
  unfold resolve
  rw [resolveHere_congr h]

end Receiver

namespace Closure

variable {p q : Program} {options : ClosureOptions} {sources : List TypeId}

theorem isRelated_congr (h : p.SameTypes q) : isRelated q = isRelated p := by
  unfold isRelated leaks
  rw [h.defines]

theorem stubbable_congr (h : p.SameTypes q) : stubbable q sources = stubbable p sources := by
  unfold stubbable
  rw [h.defines]

theorem discover_congr (h : p.SameTypes q) : discover q = discover p := by
  funext b r d
  unfold discover
  rw [Receiver.resolve_congr h]

theorem relatedInBodies_congr (h : p.SameTypes q) (source : TypeId) (known : List TypeId) (bodies : List Body)
    (d : Discovery) : relatedInBodies q source known bodies d = relatedInBodies p source known bodies d := by
  induction bodies generalizing d with
  | nil => rfl
  | cons b rest ih =>
    have hin : relatedIn q source known b = relatedIn p source known b := by
      funext refs d
      unfold relatedIn
      rw [isRelated_congr h, discover_congr h]
    rw [relatedInBodies, relatedInBodies, Reference.ofBody_congr h, hin]
    simp only [ih]

theorem foldSeeds_congr (h : p.SameTypes q) (members : List Member) : foldSeeds q members = foldSeeds p members := by
  induction members with
  | nil => rfl
  | cons m rest ih => rw [foldSeeds, foldSeeds, ih, Reference.normalize_congr h]

theorem scannedTypes_congr (h : p.SameTypes q) : scannedTypes q sources = scannedTypes p sources := by
  unfold scannedTypes
  rw [Program.withNested_congr h]

theorem resolveNames_congr (h : q.findType? = p.findType?) (names : List String) :
    resolveNames q names = resolveNames p names := by
  induction names with
  | nil => rfl
  | cons name rest ih => rw [resolveNames, resolveNames, ih, h]

theorem resolveSources_congr (h : q.findType? = p.findType?) : resolveSources q = resolveSources p := by
  funext names
  unfold resolveSources
  rw [resolveNames_congr h]

/-! ## What reads bodies -/

theorem relatedCalls_congr (h : p.SameTypes q) {source : TypeId} (hb : q.bodiesOf source = p.bodiesOf source) :
    relatedCalls q source = relatedCalls p source := by
  funext known
  unfold relatedCalls
  rw [hb, relatedInBodies_congr h]

theorem wantedTypes_congr (h : p.SameTypes q) {rest : List TypeId}
    (hb : ∀ source ∈ rest, q.bodiesOf source = p.bodiesOf source) (known : List TypeId) (wanted : Wanted) :
    wantedTypes q sources known rest wanted = wantedTypes p sources known rest wanted := by
  induction rest generalizing wanted with
  | nil => rfl
  | cons source rest ih =>
    have hrest := ih fun other ho => hb other (List.mem_cons_of_mem _ ho)
    rw [wantedTypes, wantedTypes, relatedCalls_congr h (hb source List.mem_cons_self), stubbable_congr h]
    simp only [hrest]

/-- The programs have the same bodies in the source types, and in the types nested in them. -/
def SameScanned (p q : Program) (sources : List TypeId) : Prop :=
  ∀ t ∈ scannedTypes p sources, q.bodiesOf t = p.bodiesOf t

theorem SameScanned.of_source (h : SameScanned p q sources) : ∀ source ∈ sources, q.bodiesOf source = p.bodiesOf source :=
  fun source hs => h source (List.mem_flatMap.2 ⟨source, hs, List.mem_cons_self⟩)

theorem stubContents_congr (h : p.SameTypes q) (hb : SameScanned p q sources) (stub : TypeId) :
    stubContents q stub sources = stubContents p stub sources := by
  have hfrom : ∀ scanned : List TypeId, (∀ t ∈ scanned, q.bodiesOf t = p.bodiesOf t) → ∀ content,
      contentsFrom q stub scanned content = contentsFrom p stub scanned content := by
    intro scanned hscanned
    induction scanned with
    | nil => exact fun content => rfl
    | cons t rest ih =>
      intro content
      have hrest := ih fun other ho => hscanned other (List.mem_cons_of_mem _ ho)
      rw [contentsFrom, contentsFrom, Reference.into_congr h (hscanned t List.mem_cons_self)]
      simp only [hrest]
  unfold stubContents
  rw [scannedTypes_congr h]
  exact hfrom _ hb {}

theorem fill_congr (h : p.SameTypes q) (hb : SameScanned p q sources) (wanted : Wanted) (types : List TypeId) :
    fill q sources wanted types = fill p sources wanted types := by
  induction types with
  | nil => rfl
  | cons t rest ih => rw [fill, fill, ih, stubContents_congr h hb, foldSeeds_congr h]

theorem runPass_congr (h : p.SameTypes q) (hb : SameScanned p q sources) (index : Nat) :
    runPass q sources index = runPass p sources index := by
  unfold runPass
  simp only [wantedTypes_congr h hb.of_source, fill_congr h hb]

theorem stubEverything_congr (h : p.SameTypes q) (hb : SameScanned p q sources) :
    stubEverything q sources = stubEverything p sources := by
  have hall : stubAll q sources = stubAll p sources := by
    funext types
    induction types with
    | nil => rfl
    | cons t rest ih => rw [stubAll, stubAll, ih, stubContents_congr h hb]
  unfold stubEverything
  rw [hall, h.listed]

theorem passes_congr (h : p.SameTypes q) (hb : SameScanned p q sources) :
    passes q options sources = passes p options sources := by
  have hfrom : ∀ more index, passesFrom q options sources more index = passesFrom p options sources more index := by
    intro more
    induction more with
    | zero => exact fun index => rfl
    | succ more ih =>
      intro index
      rw [passesFrom, passesFrom, runPass_congr h hb]
      simp only [ih]
  unfold passes
  rw [stubEverything_congr h hb, hfrom, h.size]

/-! ## Runs -/

theorem of_run_resolveSources {names : List String} {run after : Run} {sources : List TypeId}
    (h : (resolveSources p names).run.run run = (.ok sources, after)) :
    after = run ∧ {t | t ∈ sources} = namedTypes p names := by
  obtain ⟨types, between, htypes, -⟩ := Step.exists_of_run_bind h
  obtain ⟨found, hfound, hset⟩ := run_resolveSources (of_run_resolveNames htypes) run
  obtain ⟨hsame, rfl⟩ := Prod.mk.inj (h.symm.trans hfound)
  obtain rfl := Except.ok.inj hsame
  exact ⟨rfl, hset⟩

/-- The type is neither a source type nor nested in one. -/
def Foreign (p : Program) (names : List String) : Set TypeId :=
  {t | ∀ source ∈ namedTypes p names, t ≠ source ∧ ¬ t.isNestedIn source = true}

theorem sameScanned (hp : p.Coherent) {names : List String} (h : p.SameBut (Foreign p names) q)
    (hs : {t | t ∈ sources} = namedTypes p names) : SameScanned p q sources := by
  intro t ht
  refine h.bodiesOf_eq hp fun hforeign => ?_
  obtain ⟨source, hsource, ht⟩ := List.mem_flatMap.1 ht
  rw [Foreign, ← hs] at hforeign
  obtain ⟨hne, hnot⟩ := hforeign source hsource
  exact (hp.isNestedIn_of_mem_withNested ht).elim hne hnot

/-- Programs that have the same types under the same names, and the same bodies in what is scanned, have the same runs. -/
theorem run_congr_of_scanned (h : p.SameTypes q) (hf : q.findType? = p.findType?) {names : List String}
    (hb : ∀ sources, {t | t ∈ sources} = namedTypes p names → SameScanned p q sources) (options : ClosureOptions)
    (session : Session) : run q names options session = run p names options session := by
  have hclosing : (closing q names options).run.run { session } = (closing p names options).run.run { session } := by
    unfold closing
    rw [resolveSources_congr hf, Step.run_bind, Step.run_bind]
    rcases hs : (resolveSources p names).run.run { session } with ⟨e | sources, after⟩
    · rfl
    · have hpasses : passes q options sources = passes p options sources :=
        passes_congr h (hb sources (of_run_resolveSources hs).2)
      dsimp only
      rw [hpasses]
  unfold run
  rw [hclosing]

theorem run_congr (hp : p.Coherent) {names : List String} (h : p.SameBut (Foreign p names) q)
    (options : ClosureOptions) (session : Session) : run q names options session = run p names options session :=
  run_congr_of_scanned (Program.sameTypes_of_eq h.types) h.findType?_eq
    (fun _ hs => sameScanned hp h hs) options session

/-- A manifest tells of the program only what its types are, not the order in which they stand. -/
theorem build_congr_of_sameTypes (h : p.SameTypes q) (r : ClosureResult) (name : Option String) :
    Manifest.build r q name = Manifest.build r p name := by
  unfold Manifest.build Manifest.publicizeTargets Manifest.isInternal
  rw [h.type?]

theorem build_congr (h : q.types = p.types) (r : ClosureResult) (name : Option String) :
    Manifest.build r q name = Manifest.build r p name :=
  build_congr_of_sameTypes (Program.sameTypes_of_eq h) r name

end Closure

/-! ## In the zoo -/

namespace Zoo

def den : TypeId := .inner foo "" "Den" 0

/-- The zoo with a `Den` in `Foo`, and one more method of a type, which may have a body. -/
def withMethod (owner : TypeId) (body : Option (List Instruction)) : Program :=
  (BuildStep.method owner { name := "Run", body }).after ((BuildStep.type (.id den) none [] true).after program)

theorem built_withMethod (owner : TypeId) (body : Option (List Instruction)) : (withMethod owner body).Built :=
  (built.step _).step _

theorem withMethod_some {owner : TypeId} (h : owner = dog ∨ owner = den) :
    withMethod owner (some []) = (withMethod owner none).setBody { method := .method owner "Run" [] .void } := by
  rcases h with rfl | rfl <;> decide

theorem namedTypes_withMethod {owner : TypeId} (h : owner = dog ∨ owner = den) :
    Closure.namedTypes (withMethod owner none) ["Foo"] = {foo} := by
  have hfind : ((withMethod owner none).findType? "Foo").map (·.id) = some foo := by
    rcases h with rfl | rfl <;> decide
  obtain ⟨d, hd, hid⟩ := Option.map_eq_some_iff.1 hfind
  ext t
  simp [Closure.namedTypes, hd, hid, eq_comm]

end Zoo

end StubClosure
