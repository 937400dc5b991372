import StubClosure.CommandLine.Run
import StubClosure.Proofs.Listing.Accepted
import StubClosure.Proofs.Listing.Made

/-!
# Errors of loading

A listing that cannot be loaded is reported with its fault and the line and column of a declaration, an instruction or a token. There is one exception: the names of the parameters and locals of a method are taken for types outside of any declaration's care, so a bad one among them is reported bare. The command makes a report of an error that has a place, and ends with status 1; it has nothing to say about the other kind.
-/

namespace StubClosure.Listing

/-- The error tells a fault, and where in the file it is. -/
def LoadError.Placed (file : Option String) (e : LoadError) : Prop :=
  ∃ position fault, e = .at (Span.locate file (Position.toSpan position)) fault

/-- The first of the names that is no type name, and why. -/
def FirstBad (names : List String) (error : TypeNameError) : Prop :=
  ∃ good bad rest, names = good ++ bad :: rest ∧ (∀ name ∈ good, ∃ t, typeNamed name = .ok t) ∧
    typeNamed bad = .error error

variable {file : Option String} {p : Program}

/-! ## Where errors come from -/

theorem signatureTypes_eq_error_iff {names : List String} {e : LoadError} :
    signatureTypes names = .error e ↔ ∃ error, e = .signature error ∧ FirstBad names error := by
  refine mapError_eq_error_iff.trans (exists_congr fun error => ?_)
  rw [mapM_eq_error_iff, and_comm, eq_comm]
  rfl

theorem exists_signatureTypes_iff {names : List String} :
    (∃ types, signatureTypes names = .ok types) ↔ ∀ name ∈ names, ∃ t, typeNamed name = .ok t := by
  rw [← mapM_eq_ok_iff]
  exact exists_congr fun types => mapError_eq_ok_iff

theorem firstBad_append {first second : List String} {error : TypeNameError} : FirstBad (first ++ second) error ↔
    FirstBad first error ∨ (∀ name ∈ first, ∃ t, typeNamed name = .ok t) ∧ FirstBad second error := by
  unfold FirstBad
  rw [← mapM_eq_error_iff, ← mapM_eq_error_iff, ← mapM_eq_error_iff, ← mapM_eq_ok_iff, List.mapM_append,
    bind_eq_error_iff]
  refine or_congr_right ?_
  constructor
  · rintro ⟨types, ht, h⟩
    rcases bind_eq_error_iff.1 h with h | ⟨_, -, ⟨⟩⟩
    exact ⟨⟨types, ht⟩, h⟩
  · rintro ⟨⟨types, ht⟩, h⟩
    exact ⟨types, ht, bind_eq_error_iff.2 (.inl h)⟩

section
variable {e : LoadError}

theorem placed_of_located {α : Type} {position : Position} {outcome : Except Fault α}
    (h : located file position outcome = .error e) : e.Placed file := by
  cases outcome with
  | error fault =>
    cases h
    exact ⟨position, fault, rfl⟩
  | ok a => cases h

theorem placed_of_mapM {α β : Type} {f : α → Except LoadError β} (hf : ∀ a e, f a = .error e → e.Placed file)
    {as : List α} (h : as.mapM f = .error e) : e.Placed file := by
  obtain ⟨-, bad, -, -, -, hbad⟩ := mapM_eq_error_iff.1 h
  exact hf bad e hbad

theorem placed_of_optionMapM {α β : Type} {f : α → Except LoadError β} (hf : ∀ a e, f a = .error e → e.Placed file)
    {a : Option α} (h : a.mapM f = .error e) : e.Placed file := by
  cases a with
  | none => cases h
  | some a =>
    rw [optionMapM_some] at h
    rcases bind_eq_error_iff.1 h with h | ⟨_, -, ⟨⟩⟩
    exact hf a e h

theorem placed_of_build {position : Position} {step : Build Unit} (h : build file position p step = .error e) :
    e.Placed file := by
  unfold build at h
  split at h
  · cases h
  · exact placed_of_located h

theorem Call.make_eq_error {c : Call} (h : c.make file p = .error e) : c.step = .error e ∨ e.Placed file := by
  rcases bind_eq_error_iff.1 h with h | ⟨step, -, h⟩
  · exact .inl h
  · rcases bind_eq_error_iff.1 h with h | ⟨_, -, ⟨⟩⟩
    exact .inr (placed_of_build h)

theorem placed_of_headCall {outer : Option TypeId} {h : TypeHead} (he : (headCall file outer h).step = .error e) :
    e.Placed file := by
  rcases bind_eq_error_iff.1 he with he | ⟨t, -, he⟩
  · exact placed_of_located he
  rcases bind_eq_error_iff.1 he with he | ⟨base, -, he⟩
  · exact placed_of_optionMapM (fun _ _ => placed_of_located) he
  rcases bind_eq_error_iff.1 he with he | ⟨interfaces, -, ⟨⟩⟩
  exact placed_of_mapM (fun _ _ => placed_of_located) he

/-- **A method's call comes to no step** if a name of its signature or locals is bad, or for a reason that has a place. -/
theorem methodCall_eq_error_iff {owner : TypeId} {m : MethodDecl} {error : TypeNameError} :
    (methodCall file owner m).step = .error (.signature error) ↔ FirstBad (m.params ++ localNames m) error := by
  have hnot : ¬ (LoadError.signature error).Placed file := by
    rintro ⟨_, _, ⟨⟩⟩
  rw [firstBad_append, ← exists_signatureTypes_iff]
  have hbad : ∀ names, signatureTypes names = .error (.signature error) ↔ FirstBad names error := by
    intro names
    rw [signatureTypes_eq_error_iff]
    simp
  rw [← hbad, ← hbad]
  constructor
  · intro h
    rcases bind_eq_error_iff.1 h with h | ⟨params, hp, h⟩
    · exact .inl h
    rcases bind_eq_error_iff.1 h with h | ⟨locals, -, h⟩
    · exact .inr ⟨⟨params, hp⟩, h⟩
    rcases bind_eq_error_iff.1 h with h | ⟨body, -, h⟩
    · exact absurd (placed_of_optionMapM (fun _ _ => placed_of_mapM fun _ _ => placed_of_located) h) hnot
    rcases bind_eq_error_iff.1 h with h | ⟨returns, -, ⟨⟩⟩
    exact absurd (placed_of_located h) hnot
  · rintro (h | ⟨⟨params, hp⟩, h⟩)
    · exact bind_eq_error_iff.2 (.inl h)
    · exact bind_eq_error_iff.2 (.inr ⟨params, hp, bind_eq_error_iff.2 (.inl h)⟩)

theorem placed_of_methodCall {owner : TypeId} {m : MethodDecl} (h : (methodCall file owner m).step = .error e) :
    e.Placed file ∨ ∃ error, e = .signature error := by
  rcases bind_eq_error_iff.1 h with h | ⟨params, -, h⟩
  · obtain ⟨error, he, -⟩ := signatureTypes_eq_error_iff.1 h
    exact .inr ⟨error, he⟩
  rcases bind_eq_error_iff.1 h with h | ⟨locals, -, h⟩
  · obtain ⟨error, he, -⟩ := signatureTypes_eq_error_iff.1 h
    exact .inr ⟨error, he⟩
  rcases bind_eq_error_iff.1 h with h | ⟨body, -, h⟩
  · exact .inl (placed_of_optionMapM (fun _ _ => placed_of_mapM fun _ _ => placed_of_located) h)
  rcases bind_eq_error_iff.1 h with h | ⟨returns, -, ⟨⟩⟩
  exact .inl (placed_of_located h)

theorem placed_of_mem_calls {types : List TypeDecl} {c : Call} (hc : c ∈ calls file types) :
    ∀ e, c.step = .error e → e.Placed file ∨ (∃ owner m, c = methodCall file owner m) ∧ ∃ error, e = .signature error := by
  refine forall_calls (P := fun c => ∀ e, c.step = .error e → e.Placed file ∨
    (∃ owner m, c = methodCall file owner m) ∧ ∃ error, e = .signature error) ?_ ?_ ?_ ?_ c hc
  · exact fun outer h e he => .inl (placed_of_headCall he)
  · intro owner f e he
    rcases bind_eq_error_iff.1 he with he | ⟨t, -, ⟨⟩⟩
    exact .inl (placed_of_located he)
  · intro owner d e he
    rcases bind_eq_error_iff.1 he with he | ⟨t, -, ⟨⟩⟩
    exact .inl (placed_of_located he)
  · exact fun owner m _ e he => (placed_of_methodCall he).imp_right fun he => ⟨⟨owner, m, rfl⟩, he⟩

/-- The call fails at its turn, after those before it have been made. -/
def FailsAt (file : Option String) (name : String) (types : List TypeDecl) (c : Call) : Prop :=
  ∃ before after q, calls file types = before ++ c :: after ∧ makeAll file before { name } = .ok q

theorem elaborate_eq_error {name : String} {types : List TypeDecl} (h : elaborate file name types = .error e) :
    e.Placed file ∨ ∃ owner m error, FailsAt file name types (methodCall file owner m) ∧ e = .signature error ∧
      FirstBad (m.params ++ localNames m) error := by
  rw [elaborate_eq] at h
  cases hm : makeAll file (calls file types) { name } with
  | ok q =>
    rw [hm] at h
    cases h
  | error e' =>
    rw [hm] at h
    obtain rfl := Except.error.inj h
    obtain ⟨before, c, after, q, hcalls, hq, hc⟩ := makeAll_eq_error_iff.1 hm
    have hmem : c ∈ calls file types := by
      rw [hcalls]
      exact List.mem_append_right _ List.mem_cons_self
    rcases Call.make_eq_error hc with hs | hs
    · rcases placed_of_mem_calls hmem _ hs with hs' | ⟨⟨owner, m, rfl⟩, error, rfl⟩
      · exact .inl hs'
      · exact .inr ⟨owner, m, error, ⟨before, after, q, hcalls, hq⟩, rfl, methodCall_eq_error_iff.1 hs⟩
    · exact .inl hs

end

/-! ## Outcomes of loading -/

theorem load_cases (source name : String) (file : Option String) :
    match load source name file with
    | .ok p => p.Built
    | .error e => e.Placed file ∨ ∃ error, e = .signature error := by
  unfold load
  cases hp : parse source with
  | error e => exact .inl ⟨e.position, .grammar e.fault, rfl⟩
  | ok types =>
    dsimp only
    cases he : elaborate file name types with
    | ok p =>
      obtain ⟨steps, -, -, rfl⟩ := exists_steps_of_elaborate he
      exact Program.built_build name _
    | error e =>
      rcases elaborate_eq_error he with h | ⟨owner, m, error, -, rfl, -⟩
      · exact .inl h
      · exact .inr ⟨error, rfl⟩

/-- An error without a place comes from a method whose turn it is, and from the names that it gives to parameters and locals. -/
theorem load_eq_signature_iff {source name : String} {error : TypeNameError} :
    load source name file = .error (.signature error) ↔ ∃ types owner m, parse source = .ok types ∧
      FailsAt file name types (methodCall file owner m) ∧ FirstBad (m.params ++ localNames m) error := by
  unfold load
  cases hp : parse source with
  | error e => simp
  | ok types =>
    simp only [Except.ok.injEq, exists_and_left, exists_eq_left']
    constructor
    · intro he
      rcases elaborate_eq_error he with ⟨_, _, ⟨⟩⟩ | ⟨owner, m, error', hfails, ⟨⟩, hbad⟩
      exact ⟨owner, m, hfails, hbad⟩
    · rintro ⟨owner, m, ⟨before, after, q, hcalls, hq⟩, hbad⟩
      have hmake : (methodCall file owner m).make file q = .error (.signature error) :=
        Call.make_of_error (methodCall_eq_error_iff.2 hbad)
      rw [elaborate_eq, makeAll_eq_error_iff.2 ⟨before, _, after, q, hcalls, hq, hmake⟩]
      rfl

/-! ## The command -/

section
open CommandLine

/-- The command comes to a listing with a text, once it has read those before it. -/
structure Reached (files : Files) (arguments : Arguments) (path : Path) (text : String) (inputs : List Input) : Prop where
  before : ∃ shared first rest, sharedNames files arguments = .ok shared ∧
    arguments.listings.map Path.ofString = first ++ path :: rest ∧
    readInputs files arguments shared [] first = .ok inputs
  isNew : inputs.any (·.name = path.stem) = false
  text : (files path).text? = some text

theorem readInputs_append {files : Files} {arguments : Arguments} {shared : Option (List String)}
    {earlier inputs : List Input} {first : List Path} (h : readInputs files arguments shared earlier first = .ok inputs)
    (rest : List Path) :
    readInputs files arguments shared earlier (first ++ rest) = readInputs files arguments shared inputs rest := by
  induction first generalizing earlier with
  | nil =>
    cases h
    rfl
  | cons path others ih =>
    rw [readInputs] at h
    rw [List.cons_append, readInputs]
    split at h
    · cases h
    · exact ih h

theorem Reached.run_eq {disk : Disk} {arguments : Arguments} {path : Path} {text : String} {inputs : List Input}
    (h : Reached disk.files arguments path text inputs) (stop : Stop) (hs : readListing disk.files path = .error stop) :
    run disk arguments = stopped arguments inputs stop := by
  obtain ⟨shared, first, rest, hshared, hpaths, hfirst⟩ := h.before
  have hinput : readInput disk.files arguments shared inputs path = .error stop := by
    unfold readInput
    rw [if_neg (by simp [h.isNew]), hs]
    rfl
  have hinputs : readInputs disk.files arguments shared inputs (path :: rest) = .error (inputs, stop) := by
    rw [readInputs, hinput]
  unfold run
  rw [hshared]
  dsimp only
  rw [hpaths, readInputs_append hfirst, hinputs]

theorem exitCode_reporting (arguments : Arguments) (outcome : Outcome) (reports : List Report)
    (manifests : List (String × Json)) : (reporting arguments outcome reports manifests).exitCode = outcome.exitCode := by
  unfold reporting
  split <;> rfl

/-- The report on a listing with a fault. -/
def faultReport (path : Path) (span : Span) (fault : Fault) : Report where
  phase := some "listing"
  message := fault.message
  file := path.toString
  line := span.line
  column := span.column

theorem Reached.run_of_at {disk : Disk} {arguments : Arguments} {path : Path} {text : String} {inputs : List Input}
    (h : Reached disk.files arguments path text inputs) {span : Span} {fault : Fault}
    (hl : load text path.stem (some path.toString) = .error (.at span fault)) : run disk arguments =
      .ok (reporting arguments { exitCode := 1, log := inputLog arguments inputs } [faultReport path span fault] []) := by
  refine h.run_eq (.fault (faultReport path span fault)) ?_
  unfold readListing
  rw [Files.read_eq_ok_iff.2 h.text]
  dsimp only
  rw [hl]
  rfl

theorem Reached.run_of_signature {disk : Disk} {arguments : Arguments} {path : Path} {text : String}
    {inputs : List Input} (h : Reached disk.files arguments path text inputs) {error : TypeNameError}
    (hl : load text path.stem (some path.toString) = .error (.signature error)) :
    run disk arguments = .error (.signature error) := by
  refine h.run_eq (.failure (.signature error)) ?_
  unfold readListing
  rw [Files.read_eq_ok_iff.2 h.text]
  dsimp only
  rw [hl]

/-- **Errors of loading have a place, but for one kind.** A text either loads, to a program that is built, or is refused with a fault, a line and a column, or else a name that a method gives to a parameter or local is no type name, and everything before that method has been done. The command that comes to a listing reports an error of the first kind and ends with status 1, and fails itself on one of the other kind. -/
theorem load_errors (source name : String) (file : Option String) :
    (match load source name file with
      | .ok p => p.Built
      | .error e => e.Placed file ∨ ∃ error, e = .signature error) ∧
    (∀ error, load source name file = .error (.signature error) ↔ ∃ types owner m, parse source = .ok types ∧
      FailsAt file name types (methodCall file owner m) ∧ FirstBad (m.params ++ localNames m) error) ∧
    ∀ (disk : Disk) arguments path inputs, Reached disk.files arguments path source inputs →
      (∀ e, load source path.stem (some path.toString) = .error e → e.Placed (some path.toString) →
        ∃ outcome span fault, e = .at span fault ∧ run disk arguments = .ok outcome ∧ outcome.exitCode = 1 ∧
          outcome = reporting arguments { exitCode := 1, log := inputLog arguments inputs }
            [faultReport path span fault] []) ∧
      ∀ error, load source path.stem (some path.toString) = .error (.signature error) →
        run disk arguments = .error (.signature error) := by
  refine ⟨load_cases source name file, fun error => load_eq_signature_iff, fun disk arguments path inputs hr => ⟨?_, ?_⟩⟩
  · rintro _ he ⟨position, fault, rfl⟩
    exact ⟨_, _, fault, rfl, hr.run_of_at he, exitCode_reporting _ _ _ _, rfl⟩
  · exact fun error he => hr.run_of_signature he

def untypedHead : TypeHead := { position := {}, name := "A" }

/-- A method that takes a `B.`, which is no type name. -/
def untypedMethod : MethodDecl :=
  { position := ({} : Position).pastAll untypedHead.words, returns := "void", name := "M", params := ["B."] }

def untyped : List TypeDecl := [{ head := untypedHead, members := [.method untypedMethod] }]

theorem calls_untyped (file : Option String) :
    calls file untyped = [headCall file none untypedHead, methodCall file (.top "" "A" 0) untypedMethod] := by
  have hname : declaredId none untypedHead.name = .ok (.top "" "A" 0) := by decide +kernel
  simp [calls, untyped, typeCalls, innerCalls, fillCalls, memberCalls, propertyCalls, hname]

/-- The text of the type is refused without a place, and a command that comes to it fails. -/
theorem load_errors_untyped :
    let tree : FileTree := { files := [(["a.il"], text untyped)] }
    let arguments : Arguments := { listings := ["a.il"] }
    Reached tree.disk.files arguments { names := ["a.il"] } (text untyped) [] ∧
    load (text untyped) "a" (some "a.il") = .error (.signature (.invalid "B.")) ∧
    run tree.disk arguments = .error (.signature (.invalid "B.")) := by
  intro tree arguments
  have hreached : Reached tree.disk.files arguments { names := ["a.il"] } (text untyped) [] := by
    refine ⟨⟨none, [], [], rfl, ?_, rfl⟩, rfl, ?_⟩
    · decide +kernel
    · decide +kernel
  obtain ⟨-, hsignature, hcommand⟩ := load_errors (text untyped) "a" (some "a.il")
  have hload : load (text untyped) "a" (some "a.il") = .error (.signature (.invalid "B.")) := by
    have hparse : parse (text untyped) = .ok untyped := parse_text (by decide +kernel)
    obtain ⟨q, hq⟩ : ∃ q, makeAll (some "a.il") [headCall (some "a.il") none untypedHead] { name := "a" } = .ok q :=
      ⟨_, rfl⟩
    refine (hsignature _).2 ⟨untyped, _, untypedMethod, hparse, ⟨_, [], q, calls_untyped _, hq⟩, ?_⟩
    exact ⟨[], "B.", [], rfl, by simp, by decide +kernel⟩
  exact ⟨hreached, hload, (hcommand tree.disk _ _ _ hreached).2 _ hload⟩

end

end StubClosure.Listing
