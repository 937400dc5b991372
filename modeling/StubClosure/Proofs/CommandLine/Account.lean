import StubClosure.CommandLine.Run
import StubClosure.Proofs.Batch.Engine
import StubClosure.Proofs.Json.Written
import StubClosure.Proofs.Listing.Errors

/-!
# What a command has to tell

A command ends with a status, with reports and with manifests. How they are told is a matter of its options: all at once in one line, or the errors on one stream and the manifests on the other, or in files. `Account` is what there is to tell, apart from how, and `Shows` is what an outcome has to do with it. The disk may stand in the way of files (`Tellable`). Otherwise the outcome of every command shows the account of that command (`shown`), so it is enough to know the accounts.
-/

namespace StubClosure.CommandLine

/-- The status of a command, its reports, and the manifests by program name. A command that stops before it runs anything has no manifests to put anywhere. -/
structure Account where
  hasRun : Bool := true
  exitCode : Nat
  reports : List Report
  manifests : List (String × Json)

/-- The account of a command that stops with a fault. -/
def Account.ofFault (report : Report) : Account where
  hasRun := false
  exitCode := 1
  reports := [report]
  manifests := []

/-- The listings that are read, or those before a stop with the stop. -/
def reading (files : Files) (arguments : Arguments) : Except (List Input × Stop) (List Input) :=
  match sharedNames files arguments with
  | .error stop => .error ([], stop)
  | .ok shared => readInputs files arguments shared [] (arguments.listings.map Path.ofString)

/-- The options of the runs. -/
def Arguments.closure (arguments : Arguments) : ClosureOptions where
  repassOnNewMembers := arguments.repassOnNewMembers
  generateAll := arguments.generateAllStubs

/-- The jobs of the programs that have been read. -/
def jobs (inputs : List Input) : List (String × Job) := inputs.map fun input => (input.name, input.job)

/-- What there is to tell of the programs that have been read, and of what became of them. -/
def accountOf (inputs : List Input) (outcomes : List (String × JobOutcome)) : Account where
  exitCode := if Batch.succeeded outcomes then 0 else 1
  reports := (inputs.zip outcomes).flatMap fun (input, _, outcome) =>
    outcome.sink.diagnostics.map (Report.ofDiagnostic input.path)
  manifests := manifests inputs outcomes

/-- What a command has to tell. -/
def account (files : Files) (arguments : Arguments) : Except Failure Account :=
  match reading files arguments with
  | .error (_, .failure failure) => .error failure
  | .error (_, .fault report) => .ok (.ofFault report)
  | .ok inputs =>
    match Batch.run (jobs inputs) arguments.closure arguments.jobs with
    | .error error => .error (.batch error)
    | .ok outcomes => .ok (accountOf inputs outcomes)

namespace Account

/-- The manifests as they are printed where no output is asked for. -/
def printed (told : Account) (arguments : Arguments) : Except Text.NumeralError String :=
  match arguments.output with
  | none => (told.manifests.mapM fun entry => Manifest.render entry.2).map String.join
  | some _ => .ok ""

/-- The files of the manifests. -/
def written (told : Account) (arguments : Arguments) : Except Text.NumeralError (List (Path × String)) :=
  match arguments.output with
  | some (.text text) => told.manifests.mapM fun entry => (Manifest.render entry.2).map fun content =>
    (manifestPath (Path.ofString text) (1 < arguments.listings.length) entry.1, content)
  | some .missing | none => .ok []

end Account

/-- The output is a path, can be made a directory if there are to be several files in it, and takes the texts of the manifests. -/
structure Takes (disk : Disk) (isMany : Bool) (output : Path) (manifests : List (String × Json)) : Prop where
  path : output.hasNull = false
  directory : isMany = true → disk.makes output = .ok ()
  texts : ∀ entry ∈ manifests, entry.2.Writable
  files : ∀ entry ∈ manifests,
    disk.writes (if isMany then some output else none) (manifestPath output isMany entry.1) = .ok ()

/-- Nothing stands in the way of what there is to tell. An output matters once programs have been run, if it is to be a directory or there is a manifest for it. -/
structure Account.Tellable (disk : Disk) (arguments : Arguments) (told : Account) : Prop where
  printed : arguments.output = none → arguments.json = false → ∀ entry ∈ told.manifests, entry.2.Writable
  written : told.hasRun = true → ∀ value ∈ arguments.output,
    1 < arguments.listings.length ∨ told.manifests ≠ [] → ∃ text, value = .text text ∧
      Takes disk (1 < arguments.listings.length) (Path.ofString text) told.manifests

/-- The outcome tells the account in the form that is asked for, and has the manifests in files if there is an output. -/
structure Outcome.Shows (arguments : Arguments) (outcome : Outcome) (told : Account) : Prop where
  exitCode : outcome.exitCode = told.exitCode
  summary : arguments.json = true →
    outcome.stdout = (summary told.exitCode told.reports told.manifests).spaced ++ "\n" ∧ outcome.errors = []
  errors : arguments.json = false →
    outcome.errors = (told.reports.filter fun report => report.severity = .error).map Report.text ∧
      told.printed arguments = .ok outcome.stdout
  written : told.written arguments = .ok outcome.written

/-- The command fails where there is nothing to tell or something stands in the way, and otherwise its outcome shows what there is. -/
def Shown (disk : Disk) (arguments : Arguments) : Prop :=
  match account disk.files arguments with
  | .error failure => run disk arguments = .error failure
  | .ok told =>
    (told.Tellable disk arguments → ∃ outcome, run disk arguments = .ok outcome ∧ outcome.Shows arguments told) ∧
      (¬ told.Tellable disk arguments → ∃ failure, run disk arguments = .error failure)

variable {disk : Disk} {files : Files} {arguments : Arguments}

theorem run_eq_reading (disk : Disk) (arguments : Arguments) : run disk arguments =
    match reading disk.files arguments with
    | .error (inputs, stop) => stopped arguments inputs stop
    | .ok inputs => runInputs disk arguments inputs := by
  unfold run reading
  cases sharedNames disk.files arguments with
  | error stop => rfl
  | ok shared => rfl

theorem length_of_readInputs {shared : Option (List String)} {earlier inputs : List Input} {paths : List Path}
    (h : readInputs files arguments shared earlier paths = .ok inputs) :
    inputs.length = earlier.length + paths.length := by
  induction paths generalizing earlier with
  | nil =>
    cases h
    rfl
  | cons path rest ih =>
    rw [readInputs] at h
    split at h
    · cases h
    · rw [ih h, List.length_append, List.length_singleton, List.length_cons]
      omega

theorem length_of_reading {inputs : List Input} (h : reading files arguments = .ok inputs) :
    inputs.length = arguments.listings.length := by
  unfold reading at h
  split at h
  · cases h
  · rw [length_of_readInputs h, List.length_nil, Nat.zero_add, List.length_map]

theorem shows_reporting {outcome : Outcome} {told : Account} (hcode : outcome.exitCode = told.exitCode)
    (herrors : outcome.errors = [])
    (hstdout : if arguments.json then outcome.stdout = "" else told.printed arguments = .ok outcome.stdout)
    (hwritten : told.written arguments = .ok outcome.written) :
    (reporting arguments outcome told.reports told.manifests).Shows arguments told := by
  unfold reporting
  cases hj : arguments.json with
  | true =>
    rw [hj, if_pos rfl] at hstdout
    refine ⟨hcode, fun _ => ⟨?_, herrors⟩, fun h => (Bool.noConfusion (hj.symm.trans h)), hwritten⟩
    rw [if_pos rfl, hstdout, hcode, String.empty_append]
  | false =>
    rw [hj, if_neg Bool.false_ne_true] at hstdout
    exact ⟨hcode, fun h => Bool.noConfusion (hj.symm.trans h), fun _ => ⟨rfl, hstdout⟩, hwritten⟩

theorem shows_stopped (arguments : Arguments) (inputs : List Input) (report : Report) :
    (reporting arguments { exitCode := 1, log := inputLog arguments inputs } [report] []).Shows arguments
      (.ofFault report) := by
  refine @shows_reporting arguments { exitCode := 1, log := inputLog arguments inputs } (.ofFault report) rfl rfl ?_ ?_
  · unfold Account.printed
    cases arguments.json <;> cases arguments.output <;> rfl
  · unfold Account.written
    rcases arguments.output with _ | _ | _ <;> rfl

theorem tellable_ofFault (disk : Disk) (arguments : Arguments) (report : Report) :
    (Account.ofFault report).Tellable disk arguments :=
  ⟨fun _ _ => List.forall_mem_nil _, fun h => nomatch h⟩

/-! ## Delivering -/

section
variable {made : Option Path} {path : Path} {manifest : Json} {output : Path} {isMany : Bool}
  {manifests : List (String × Json)}

theorem of_writeManifest {file : WrittenFile} (h : writeManifest disk made path manifest = .ok file) :
    disk.writes made path = .ok () ∧ file.path = path ∧ Manifest.render manifest = .ok file.text := by
  obtain ⟨text, htext, h⟩ := exists_of_bind_eq_ok h
  obtain ⟨⟨⟩, hwrites, h⟩ := exists_of_bind_eq_ok h
  obtain ⟨digest, -, h⟩ := exists_of_bind_eq_ok h
  cases h
  exact ⟨mapError_eq_ok_iff.1 hwrites, rfl, mapError_eq_ok_iff.1 htext⟩

theorem exists_writeManifest_iff : (∃ file, writeManifest disk made path manifest = .ok file) ↔
    manifest.Writable ∧ disk.writes made path = .ok () := by
  constructor
  · rintro ⟨file, h⟩
    obtain ⟨hwrites, -, htext⟩ := of_writeManifest h
    exact ⟨Manifest.writable_of_render htext, hwrites⟩
  · rintro ⟨hwritable, hwrites⟩
    unfold writeManifest
    rw [hwritable.render_eq, hwritable.fingerprint_eq, hwrites]
    exact ⟨_, rfl⟩

/-- The manifest of a program, written to its file. -/
def writeEntry (disk : Disk) (isMany : Bool) (output : Path) (entry : String × Json) : Except Failure WrittenFile :=
  writeManifest disk (if isMany then some output else none) (manifestPath output isMany entry.1) entry.2

theorem deliverTo_eq (disk : Disk) (output : Path) (isMany : Bool) (manifests : List (String × Json)) :
    deliverTo disk output isMany manifests =
      ((if isMany then (disk.makes output).mapError Failure.file else .ok ()) >>= fun _ =>
        (manifests.mapM (writeEntry disk isMany output)).map fun files =>
          { directories := if isMany then [output] else [], files }) := by
  unfold deliverTo
  cases isMany <;> rfl

theorem of_deliverTo {delivery : Delivery} (h : deliverTo disk output isMany manifests = .ok delivery) :
    (isMany = true → disk.makes output = .ok ()) ∧ delivery.printed = [] ∧
      manifests.mapM (writeEntry disk isMany output) = .ok delivery.files := by
  rw [deliverTo_eq] at h
  obtain ⟨⟨⟩, hmakes, h⟩ := exists_of_bind_eq_ok h
  obtain ⟨files, hfiles, rfl⟩ := exists_of_map_eq_ok h
  refine ⟨?_, rfl, hfiles⟩
  rintro rfl
  exact mapError_eq_ok_iff.1 hmakes

theorem exists_deliverTo_iff (hpath : output.hasNull = false) :
    (∃ delivery, deliverTo disk output isMany manifests = .ok delivery) ↔ Takes disk isMany output manifests := by
  constructor
  · rintro ⟨delivery, h⟩
    obtain ⟨hmakes, -, hfiles⟩ := of_deliverTo h
    have hall := fun entry hentry => exists_writeManifest_iff.1 (mapM_eq_ok_iff.1 ⟨_, hfiles⟩ entry hentry)
    exact ⟨hpath, hmakes, fun entry hentry => (hall entry hentry).1, fun entry hentry => (hall entry hentry).2⟩
  · intro h
    have hmakes : (if isMany then (disk.makes output).mapError Failure.file else .ok ()) = .ok () := by
      split
      next hmany => rw [h.directory hmany]; rfl
      · rfl
    have hentries : ∀ entry ∈ manifests, ∃ file, writeEntry disk isMany output entry = .ok file :=
      fun entry hentry => exists_writeManifest_iff.2 ⟨h.texts entry hentry, h.files entry hentry⟩
    obtain ⟨files, hfiles⟩ := mapM_eq_ok_iff.2 hentries
    rw [deliverTo_eq, hmakes, hfiles]
    exact ⟨_, rfl⟩

end

theorem of_deliver {told : Account} {delivery : Delivery}
    (h : deliver disk arguments (1 < arguments.listings.length) told.manifests = .ok delivery) :
    (if arguments.json then String.join delivery.printed = ""
      else told.printed arguments = .ok (String.join delivery.printed)) ∧
    told.written arguments = .ok (delivery.files.map fun file => (file.path, file.text)) := by
  unfold deliver at h
  unfold Account.printed Account.written
  cases hout : arguments.output with
  | none =>
    rw [hout] at h
    dsimp only at h ⊢
    split at h
    · cases h
      exact ⟨by simp [*], rfl⟩
    next hj =>
      obtain ⟨printed, hprinted, rfl⟩ := exists_of_map_eq_ok h
      rw [if_neg hj, mapError_eq_ok_iff.1 hprinted]
      exact ⟨rfl, rfl⟩
  | some value =>
    rw [hout] at h
    dsimp only at h ⊢
    split at h
    next hnone =>
      have hempty : told.manifests = [] := by
        rw [Bool.and_eq_true] at hnone
        exact List.isEmpty_iff.1 hnone.2
      cases h
      rw [hempty]
      exact ⟨by split <;> rfl, by cases value <;> rfl⟩
    · cases value with
      | missing => cases h
      | text text =>
        dsimp only at h ⊢
        split at h
        · cases h
        · obtain ⟨-, hprinted, hfiles⟩ := of_deliverTo h
          rw [hprinted]
          refine ⟨by split <;> rfl, mapM_of_mapM hfiles fun entry file hfile => ?_⟩
          obtain ⟨-, hpath, htext⟩ := of_writeManifest hfile
          rw [htext, hpath]
          rfl

theorem exists_deliver_iff_of_none {isMany : Bool} {manifests : List (String × Json)} (hout : arguments.output = none) :
    (∃ delivery, deliver disk arguments isMany manifests = .ok delivery) ↔
      (arguments.json = false → ∀ entry ∈ manifests, entry.2.Writable) := by
  unfold deliver
  rw [hout]
  dsimp only
  cases arguments.json with
  | true => exact ⟨fun _ h => (nomatch h), fun _ => ⟨_, rfl⟩⟩
  | false =>
    rw [if_neg Bool.false_ne_true]
    constructor
    · rintro ⟨delivery, h⟩ - entry hentry
      obtain ⟨printed, hprinted, -⟩ := exists_of_map_eq_ok h
      exact Manifest.exists_render_iff.1 (mapM_eq_ok_iff.1 ⟨printed, mapError_eq_ok_iff.1 hprinted⟩ entry hentry)
    · intro h
      obtain ⟨printed, hprinted⟩ := mapM_eq_ok_iff.2 fun entry hentry => Manifest.exists_render_iff.2 (h rfl entry hentry)
      rw [hprinted]
      exact ⟨_, rfl⟩

theorem exists_deliver_iff_of_some {isMany : Bool} {manifests : List (String × Json)} {value : OptionValue}
    (hout : arguments.output = some value) :
    (∃ delivery, deliver disk arguments isMany manifests = .ok delivery) ↔
      (isMany = true ∨ manifests ≠ [] → ∃ text, value = .text text ∧
        Takes disk isMany (Path.ofString text) manifests) := by
  have hidle : (!isMany && manifests.isEmpty) = true ↔ ¬ (isMany = true ∨ manifests ≠ []) := by simp
  unfold deliver
  rw [hout]
  dsimp only
  by_cases hneeded : isMany = true ∨ manifests ≠ []
  · rw [if_neg fun h => hidle.1 h hneeded]
    constructor
    · rintro ⟨delivery, h⟩ -
      cases value with
      | missing => cases h
      | text text =>
        dsimp only at h
        split at h
        · cases h
        next hpath => exact ⟨text, rfl, (exists_deliverTo_iff (Bool.not_eq_true _ ▸ hpath)).1 ⟨delivery, h⟩⟩
    · intro h
      obtain ⟨text, rfl, htakes⟩ := h hneeded
      dsimp only
      rw [if_neg (by simp [htakes.path])]
      exact (exists_deliverTo_iff htakes.path).2 htakes
  · rw [if_pos (hidle.2 hneeded)]
    exact ⟨fun _ h => absurd h hneeded, fun _ => ⟨_, rfl⟩⟩

/-- Manifests are delivered exactly if nothing stands in the way. -/
theorem exists_deliver_iff {told : Account} (hrun : told.hasRun = true) :
    (∃ delivery, deliver disk arguments (1 < arguments.listings.length) told.manifests = .ok delivery) ↔
      told.Tellable disk arguments := by
  cases hout : arguments.output with
  | none =>
    rw [exists_deliver_iff_of_none hout]
    exact ⟨fun h => ⟨fun _ => h, fun _ _ hvalue => nomatch hout.symm.trans hvalue⟩, fun h => h.printed hout⟩
  | some value =>
    rw [exists_deliver_iff_of_some hout, decide_eq_true_iff]
    constructor
    · refine fun h => ⟨fun hnone => (nomatch hout.symm.trans hnone), fun _ other hother hneeded => ?_⟩
      obtain rfl : value = other := Option.some.inj (hout.symm.trans hother)
      exact h hneeded
    · exact fun h hneeded => h.written hrun value hout hneeded

theorem runInputs_eq (disk : Disk) (arguments : Arguments) (inputs : List Input) : runInputs disk arguments inputs =
    match Batch.run (jobs inputs) arguments.closure arguments.jobs with
    | .error error => .error (.batch error)
    | .ok outcomes =>
      (deliver disk arguments (inputs.length > 1) (accountOf inputs outcomes).manifests).map fun delivery =>
        reporting arguments (outcomeOf arguments inputs outcomes delivery) (accountOf inputs outcomes).reports
          (accountOf inputs outcomes).manifests := by
  unfold runInputs
  show (Except.mapError _ (Batch.run (jobs inputs) arguments.closure arguments.jobs) >>= _) = _
  cases Batch.run (jobs inputs) arguments.closure arguments.jobs with
  | error error => rfl
  | ok outcomes =>
    show (deliver disk arguments (inputs.length > 1) (accountOf inputs outcomes).manifests >>= _) = _
    dsimp only
    cases deliver disk arguments (inputs.length > 1) (accountOf inputs outcomes).manifests <;> rfl

/-- **The outcome of a command shows what the command has to tell.** -/
theorem shown (disk : Disk) (arguments : Arguments) : Shown disk arguments := by
  unfold Shown account
  rw [run_eq_reading]
  cases hreading : reading disk.files arguments with
  | error stopped =>
    obtain ⟨inputs, report | failure⟩ := stopped
    · exact ⟨fun _ => ⟨_, rfl, shows_stopped arguments inputs report⟩,
        fun h => absurd (tellable_ofFault disk arguments report) h⟩
    · rfl
  | ok inputs =>
    dsimp only
    rw [runInputs_eq]
    cases hrun : Batch.run (jobs inputs) arguments.closure arguments.jobs with
    | error error => rfl
    | ok outcomes =>
      have hlength : decide (inputs.length > 1) = decide (1 < arguments.listings.length) := by
        rw [length_of_reading hreading]
      have hdeliver := @exists_deliver_iff disk arguments (accountOf inputs outcomes) rfl
      dsimp only
      rw [hlength]
      constructor
      · intro htellable
        obtain ⟨delivery, h⟩ := hdeliver.2 htellable
        obtain ⟨hprinted, hwritten⟩ := of_deliver h
        rw [h]
        exact ⟨_, rfl, shows_reporting rfl rfl hprinted hwritten⟩
      · intro hno
        cases h : deliver disk arguments (1 < arguments.listings.length) (accountOf inputs outcomes).manifests with
        | error failure => exact ⟨failure, rfl⟩
        | ok delivery => exact absurd (hdeliver.1 ⟨delivery, h⟩) hno

end StubClosure.CommandLine
