import StubClosure.Proofs.CommandLine.Reading
import StubClosure.Proofs.Path

/-!
# Several listings at once

A command on several listings does what commands on each of them do, all together or not at all. Reading a listing does not look at the others, but for the names that programs have already; runs share nothing; and what there is to tell is put together in the order of the listings, the manifests by name. So the account of the command is its accounts of the single listings, joined. If a single listing cannot be read, or two have the same name, there is one report instead, or a failure, if that is what reading the listing ends with. And a command fails whose manifests are not taken where they are to go.
-/

namespace StubClosure.CommandLine

/-- Accounts put together: the worst status, all reports in order, the manifests by name. -/
def Account.join (accounts : List Account) : Account where
  exitCode := (accounts.map Account.exitCode).foldr max 0
  reports := accounts.flatMap Account.reports
  manifests := sortOn (fun entry => entry.1) (accounts.flatMap Account.manifests)

/-! ## Telling -/

/-- What there is to tell of one program. -/
def Input.told (options : ClosureOptions) (input : Input) : Account :=
  let outcome := Batch.runJob options input.job
  { exitCode := match outcome.result with
      | .ok _ => 0
      | .error _ => 1
    reports := outcome.sink.diagnostics.map (Report.ofDiagnostic input.path)
    manifests := match outcome.result with
      | .ok r => [(input.name, Manifest.build r input.job.program (some input.name))]
      | .error _ => [] }

section
variable {options : ClosureOptions} {inputs : List Input}

theorem outcomes_jobs (options : ClosureOptions) (inputs : List Input) : Batch.outcomes options (jobs inputs) =
    inputs.map fun input => (input.name, Batch.runJob options input.job) := List.map_map

theorem exitCode_accountOf (options : ClosureOptions) (inputs : List Input) :
    (if Batch.succeeded (Batch.outcomes options (jobs inputs)) then 0 else 1) =
      ((inputs.map (Input.told options)).map Account.exitCode).foldr max 0 := by
  rw [outcomes_jobs]
  induction inputs with
  | nil => rfl
  | cons input rest ih =>
    rw [List.map_cons, List.map_cons, List.map_cons, List.foldr_cons, ← ih]
    unfold Batch.succeeded Input.told
    rw [Batch.failures_cons]
    cases h : (Batch.runJob options input.job).result with
    | ok r =>
      simp only [h]
      exact (Nat.zero_max _).symm
    | error e =>
      simp only [h]
      rw [List.isEmpty_cons, if_neg Bool.false_ne_true]
      split <;> rfl

theorem reports_accountOf (options : ClosureOptions) (inputs : List Input) :
    ((inputs.zip (Batch.outcomes options (jobs inputs))).flatMap fun (input, _, outcome) =>
      outcome.sink.diagnostics.map (Report.ofDiagnostic input.path)) =
      (inputs.map (Input.told options)).flatMap Account.reports := by
  rw [outcomes_jobs]
  induction inputs with
  | nil => rfl
  | cons input rest ih =>
    rw [List.map_cons, List.map_cons, List.zip_cons_cons, List.flatMap_cons, List.flatMap_cons, ih]
    rfl

theorem find?_of_mem {input : Input} (hnames : (inputs.map (·.name)).Nodup) (hinput : input ∈ inputs) :
    inputs.find? (·.name = input.name) = some input := by
  cases hfind : inputs.find? (·.name = input.name) with
  | none => exact absurd (decide_eq_true rfl) (List.find?_eq_none.1 hfind input hinput)
  | some found =>
    have hname : found.name = input.name := by simpa using List.find?_some hfind
    rw [List.inj_on_of_nodup_map hnames (List.mem_of_find?_eq_some hfind) hinput hname]

/-- The manifest of a result, its program looked up by name. -/
def manifestEntry (inputs : List Input) (entry : String × ClosureResult) : String × Json :=
  let program := ((inputs.find? (·.name = entry.1)).map (·.job.program)).getD default
  (entry.1, Manifest.build entry.2 program (some entry.1))

theorem manifests_eq (inputs : List Input) (outcomes : List (String × JobOutcome)) : manifests inputs outcomes =
    sortOn (fun entry => entry.1) ((Batch.results outcomes).map (manifestEntry inputs)) :=
  (sortOn_map (fun entry : String × Json => entry.1) (manifestEntry inputs) (Batch.results outcomes)).symm

theorem map_manifestEntry (hnames : (inputs.map (·.name)).Nodup) (options : ClosureOptions) {some : List Input}
    (hsome : ∀ input ∈ some, input ∈ inputs) :
    (Batch.results (Batch.outcomes options (jobs some))).map (manifestEntry inputs) =
      (some.map (Input.told options)).flatMap Account.manifests := by
  rw [outcomes_jobs]
  induction some with
  | nil => rfl
  | cons input rest ih =>
    have hrest := ih fun other ho => hsome other (List.mem_cons_of_mem _ ho)
    rw [List.map_cons, List.map_cons, List.flatMap_cons, Batch.results_cons, ← hrest]
    unfold Input.told
    cases h : (Batch.runJob options input.job).result with
    | ok r =>
      simp only [h]
      rw [List.map_cons, manifestEntry, find?_of_mem hnames (hsome input List.mem_cons_self)]
      rfl
    | error e =>
      simp only [h]
      rfl

theorem accountOf_outcomes (hnames : (inputs.map (·.name)).Nodup) (options : ClosureOptions) :
    accountOf inputs (Batch.outcomes options (jobs inputs)) = Account.join (inputs.map (Input.told options)) := by
  unfold accountOf Account.join
  rw [exitCode_accountOf, reports_accountOf, manifests_eq, map_manifestEntry hnames options fun _ h => h]

theorem join_singleton (options : ClosureOptions) (input : Input) :
    Account.join [input.told options] = input.told options := by
  have hsorted : sortOn (fun entry => entry.1) (input.told options).manifests = (input.told options).manifests := by
    refine sortOn_of_pairwise ?_
    unfold Input.told
    dsimp only
    split
    · exact List.pairwise_singleton _ _
    · exact List.Pairwise.nil
  unfold Account.join
  simp only [List.map_cons, List.map_nil, List.foldr_cons, List.foldr_nil, Nat.max_zero, List.flatMap_cons,
    List.flatMap_nil, List.append_nil, hsorted]
  rfl

/-- What there is to tell of programs that have been read, unless one of them breaks off. -/
theorem account_of_reading {files : Files} {arguments : Arguments} (hreading : reading files arguments = .ok inputs)
    (hnames : (inputs.map (·.name)).Nodup) (hbuilt : ∀ input ∈ inputs, input.job.program.Built)
    (hworkers : ∀ n ∈ arguments.jobs, 0 ≤ n) :
    ((∃ input ∈ inputs, input.job.Breaks arguments.closure) →
      ∃ e, account files arguments = .error (.batch (.broken e))) ∧
    ((∀ input ∈ inputs, ¬ input.job.Breaks arguments.closure) →
      account files arguments = .ok (.join (inputs.map (Input.told arguments.closure)))) := by
  unfold account
  rw [hreading]
  dsimp only
  constructor
  · rintro ⟨input, hinput, hbreaks⟩
    have hjob : (input.name, input.job) ∈ jobs inputs := List.mem_map_of_mem hinput
    obtain ⟨e, hrun, -⟩ := Batch.run_of_broken hworkers hjob ((Batch.breakdown?_ne_none_iff (hbuilt input hinput)).2 hbreaks)
    exact ⟨e, by rw [hrun]⟩
  · intro hwhole
    have hrun : Batch.run (jobs inputs) arguments.closure arguments.jobs =
        .ok (Batch.outcomes arguments.closure (jobs inputs)) := by
      refine Batch.run_of_whole hworkers fun job hjob => ?_
      obtain ⟨input, hinput, rfl⟩ := List.mem_map.1 hjob
      exact not_not.1 fun h => hwhole input hinput ((Batch.breakdown?_ne_none_iff (hbuilt input hinput)).1 h)
    rw [hrun, ← accountOf_outcomes hnames]

theorem manifests_told {input : Input} (hbuilt : input.job.program.Built) (hwhole : ¬ input.job.Breaks options) :
    (input.job.IsKnown → ∃ manifest, (input.told options).manifests = [(input.name, manifest)]) ∧
      (¬ input.job.IsKnown → (input.told options).manifests = []) := by
  unfold Input.told
  dsimp only
  rcases Batch.runJob_cases hbuilt options with ⟨hno, name, h⟩ | ⟨hbreaks, -⟩ | ⟨hknown, -, r, h⟩
  · rw [h]
    exact ⟨fun hknown => absurd hknown hno, fun _ => rfl⟩
  · exact absurd hbreaks hwhole
  · rw [h]
    exact ⟨fun _ => ⟨_, rfl⟩, fun hno => absurd hknown hno⟩

theorem names_told (options : ClosureOptions) (input : Input) :
    ((input.told options).manifests.map (·.1)).Sublist [input.name] := by
  unfold Input.told
  dsimp only
  split
  · exact List.Sublist.refl _
  · exact List.nil_sublist _

theorem mem_manifests_join {accounts : List Account} {entry : String × Json} :
    entry ∈ (Account.join accounts).manifests ↔ ∃ told ∈ accounts, entry ∈ told.manifests := by
  unfold Account.join
  rw [mem_sortOn, List.mem_flatMap]

theorem nodup_manifests_join (hnames : (inputs.map (·.name)).Nodup) (options : ClosureOptions) :
    ((Account.join (inputs.map (Input.told options))).manifests.map (·.1)).Nodup := by
  have hsub : (((inputs.map (Input.told options)).flatMap Account.manifests).map (·.1)).Sublist
      (inputs.map (·.name)) := by
    clear hnames
    induction inputs with
    | nil => exact List.Sublist.refl _
    | cons input rest ih =>
      rw [List.map_cons, List.flatMap_cons, List.map_append, List.map_cons]
      exact (names_told options input).append ih
  exact ((sortOn_perm _ _).map _).nodup_iff.2 (hsub.nodup hnames)

end

/-! ## One command or many -/

section
variable {disk : Disk} {files : Files} {arguments : Arguments} {own : Option OptionValue}

theorem told_of_fault {report : Report} (h : Stops disk.files arguments (.fault report)) :
    account disk.files arguments = .ok (.ofFault report) ∧ ∃ outcome, run disk arguments = .ok outcome ∧
      outcome.Shows arguments (.ofFault report) ∧ outcome.written = [] ∧ outcome.directories = [] := by
  obtain ⟨inputs, hreading⟩ := h
  have hrun := run_eq_reading disk arguments
  rw [hreading] at hrun
  refine ⟨?_, _, hrun, shows_stopped arguments inputs report, ?_⟩
  · unfold account
    rw [hreading]
  · unfold reporting
    split <;> exact ⟨rfl, rfl⟩

theorem run_of_failure {failure : Failure} (h : Stops disk.files arguments (.failure failure)) :
    run disk arguments = .error failure := by
  obtain ⟨inputs, hreading⟩ := h
  rw [run_eq_reading, hreading]
  rfl

theorem account_alone {input : Input} {listing : String}
    (hreading : reading files (arguments.alone own listing) = .ok [input]) (hbuilt : input.job.program.Built)
    (hworkers : ∀ n ∈ arguments.jobs, 0 ≤ n) (hwhole : ¬ input.job.Breaks arguments.closure) :
    account files (arguments.alone own listing) = .ok (input.told arguments.closure) := by
  have htold := (account_of_reading hreading (List.nodup_singleton _) (List.forall_mem_singleton.2 hbuilt) hworkers).2
    (List.forall_mem_singleton.2 hwhole)
  rw [htold, List.map_singleton]
  exact congrArg Except.ok (join_singleton _ input)

theorem account_alone_of_breaks {input : Input} {listing : String}
    (hreading : reading files (arguments.alone own listing) = .ok [input]) (hbuilt : input.job.program.Built)
    (hworkers : ∀ n ∈ arguments.jobs, 0 ≤ n) (hbreaks : input.job.Breaks arguments.closure) :
    ∃ e, account files (arguments.alone own listing) = .error (.batch (.broken e)) :=
  (account_of_reading hreading (List.nodup_singleton _) (List.forall_mem_singleton.2 hbuilt) hworkers).1
    ⟨input, List.mem_singleton_self input, hbreaks⟩

theorem run_of_account_error {failure : Failure} (hshown : Shown disk arguments)
    (h : account disk.files arguments = .error failure) : run disk arguments = .error failure := by
  unfold Shown at hshown
  rw [h] at hshown
  exact hshown

theorem run_of_account {told : Account} (hshown : Shown disk arguments)
    (h : account disk.files arguments = .ok told) :
    (told.Tellable disk arguments → ∃ outcome, run disk arguments = .ok outcome ∧ outcome.Shows arguments told) ∧
      (¬ told.Tellable disk arguments → ∃ failure, run disk arguments = .error failure) := by
  unfold Shown at hshown
  rw [h] at hshown
  exact hshown

/-- The file of a manifest in the directory of them all. -/
def entryFile (text : String) (entry : String × Json) : Except Text.NumeralError (Path × String) :=
  (Manifest.render entry.2).map fun content => ((Path.ofString text).child (entry.1 ++ ".stubs.json"), content)

theorem written_of_many (hmany : 2 ≤ arguments.listings.length) {text : String}
    (hout : arguments.output = some (.text text)) (told : Account) :
    told.written arguments = told.manifests.mapM (entryFile text) := by
  have hlt : 1 < arguments.listings.length := hmany
  unfold Account.written manifestPath entryFile
  rw [hout]
  simp only [hlt, decide_true, if_true]

theorem nodup_written (hmany : 2 ≤ arguments.listings.length) {told : Account} {written : List (Path × String)}
    (hwritten : told.written arguments = .ok written) (hnames : (told.manifests.map (·.1)).Nodup)
    (hstems : ∀ entry ∈ told.manifests, ∃ listing : String, entry.1 = (Path.ofString listing).stem) :
    (written.map (·.1)).Nodup := by
  cases hout : arguments.output with
  | none =>
    unfold Account.written at hwritten
    rw [hout] at hwritten
    cases hwritten
    exact List.nodup_nil
  | some value =>
    cases value with
    | missing =>
      unfold Account.written at hwritten
      rw [hout] at hwritten
      cases hwritten
      exact List.nodup_nil
    | text text =>
      rw [written_of_many hmany hout] at hwritten
      have hpaths : written.map (·.1) =
          told.manifests.map fun entry => (Path.ofString text).child (entry.1 ++ ".stubs.json") := by
        refine map_of_mapM hwritten fun entry file hfile => ?_
        obtain ⟨content, -, rfl⟩ := exists_of_map_eq_ok hfile
        rfl
      rw [hpaths]
      refine List.Nodup.map_on (fun entry hentry other hother hpath => ?_) (List.Nodup.of_map _ hnames)
      refine List.inj_on_of_nodup_map hnames hentry hother ?_
      obtain ⟨listing, hstem⟩ := hstems entry hentry
      obtain ⟨listing', hstem'⟩ := hstems other hother
      rw [hstem, hstem'] at hpath ⊢
      exact Path.child_stem_inj _ (by decide) (by decide) hpath

/-- The command on all listings comes to what the commands on the single ones come to, put together. -/
structure Joins (files : Files) (arguments : Arguments) (own : Option OptionValue) (outcome : Outcome) : Prop where
  told : ∃ accounts : List Account,
    arguments.listings.map (fun listing => account files (arguments.alone own listing)) = accounts.map .ok ∧
      account files arguments = .ok (.join accounts) ∧ outcome.Shows arguments (.join accounts)
  single : ∀ listing ∈ arguments.listings, ∃ input told, reading files (arguments.alone own listing) = .ok [input] ∧
    account files (arguments.alone own listing) = .ok told ∧
      (input.job.IsKnown → ∃ manifest, told.manifests = [((Path.ofString listing).stem, manifest)]) ∧
        (¬ input.job.IsKnown → told.manifests = [])
  distinct : (outcome.written.map (·.1)).Nodup
  written : ∀ text, arguments.output = some (.text text) → ∀ path content, (path, content) ∈ outcome.written ↔
    ∃ listing ∈ arguments.listings, ∃ told manifest, account files (arguments.alone own listing) = .ok told ∧
      ((Path.ofString listing).stem, manifest) ∈ told.manifests ∧
        path = (Path.ofString text).child ((Path.ofString listing).stem ++ ".stubs.json") ∧
          Manifest.render manifest = .ok content

/-- The files are those of the listings whose source types are known. -/
theorem Joins.mem_paths_iff {outcome : Outcome} (h : Joins files arguments own outcome) {text : String}
    (hout : arguments.output = some (.text text))
    (hwritable : ∀ listing ∈ arguments.listings, ∀ told, account files (arguments.alone own listing) = .ok told →
      ∀ entry ∈ told.manifests, entry.2.Writable) {path : Path} :
    path ∈ outcome.written.map (·.1) ↔ ∃ listing ∈ arguments.listings, ∃ input,
      reading files (arguments.alone own listing) = .ok [input] ∧ input.job.IsKnown ∧
        path = (Path.ofString text).child ((Path.ofString listing).stem ++ ".stubs.json") := by
  constructor
  · intro hmem
    obtain ⟨⟨path, content⟩, hfile, rfl⟩ := List.mem_map.1 hmem
    obtain ⟨listing, hlisting, told, manifest, htold, hentry, hpath, -⟩ := (h.written text hout path content).1 hfile
    obtain ⟨input, told', hinput, htold', -, hno⟩ := h.single listing hlisting
    obtain rfl := Except.ok.inj (htold.symm.trans htold')
    refine ⟨listing, hlisting, input, hinput, not_not.1 fun hunknown => ?_, hpath⟩
    rw [hno hunknown] at hentry
    cases hentry
  · rintro ⟨listing, hlisting, input, hinput, hknown, hpath⟩
    obtain ⟨input', told, hinput', htold, hyes, -⟩ := h.single listing hlisting
    have heq : input = input' := List.singleton_inj.1 (Except.ok.inj (hinput.symm.trans hinput'))
    obtain ⟨manifest, hmanifest⟩ := hyes (heq ▸ hknown)
    have hentry : ((Path.ofString listing).stem, manifest) ∈ told.manifests := hmanifest ▸ List.mem_singleton_self _
    obtain ⟨content, hcontent⟩ := Manifest.exists_render_iff.2 (hwritable listing hlisting told htold _ hentry)
    have hfile := (h.written text hout path content).2 ⟨listing, hlisting, told, manifest, htold, hentry, hpath, hcontent⟩
    exact List.mem_map_of_mem hfile

/-- Listings that are all read, and whose runs do not break off, join. -/
theorem joins_of_read {read : String → Input} {outcome : Outcome} (hmany : 2 ≤ arguments.listings.length)
    (hread : ∀ listing ∈ arguments.listings, reading files (arguments.alone own listing) = .ok [read listing] ∧
      (read listing).name = (Path.ofString listing).stem ∧ (read listing).job.program.Built)
    (hworkers : ∀ n ∈ arguments.jobs, 0 ≤ n)
    (hwhole : ∀ listing ∈ arguments.listings, ¬ (read listing).job.Breaks arguments.closure)
    (hnames : ((arguments.listings.map read).map (·.name)).Nodup)
    (hjoint : account files arguments = .ok (.join ((arguments.listings.map read).map (Input.told arguments.closure))))
    (hshows : outcome.Shows arguments (.join ((arguments.listings.map read).map (Input.told arguments.closure)))) :
    Joins files arguments own outcome := by
  have halone : ∀ listing ∈ arguments.listings,
      account files (arguments.alone own listing) = .ok ((read listing).told arguments.closure) := by
    intro listing hlisting
    obtain ⟨hone, -, hbuilt⟩ := hread listing hlisting
    exact account_alone hone hbuilt hworkers (hwhole listing hlisting)
  have hentry : ∀ listing ∈ arguments.listings, ∀ entry ∈ ((read listing).told arguments.closure).manifests,
      entry.1 = (Path.ofString listing).stem := by
    intro listing hlisting entry hentry
    have hname := (names_told arguments.closure (read listing)).subset (List.mem_map_of_mem hentry)
    exact (List.mem_singleton.1 hname).trans (hread listing hlisting).2.1
  refine ⟨⟨_, ?_, hjoint, hshows⟩, fun listing hlisting => ?_, ?_, fun text hout path content => ?_⟩
  · rw [List.map_map, List.map_map]
    exact List.map_congr_left halone
  · obtain ⟨hone, hname, hbuilt⟩ := hread listing hlisting
    refine ⟨_, _, hone, halone listing hlisting, ?_⟩
    rw [← hname]
    exact manifests_told hbuilt (hwhole listing hlisting)
  · refine nodup_written hmany hshows.written (nodup_manifests_join hnames _) fun entry hmem => ?_
    obtain ⟨told, htold, hmem⟩ := mem_manifests_join.1 hmem
    rw [List.map_map] at htold
    obtain ⟨listing, hlisting, rfl⟩ := List.mem_map.1 htold
    exact ⟨listing, hentry listing hlisting entry hmem⟩
  · have hwritten := hshows.written
    rw [written_of_many hmany hout] at hwritten
    constructor
    · intro hmem
      obtain ⟨⟨name, manifest⟩, hjoined, hfile⟩ := exists_of_mem_mapM hwritten hmem
      obtain ⟨content', hcontent, heq⟩ := exists_of_map_eq_ok hfile
      obtain ⟨rfl, rfl⟩ := Prod.mk.inj heq
      obtain ⟨told, htold, hmem⟩ := mem_manifests_join.1 hjoined
      rw [List.map_map] at htold
      obtain ⟨listing, hlisting, rfl⟩ := List.mem_map.1 htold
      have hname : name = (Path.ofString listing).stem := hentry listing hlisting _ hmem
      rw [hname] at hmem
      exact ⟨listing, hlisting, _, manifest, halone listing hlisting, hmem, by rw [hname], hcontent⟩
    · rintro ⟨listing, hlisting, told, manifest, htold, hmem, hpath, hcontent⟩
      rw [halone listing hlisting, Except.ok.injEq] at htold
      have hjoined : ((Path.ofString listing).stem, manifest) ∈
          (Account.join ((arguments.listings.map read).map (Input.told arguments.closure))).manifests := by
        refine mem_manifests_join.2 ⟨told, ?_, hmem⟩
        rw [List.map_map, ← htold]
        exact List.mem_map_of_mem hlisting
      obtain ⟨file, hfile, heq⟩ := exists_of_mapM_of_mem hwritten hjoined
      obtain ⟨content', hcontent', rfl⟩ := exists_of_map_eq_ok heq
      obtain rfl := Except.ok.inj (hcontent.symm.trans hcontent')
      rwa [hpath]

/-- **Several listings are one after the other, or nothing.** Every command, on all listings or on one, shows what it has to tell, or fails if there is nothing or the disk does not take it. If a listing cannot be read alone, or two listings have one name, then the first such listing decides: the command on all has one fault to tell, its status is 1 and it writes nothing; or else it fails as reading the listing does. Otherwise all listings are read. If then the run of one breaks off, the command on all fails as that on this listing does. If none does, the command on all has to tell what the single ones have, put together, and if it can be told, it writes the file of each listing whose source types are known. -/
theorem run_joint (hmany : 2 ≤ arguments.listings.length) (hworkers : ∀ n ∈ arguments.jobs, 0 ≤ n) :
    let stops := fun listing => Stops disk.files (arguments.alone own listing)
    let first := FirstStop disk.files arguments own
    let distinct := (arguments.listings.map fun listing => (Path.ofString listing).stem).Nodup
    let breaks := fun listing => ∃ input, reading disk.files (arguments.alone own listing) = .ok [input] ∧
      input.job.Breaks arguments.closure
    let faulty := fun report => account disk.files arguments = .ok (.ofFault report) ∧ ∃ outcome,
      run disk arguments = .ok outcome ∧ outcome.Shows arguments (.ofFault report) ∧ outcome.exitCode = 1 ∧
        outcome.written = [] ∧ outcome.directories = []
    (Shown disk arguments ∧ ∀ listing, Shown disk (arguments.alone own listing)) ∧
    ((∃ stop, first stop) ↔ (∃ listing ∈ arguments.listings, ∃ stop, stops listing stop) ∨ ¬ distinct) ∧
    (∀ report, first (.fault report) → faulty report) ∧
    (∀ failure, first (.failure failure) → run disk arguments = .error failure) ∧
    ((∀ listing ∈ arguments.listings, ∀ failure, ¬ stops listing (.failure failure)) →
      (∃ listing ∈ arguments.listings, ∃ report, stops listing (.fault report)) ∨ ¬ distinct →
        ∃ report, faulty report) ∧
    ((∀ listing ∈ arguments.listings, ∀ stop, ¬ stops listing stop) → distinct →
      (∀ listing ∈ arguments.listings, breaks listing →
        (∃ e, run disk (arguments.alone own listing) = .error (.batch (.broken e))) ∧
          ∃ e, run disk arguments = .error (.batch (.broken e))) ∧
      ((∀ listing ∈ arguments.listings, ¬ breaks listing) → ∃ accounts : List Account,
        arguments.listings.map (fun listing => account disk.files (arguments.alone own listing)) = accounts.map .ok ∧
        account disk.files arguments = .ok (.join accounts) ∧
        ((Account.join accounts).Tellable disk arguments →
          ∃ outcome, run disk arguments = .ok outcome ∧ Joins disk.files arguments own outcome) ∧
        (¬ (Account.join accounts).Tellable disk arguments → ∃ failure, run disk arguments = .error failure))) := by
  intro stops first distinct breaks faulty
  have hshown : Shown disk arguments := shown disk arguments
  have halone : ∀ listing, Shown disk (arguments.alone own listing) := fun listing => shown disk _
  have hne : arguments.listings ≠ [] := by
    intro h
    rw [h] at hmany
    exact absurd hmany (by decide)
  have hfirst : ∀ {stop}, Stops disk.files arguments stop ↔ first stop := stops_iff_firstStop hne
  have hiff : (∃ stop, first stop) ↔ (∃ listing ∈ arguments.listings, ∃ stop, stops listing stop) ∨ ¬ distinct :=
    (exists_congr fun stop => hfirst.symm).trans (exists_stops_iff hne)
  have hfaulty : ∀ report, first (.fault report) → faulty report := by
    intro report h
    obtain ⟨htold, outcome, hrun, hshows, hwritten⟩ := told_of_fault (hfirst.2 h)
    exact ⟨htold, outcome, hrun, hshows, hshows.exitCode, hwritten⟩
  refine ⟨⟨hshown, halone⟩, hiff, hfaulty, fun failure h => run_of_failure (hfirst.2 h), fun hnone h => ?_,
    fun hread hdistinct => ?_⟩
  · -- a listing that comes first with a failure would fail alone
    have hsome : (∃ listing ∈ arguments.listings, ∃ stop, stops listing stop) ∨ ¬ distinct :=
      h.imp_left fun ⟨listing, hlisting, report, hstop⟩ => ⟨listing, hlisting, _, hstop⟩
    obtain ⟨report | failure, hstop⟩ := hiff.2 hsome
    · exact ⟨report, hfaulty report hstop⟩
    · obtain ⟨before, listing, after, hlistings, -, -, hlast⟩ := hstop
      split at hlast
      · cases hlast
      · exact absurd hlast (hnone listing (hlistings ▸ by simp) failure)
  obtain ⟨read, hreading, hread⟩ := exists_reading hne hread hdistinct
  have hbuilt : ∀ listing ∈ arguments.listings, (read listing).job.program.Built :=
    fun listing hlisting => (hread listing hlisting).2.2
  have hstems : (arguments.listings.map read).map (·.name) =
      arguments.listings.map fun listing => (Path.ofString listing).stem := by
    rw [List.map_map]
    exact List.map_congr_left fun listing hlisting => (hread listing hlisting).2.1
  have hnames : ((arguments.listings.map read).map (·.name)).Nodup := by rwa [hstems]
  obtain ⟨hbroken, hwhole⟩ := account_of_reading hreading hnames (List.forall_mem_map.2 hbuilt) hworkers
  constructor
  · rintro listing hlisting ⟨input, hinput, hbreaks⟩
    obtain ⟨hone, -⟩ := hread listing hlisting
    obtain rfl : read listing = input := by
      cases hone.symm.trans hinput
      rfl
    obtain ⟨e, he⟩ := account_alone_of_breaks hone (hbuilt listing hlisting) hworkers hbreaks
    obtain ⟨e', he'⟩ := hbroken ⟨read listing, List.mem_map_of_mem hlisting, hbreaks⟩
    exact ⟨⟨e, run_of_account_error (halone listing) he⟩, e', run_of_account_error hshown he'⟩
  · intro hall
    have hnot : ∀ listing ∈ arguments.listings, ¬ (read listing).job.Breaks arguments.closure :=
      fun listing hlisting hbreaks => hall listing hlisting ⟨read listing, (hread listing hlisting).1, hbreaks⟩
    have hjoint := hwhole (List.forall_mem_map.2 hnot)
    obtain ⟨hyes, hno⟩ := run_of_account hshown hjoint
    refine ⟨_, ?_, hjoint, fun htellable => ?_, hno⟩
    · rw [List.map_map, List.map_map]
      exact List.map_congr_left fun listing hlisting =>
        account_alone (hread listing hlisting).1 (hbuilt listing hlisting) hworkers (hnot listing hlisting)
    · obtain ⟨outcome, hrun, hshows⟩ := hyes htellable
      exact ⟨outcome, hrun, joins_of_read hmany hread hworkers hnot hnames hjoint hshows⟩

end

/-! ## Two listings -/

namespace Pair

/-- A listing of one type without members. -/
def types (name : String) : List Listing.TypeDecl := [{ head := { position := {}, name } }]

/-- A list with the name `A`, and a listing of each of the types `A` and `B`. -/
def tree : FileTree where
  files := [(["names.txt"], "A"), (["a.il"], Listing.text (types "A")), (["b.il"], Listing.text (types "B"))]

def arguments : Arguments where
  listings := ["a.il", "b.il"]
  sourceSet := some (.text "names.txt")
  generateAllStubs := true
  output := some (.text "out")

theorem sharedNames_eq : sharedNames tree.view arguments = .ok (some ["A"]) := by
  have hfile : tree.view (Path.ofString "names.txt") = .file "A" := by decide +kernel
  have hnames : SourceSet.readAllowList tree.view (Path.ofString "names.txt") = .ok ["A"] := by
    unfold SourceSet.readAllowList Files.read
    rw [hfile]
    decide +kernel
  unfold sharedNames
  dsimp only [arguments]
  rw [hfile, hnames]
  rfl

theorem exists_load {name : String} {id : TypeId} (hformed : ∀ t ∈ types name, t.WellFormed)
    (hid : Listing.declaredId none name = .ok id) (program file : String) {P : Program → Prop} [DecidablePred P]
    (h : (Listing.makeAll (some file) [Listing.headCall (some file) none { position := {}, name }]
      { name := program }).toOption.any (fun p => P p.resolveOperands) = true) :
    ∃ p, Listing.load (Listing.text (types name)) program (some file) = .ok p ∧ P p := by
  refine Listing.exists_load_text hformed ?_ h
  simp [types, Listing.placeTypes, Listing.TypeDecl.place, Listing.placeMembers, Listing.calls, Listing.typeCalls,
    Listing.innerCalls, Listing.fillCalls, Listing.memberCalls, Listing.propertyCalls, hid]

theorem reading_eq {listing name : String} {p : Program}
    (htext : (tree.view (Path.ofString listing)).text? = some (Listing.text (types name)))
    (hload : Listing.load (Listing.text (types name)) (Path.ofString listing).stem
      (some (Path.ofString listing).toString) = .ok p) :
    ∃ input, reading tree.view (arguments.alone none listing) = .ok [input] ∧ input.job = ⟨p, ["A"]⟩ ∧ p.Built := by
  have hread : readListing tree.view (Path.ofString listing) = .ok p := by
    unfold readListing
    rw [Files.read_eq_ok_iff.2 htext]
    dsimp only
    rw [hload]
  have hinput : readInput tree.view arguments (some ["A"]) [] (Path.ofString listing) =
      .ok { name := (Path.ofString listing).stem, path := Path.ofString listing, job := ⟨p, ["A"]⟩ } := by
    rw [readInput_nil, hread]
    rfl
  refine ⟨{ name := (Path.ofString listing).stem, path := Path.ofString listing, job := ⟨p, ["A"]⟩ }, ?_, rfl,
    built_of_readListing hread⟩
  rw [reading_alone sharedNames_eq, hinput]

theorem exists_inputs : ∃ first second, reading tree.view (arguments.alone none "a.il") = .ok [first] ∧
    reading tree.view (arguments.alone none "b.il") = .ok [second] ∧ first.job.IsKnown ∧ ¬ second.job.IsKnown := by
  have hid : Listing.declaredId none "A" = .ok (.top "" "A" 0) := by decide +kernel
  have hid' : Listing.declaredId none "B" = .ok (.top "" "B" 0) := by decide +kernel
  have hfirst : ∃ p, Listing.load (Listing.text (types "A")) "a" (some "a.il") = .ok p ∧ p.findType? "A" ≠ none :=
    exists_load (by decide +kernel) hid "a" "a.il" (by decide +kernel)
  have hsecond : ∃ p, Listing.load (Listing.text (types "B")) "b" (some "b.il") = .ok p ∧ p.findType? "A" = none :=
    exists_load (by decide +kernel) hid' "b" "b.il" (by decide +kernel)
  obtain ⟨p, hp, hknown⟩ := hfirst
  obtain ⟨q, hq, hno⟩ := hsecond
  obtain ⟨first, hreading, hjob, hbuilt⟩ := @reading_eq "a.il" "A" p (by decide +kernel) hp
  obtain ⟨second, hreading', hjob', hbuilt'⟩ := @reading_eq "b.il" "B" q (by decide +kernel) hq
  refine ⟨first, second, hreading, hreading', ?_, fun hall => ?_⟩
  · unfold Job.IsKnown
    rw [hjob, List.forall_mem_singleton]
    exact hbuilt.indexed.findType?_ne_none_iff.1 hknown
  · unfold Job.IsKnown at hall
    rw [hjob', List.forall_mem_singleton] at hall
    exact hbuilt'.indexed.findType?_ne_none_iff.2 hall hno

/-- With everything stubbed there is one pass, and so there are no long numbers in manifests. -/
theorem writable_told {options : ClosureOptions} (hg : options.generateAll = true) {input : Input}
    (hbuilt : input.job.program.Built) : ∀ entry ∈ (input.told options).manifests, entry.2.Writable := by
  intro entry hentry
  unfold Input.told at hentry
  dsimp only at hentry
  cases h : (Batch.runJob options input.job).result with
  | error e =>
    rw [h] at hentry
    cases hentry
  | ok r =>
    rw [h] at hentry
    obtain rfl := List.mem_singleton.1 hentry
    have hknown : ∀ name ∈ input.job.sourceNames, input.job.program.findType? name ≠ none := by
      rcases Batch.runJob_cases hbuilt options with ⟨-, _, hno⟩ | ⟨-, _, hno⟩ | ⟨hknown, -⟩
      · cases hno.symm.trans h
      · cases hno.symm.trans h
      · exact fun name hname => hbuilt.indexed.findType?_ne_none_iff.2 (hknown name hname)
    obtain ⟨sources, summary, after, -, hrun, -⟩ := Closure.exists_run_of_generateAll hbuilt.coherent hbuilt.indexed
      hknown hg {} (Memory.faithful_empty _)
    obtain rfl : Closure.result sources [summary] after = r := Except.ok.inj ((congrArg Prod.fst hrun).symm.trans h)
    exact (Manifest.writable_build_iff _ _ _).2 (Text.lt_unwritableFrom (show 1 ≤ Text.maxDigits by decide))

theorem exists_input : ∀ listing ∈ arguments.listings, ∃ input,
    reading tree.view (arguments.alone none listing) = .ok [input] := by
  obtain ⟨first, second, hfirst, hsecond, -⟩ := exists_inputs
  simp only [arguments, List.forall_mem_cons]
  exact ⟨⟨first, hfirst⟩, ⟨second, hsecond⟩, List.forall_mem_nil _⟩

theorem not_stops : ∀ listing ∈ arguments.listings, ∀ stop, ¬ Stops tree.view (arguments.alone none listing) stop := by
  rintro listing hlisting stop ⟨inputs, hstop⟩
  obtain ⟨input, hinput⟩ := exists_input listing hlisting
  cases hinput.symm.trans hstop

theorem not_breaks (input : Input) : ¬ input.job.Breaks arguments.closure := by
  rintro ⟨hg, -⟩
  exact absurd hg (by decide)

theorem workers_nonneg : ∀ n ∈ arguments.jobs, 0 ≤ n := by simp [arguments]

theorem of_account {listing : String} (hlisting : listing ∈ arguments.listings) {told : Account}
    (htold : account tree.view (arguments.alone none listing) = .ok told) :
    ∀ entry ∈ told.manifests, entry.1 ∈ ["a", "b"] ∧ entry.2.Writable := by
  intro entry hentry
  obtain ⟨input, hinput⟩ := exists_input listing hlisting
  obtain ⟨hname, hbuilt⟩ := of_reading_alone hinput
  obtain rfl := Except.ok.inj ((account_alone hinput hbuilt workers_nonneg (not_breaks input)).symm.trans htold)
  have hown := List.mem_singleton.1 ((names_told _ input).subset (List.mem_map_of_mem hentry))
  have hstems : ∀ listing ∈ arguments.listings, (Path.ofString listing).stem ∈ ["a", "b"] := by decide +kernel
  refine ⟨?_, writable_told rfl hbuilt entry hentry⟩
  rw [hown, hname]
  exact hstems listing hlisting

theorem tellable {told : Account} (h : ∀ entry ∈ told.manifests, entry.1 ∈ ["a", "b"] ∧ entry.2.Writable) :
    told.Tellable tree.disk arguments := by
  have hwritable : ∀ entry ∈ told.manifests, entry.2.Writable := fun entry hentry => (h entry hentry).2
  have hfiles : ∀ name ∈ ["a", "b"], tree.disk.writes (some (Path.ofString "out"))
      (manifestPath (Path.ofString "out") true name) = .ok () := by
    decide +kernel
  refine ⟨fun _ _ => hwritable, fun _ value hvalue _ => ⟨"out", (Option.some.inj hvalue).symm, ?_⟩⟩
  exact ⟨by decide +kernel, fun _ => by decide +kernel, hwritable, fun entry hentry => hfiles _ (h entry hentry).1⟩

end Pair

/-- Of two listings the one that has the type that is asked for gets its file, and the other gets none. -/
theorem run_joint_pair : 2 ≤ Pair.arguments.listings.length ∧ (∀ n ∈ Pair.arguments.jobs, 0 ≤ n) ∧
    ∃ outcome, run Pair.tree.disk Pair.arguments = .ok outcome ∧
      ∀ path, path ∈ outcome.written.map (·.1) ↔ path = (Path.ofString "out").child "a.stubs.json" := by
  have hmany : 2 ≤ Pair.arguments.listings.length := by decide
  obtain ⟨-, -, -, -, -, hend⟩ := @run_joint Pair.tree.disk Pair.arguments none hmany Pair.workers_nonneg
  have hwhole : ∀ listing ∈ Pair.arguments.listings, ¬ ∃ input,
      reading Pair.tree.view (Pair.arguments.alone none listing) = .ok [input] ∧
        input.job.Breaks Pair.arguments.closure :=
    fun _ _ ⟨input, _, hbreaks⟩ => Pair.not_breaks input hbreaks
  obtain ⟨accounts, haccounts, -, hyes, -⟩ := (hend Pair.not_stops (by decide +kernel)).2 hwhole
  have hentries : ∀ entry ∈ (Account.join accounts).manifests, entry.1 ∈ ["a", "b"] ∧ entry.2.Writable := by
    intro entry hentry
    obtain ⟨told, htold, hentry⟩ := mem_manifests_join.1 hentry
    obtain ⟨listing, hlisting, haccount⟩ := List.mem_map.1 (haccounts ▸ List.mem_map_of_mem htold)
    exact Pair.of_account hlisting haccount entry hentry
  obtain ⟨outcome, hrun, hjoins⟩ := hyes (Pair.tellable hentries)
  have hplace : (Path.ofString "out").child ((Path.ofString "a.il").stem ++ ".stubs.json") =
    (Path.ofString "out").child "a.stubs.json" := by decide +kernel
  obtain ⟨first, second, hfirst, hsecond, hknown, hno⟩ := Pair.exists_inputs
  refine ⟨hmany, Pair.workers_nonneg, outcome, hrun, fun path => ?_⟩
  rw [hjoins.mem_paths_iff rfl fun listing hlisting told htold entry hentry =>
    (Pair.of_account hlisting htold entry hentry).2, ← hplace]
  constructor
  · rintro ⟨listing, hlisting, input, hinput, hyes, hpath⟩
    simp only [Pair.arguments, List.mem_cons, List.not_mem_nil, or_false] at hlisting
    rcases hlisting with rfl | rfl
    · exact hpath
    · cases hsecond.symm.trans hinput
      exact absurd hyes hno
  · intro hpath
    exact ⟨"a.il", by decide, first, hfirst, hknown, hpath⟩

end StubClosure.CommandLine
