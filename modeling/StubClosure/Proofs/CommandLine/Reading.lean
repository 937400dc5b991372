import StubClosure.Proofs.CommandLine.Account

/-!
# Reading several listings

Reading a listing does not look at the others, but for the names that programs have already. So all listings are read if each can be read alone and their names differ (`exists_reading`), and otherwise the first that cannot be read, or that has the name of one before it, says how reading ends (`stops_iff_firstStop`).
-/

namespace StubClosure.CommandLine

/-- The same command on one listing, with an output of its own. -/
def Arguments.alone (arguments : Arguments) (output : Option OptionValue) (listing : String) : Arguments :=
  { arguments with listings := [listing], output }

/-- Reading comes to a stop before anything is run. -/
def Stops (files : Files) (arguments : Arguments) (stop : Stop) : Prop :=
  ∃ inputs, reading files arguments = .error (inputs, stop)

/-- The fault of a listing whose name is that of a program already. -/
def duplicate (path : Path) : Stop := fault "listing" s!"duplicate program name '{path.stem}'" path

/-- Among the listings there is a first one that cannot be read alone, or that has the name of one before it. The stop is what comes of it. -/
def FirstStop (files : Files) (arguments : Arguments) (own : Option OptionValue) (stop : Stop) : Prop :=
  ∃ before listing after, arguments.listings = before ++ listing :: after ∧
    (∀ earlier ∈ before, ∃ input, reading files (arguments.alone own earlier) = .ok [input]) ∧
    (before.map fun earlier => (Path.ofString earlier).stem).Nodup ∧
    if (Path.ofString listing).stem ∈ before.map fun earlier => (Path.ofString earlier).stem then
      stop = duplicate (Path.ofString listing)
    else Stops files (arguments.alone own listing) stop

variable {files : Files} {arguments : Arguments} {shared : Option (List String)} {earlier inputs : List Input}
  {path : Path} {paths : List Path}

/-! ## One listing after the other -/

theorem readInput_of_known (h : ∃ input ∈ earlier, input.name = path.stem) :
    readInput files arguments shared earlier path =
      .error (duplicate path) := by
  have hany : earlier.any (·.name = path.stem) = true := by simpa using h
  unfold readInput
  rw [if_pos hany]
  rfl

theorem readInput_of_new (h : ¬ ∃ input ∈ earlier, input.name = path.stem) :
    readInput files arguments shared earlier path = readInput files arguments shared [] path := by
  have hany : ¬ earlier.any (·.name = path.stem) = true := by simpa using h
  unfold readInput
  rw [if_neg hany, if_neg (by simp)]

theorem readInput_nil (files : Files) (arguments : Arguments) (shared : Option (List String)) (path : Path) :
    readInput files arguments shared [] path =
      (readListing files path >>= fun program => sourceNames files arguments shared path.stem >>= fun sourceNames =>
        if sourceNames = [] then
          .error (fault "source-set" "no source types given (use --source-set or --patches)" path)
        else .ok { name := path.stem, path, job := { program, sourceNames } }) := by
  unfold readInput
  rw [if_neg (by simp)]
  show (readListing files path >>= _) = _
  cases readListing files path with
  | error stop => rfl
  | ok program =>
    show (sourceNames files arguments shared path.stem >>= _) = _
    cases sourceNames files arguments shared path.stem with
    | error stop => rfl
    | ok names =>
      show (if names = [] then _ else _) = if names = [] then _ else _
      split <;> rfl

theorem built_of_readListing {program : Program} (h : readListing files path = .ok program) : program.Built := by
  unfold readListing at h
  split at h
  · cases h
  · split at h <;> cases h
  · next text _ =>
    have hcases := Listing.load_cases text path.stem (some path.toString)
    split at h
    · next hload =>
      rw [hload] at hcases
      cases h
      exact hcases
    · cases h
    · cases h

theorem of_readInput {input : Input} (h : readInput files arguments shared [] path = .ok input) :
    input.name = path.stem ∧ input.path = path ∧ input.job.program.Built := by
  rw [readInput_nil] at h
  obtain ⟨program, hprogram, h⟩ := exists_of_bind_eq_ok h
  obtain ⟨names, -, h⟩ := exists_of_bind_eq_ok h
  split at h
  · cases h
  · cases h
    exact ⟨rfl, rfl, built_of_readListing hprogram⟩

theorem names_append_singleton {input : Input} (h : readInput files arguments shared [] path = .ok input) :
    (earlier ++ [input]).map (·.name) = earlier.map (·.name) ++ [path.stem] := by
  rw [List.map_append, List.map_singleton, (of_readInput h).1]

theorem nodup_names_append {input : Input} (hread : readInput files arguments shared [] path = .ok input)
    (hnew : ¬ ∃ other ∈ earlier, other.name = path.stem) (hnames : (earlier.map (·.name)).Nodup) :
    ((earlier ++ [input]).map (·.name)).Nodup := by
  rw [names_append_singleton hread]
  refine List.nodup_append.2 ⟨hnames, List.nodup_singleton _, fun name hmem other hother heq => ?_⟩
  obtain ⟨found, hfound, rfl⟩ := List.mem_map.1 hmem
  exact hnew ⟨found, hfound, heq.trans (List.mem_singleton.1 hother)⟩

theorem of_readInputs (h : readInputs files arguments shared earlier paths = .ok inputs)
    (hnames : (earlier.map (·.name)).Nodup) : ∃ new, inputs = earlier ++ new ∧
      paths.map (readInput files arguments shared []) = new.map .ok ∧
        (earlier.map (·.name) ++ paths.map Path.stem).Nodup := by
  induction paths generalizing earlier with
  | nil =>
    cases h
    exact ⟨[], (List.append_nil _).symm, rfl, by rwa [List.map_nil, List.append_nil]⟩
  | cons path rest ih =>
    rw [readInputs] at h
    by_cases hknown : ∃ input ∈ earlier, input.name = path.stem
    · rw [readInput_of_known hknown] at h
      cases h
    · rw [readInput_of_new hknown] at h
      cases hread : readInput files arguments shared [] path with
      | error stop =>
        rw [hread] at h
        cases h
      | ok input =>
        rw [hread] at h
        obtain ⟨new, rfl, hnew, hall⟩ := ih h (nodup_names_append hread hknown hnames)
        refine ⟨input :: new, by rw [List.append_assoc, List.singleton_append], ?_, ?_⟩
        · rw [List.map_cons, List.map_cons, hread, hnew]
        · rwa [names_append_singleton hread, List.append_assoc] at hall

theorem readInputs_of_new {new : List Input} (h : paths.map (readInput files arguments shared []) = new.map .ok)
    (hnames : (earlier.map (·.name) ++ paths.map Path.stem).Nodup) :
    readInputs files arguments shared earlier paths = .ok (earlier ++ new) := by
  induction paths generalizing earlier new with
  | nil =>
    obtain rfl : new = [] := List.map_eq_nil_iff.1 h.symm
    rw [List.append_nil]
    rfl
  | cons path rest ih =>
    cases new with
    | nil => cases h
    | cons input new =>
      rw [List.map_cons, List.map_cons, List.cons.injEq] at h
      have hnew : ¬ ∃ input ∈ earlier, input.name = path.stem := by
        rintro ⟨other, hother, heq⟩
        rw [List.map_cons, List.nodup_append] at hnames
        exact hnames.2.2 _ (List.mem_map_of_mem hother) _ List.mem_cons_self heq
      rw [readInputs, readInput_of_new hnew, h.1]
      dsimp only
      rw [@ih (earlier ++ [input]) new h.2, List.append_assoc, List.singleton_append]
      rw [List.map_append, List.map_singleton, (of_readInput h.1).1, List.append_assoc, List.singleton_append]
      exact hnames

theorem of_readInputs_stop {stop : Stop}
    (h : readInputs files arguments shared earlier paths = .error (inputs, stop)) :
    ∃ before path after, paths = before ++ path :: after ∧
      (∀ other ∈ before, ∃ input, readInput files arguments shared [] other = .ok input) ∧
      ((earlier.map (·.name)).Nodup → (earlier.map (·.name) ++ before.map Path.stem).Nodup) ∧
      if path.stem ∈ earlier.map (·.name) ++ before.map Path.stem then stop = duplicate path
      else readInput files arguments shared [] path = .error stop := by
  induction paths generalizing earlier with
  | nil => cases h
  | cons path rest ih =>
    rw [readInputs] at h
    by_cases hknown : ∃ input ∈ earlier, input.name = path.stem
    · rw [readInput_of_known hknown] at h
      cases h
      refine ⟨[], path, rest, rfl, List.forall_mem_nil _, by simp, ?_⟩
      rw [if_pos (List.mem_append_left _ (List.mem_map.2 hknown))]
    · rw [readInput_of_new hknown] at h
      cases hread : readInput files arguments shared [] path with
      | error stop' =>
        rw [hread] at h
        cases h
        refine ⟨[], path, rest, rfl, List.forall_mem_nil _, by simp, ?_⟩
        rwa [List.map_nil, List.append_nil, if_neg fun hmem => hknown (List.mem_map.1 hmem)]
      | ok input =>
        rw [hread] at h
        obtain ⟨before, last, after, rfl, hbefore, hnodup, hlast⟩ := ih h
        refine ⟨path :: before, last, after, rfl, List.forall_mem_cons.2 ⟨⟨input, hread⟩, hbefore⟩, fun hnames => ?_, ?_⟩
        · have hall := hnodup (nodup_names_append hread hknown hnames)
          rwa [names_append_singleton hread, List.append_assoc] at hall
        · rwa [names_append_singleton hread, List.append_assoc] at hlast

theorem readInputs_of_forall (hread : ∀ path ∈ paths, ∃ input, readInput files arguments shared [] path = .ok input)
    (hnames : (paths.map Path.stem).Nodup) : ∃ inputs, readInputs files arguments shared [] paths = .ok inputs ∧
      inputs.map (·.name) = paths.map Path.stem := by
  obtain ⟨inputs, hinputs⟩ := mapM_eq_ok_iff.2 hread
  have hmap : inputs.map .ok = paths.map (readInput files arguments shared []) :=
    map_of_mapM hinputs fun _ _ h => h.symm
  have hnodup : (([] : List Input).map (·.name) ++ paths.map Path.stem).Nodup := hnames
  exact ⟨inputs, readInputs_of_new hmap.symm hnodup, map_of_mapM hinputs fun _ _ h => (of_readInput h).1⟩

/-- Reading stops at the first listing that cannot be read by itself or has the name of one before it. -/
theorem readInputs_stops_iff {stop : Stop} :
    (∃ inputs, readInputs files arguments shared [] paths = .error (inputs, stop)) ↔
      ∃ before path after, paths = before ++ path :: after ∧
        (∀ earlier ∈ before, ∃ input, readInput files arguments shared [] earlier = .ok input) ∧
        (before.map Path.stem).Nodup ∧
        if path.stem ∈ before.map Path.stem then stop = duplicate path
        else readInput files arguments shared [] path = .error stop := by
  constructor
  · rintro ⟨inputs, h⟩
    obtain ⟨before, path, after, hpaths, hbefore, hnodup, hlast⟩ := of_readInputs_stop h
    exact ⟨before, path, after, hpaths, hbefore, hnodup List.nodup_nil, hlast⟩
  · rintro ⟨before, path, after, rfl, hbefore, hnodup, hlast⟩
    obtain ⟨inputs, hinputs, hnames⟩ := readInputs_of_forall hbefore hnodup
    refine ⟨inputs, ?_⟩
    rw [Listing.readInputs_append hinputs, readInputs]
    rw [← hnames] at hlast
    split at hlast
    next hknown => rw [readInput_of_known (List.mem_map.1 hknown), hlast]
    next hnew => rw [readInput_of_new fun h => hnew (List.mem_map.2 h), hlast]

/-! ## One listing or many -/

variable {own : Option OptionValue}

theorem reading_of_shared {stop : Stop} (h : sharedNames files arguments = .error stop) :
    reading files arguments = .error ([], stop) := by
  unfold reading
  rw [h]

theorem reading_alone_of_shared {stop : Stop} (h : sharedNames files arguments = .error stop)
    (own : Option OptionValue) (listing : String) : reading files (arguments.alone own listing) = .error ([], stop) :=
  reading_of_shared h

/-- A command on one listing reads it as the command on all does, but for the names of programs. -/
theorem reading_alone (h : sharedNames files arguments = .ok shared) (own : Option OptionValue) (listing : String) :
    reading files (arguments.alone own listing) =
      match readInput files arguments shared [] (Path.ofString listing) with
      | .error stop => .error ([], stop)
      | .ok input => .ok [input] := by
  have halone : sharedNames files (arguments.alone own listing) = .ok shared := h
  have hinput : readInput files (arguments.alone own listing) shared [] (Path.ofString listing) =
    readInput files arguments shared [] (Path.ofString listing) := rfl
  unfold reading
  rw [halone]
  show readInputs files (arguments.alone own listing) shared [] [Path.ofString listing] = _
  rw [readInputs, hinput]
  cases readInput files arguments shared [] (Path.ofString listing) <;> rfl

theorem exists_reading_alone_iff (h : sharedNames files arguments = .ok shared) (own : Option OptionValue)
    (listing : String) : (∃ input, reading files (arguments.alone own listing) = .ok [input]) ↔
      ∃ input, readInput files arguments shared [] (Path.ofString listing) = .ok input := by
  rw [reading_alone h]
  cases readInput files arguments shared [] (Path.ofString listing) <;> simp

theorem stops_alone_iff (h : sharedNames files arguments = .ok shared) (own : Option OptionValue) (listing : String)
    {stop : Stop} : Stops files (arguments.alone own listing) stop ↔
      readInput files arguments shared [] (Path.ofString listing) = .error stop := by
  unfold Stops
  rw [reading_alone h]
  cases readInput files arguments shared [] (Path.ofString listing) <;> simp

theorem stops_of_shared {stop stop' : Stop} (h : sharedNames files arguments = .error stop) :
    Stops files arguments stop' ↔ stop' = stop := by
  unfold Stops
  rw [reading_of_shared h]
  simp [eq_comm]

theorem stops_iff_firstStop (hsome : arguments.listings ≠ []) {stop : Stop} :
    Stops files arguments stop ↔ FirstStop files arguments own stop := by
  cases hshared : sharedNames files arguments with
  | error stop' =>
    have halone : ∀ listing, Stops files (arguments.alone own listing) stop ↔ stop = stop' :=
      fun listing => stops_of_shared hshared
    rw [stops_of_shared hshared]
    constructor
    · intro h
      obtain ⟨listing, after, hlistings⟩ := List.exists_cons_of_ne_nil hsome
      exact ⟨[], listing, after, hlistings, List.forall_mem_nil _, List.nodup_nil, (halone listing).2 h⟩
    · rintro ⟨before, listing, after, -, hbefore, -, hlast⟩
      cases before with
      | nil => exact (halone listing).1 hlast
      | cons first rest =>
        obtain ⟨input, hinput⟩ := hbefore first List.mem_cons_self
        cases (reading_alone_of_shared hshared own first).symm.trans hinput
  | ok shared =>
    have hreading : reading files arguments =
        readInputs files arguments shared [] (arguments.listings.map Path.ofString) := by
      unfold reading
      rw [hshared]
    have hstems : ∀ before : List String, (before.map Path.ofString).map Path.stem =
        before.map fun earlier => (Path.ofString earlier).stem := by
      intro before
      rw [List.map_map, Function.comp_def]
    unfold Stops
    rw [hreading, readInputs_stops_iff]
    constructor
    · rintro ⟨before, path, after, hpaths, hbefore, hnodup, hlast⟩
      obtain ⟨first, last, hlistings, rfl, hlast'⟩ := List.map_eq_append_iff.1 hpaths
      obtain ⟨listing, rest, rfl, rfl, rfl⟩ := List.map_eq_cons_iff.1 hlast'
      rw [hstems] at hnodup hlast
      refine ⟨first, listing, rest, hlistings, fun earlier hearlier => ?_, hnodup, ?_⟩
      · exact (exists_reading_alone_iff hshared own earlier).2 (hbefore _ (List.mem_map_of_mem hearlier))
      · rwa [stops_alone_iff hshared]
    · rintro ⟨before, listing, after, hlistings, hbefore, hnodup, hlast⟩
      rw [stops_alone_iff hshared] at hlast
      refine ⟨before.map Path.ofString, Path.ofString listing, after.map Path.ofString, ?_, ?_, ?_, ?_⟩
      · rw [hlistings, List.map_append, List.map_cons]
      · exact List.forall_mem_map.2 fun earlier hearlier =>
          (exists_reading_alone_iff hshared own earlier).1 (hbefore earlier hearlier)
      · rwa [hstems]
      · rwa [hstems]

theorem of_reading_alone {listing : String} {input : Input}
    (h : reading files (arguments.alone own listing) = .ok [input]) :
    input.name = (Path.ofString listing).stem ∧ input.job.program.Built := by
  cases hshared : sharedNames files arguments with
  | error stop => cases (reading_alone_of_shared hshared own listing).symm.trans h
  | ok shared =>
    rw [reading_alone hshared] at h
    split at h
    · cases h
    next input' hinput =>
      cases h
      exact ⟨(of_readInput hinput).1, (of_readInput hinput).2.2⟩

/-- The listings are read one by one as they are together, if each can be read and all have names of their own. -/
theorem exists_reading (hsome : arguments.listings ≠ [])
    (hread : ∀ listing ∈ arguments.listings, ∀ stop, ¬ Stops files (arguments.alone own listing) stop)
    (hdistinct : (arguments.listings.map fun listing => (Path.ofString listing).stem).Nodup) :
    ∃ read : String → Input, reading files arguments = .ok (arguments.listings.map read) ∧
      ∀ listing ∈ arguments.listings, reading files (arguments.alone own listing) = .ok [read listing] ∧
        (read listing).name = (Path.ofString listing).stem ∧ (read listing).job.program.Built := by
  cases hshared : sharedNames files arguments with
  | error stop =>
    obtain ⟨listing, hlisting⟩ := List.exists_mem_of_ne_nil _ hsome
    exact absurd ⟨[], reading_alone_of_shared hshared own listing⟩ (hread listing hlisting stop)
  | ok shared =>
    have hinput : ∀ listing ∈ arguments.listings, ∃ input,
        readInput files arguments shared [] (Path.ofString listing) = .ok input := by
      intro listing hlisting
      cases h : readInput files arguments shared [] (Path.ofString listing) with
      | ok input => exact ⟨input, rfl⟩
      | error stop => exact absurd ((stops_alone_iff hshared own listing).2 h) (hread listing hlisting stop)
    have : Nonempty Input := ⟨{ name := "", path := {}, job := { program := default, sourceNames := [] } }⟩
    choose! read hread using hinput
    have hnew : (arguments.listings.map Path.ofString).map (readInput files arguments shared []) =
        (arguments.listings.map read).map .ok := by
      rw [List.map_map, List.map_map]
      exact List.map_congr_left fun listing hlisting => hread listing hlisting
    refine ⟨read, ?_, fun listing hlisting => ?_⟩
    · unfold reading
      rw [hshared]
      dsimp only
      rw [readInputs_of_new hnew, List.nil_append]
      rw [List.map_nil, List.nil_append, List.map_map, Function.comp_def]
      exact hdistinct
    · have halone : reading files (arguments.alone own listing) = .ok [read listing] := by
        rw [reading_alone hshared, hread listing hlisting]
      exact ⟨halone, of_reading_alone halone⟩

theorem exists_stops_iff (hsome : arguments.listings ≠ []) : (∃ stop, Stops files arguments stop) ↔
    (∃ listing ∈ arguments.listings, ∃ stop, Stops files (arguments.alone own listing) stop) ∨
      ¬ (arguments.listings.map fun listing => (Path.ofString listing).stem).Nodup := by
  constructor
  · rintro ⟨stop, inputs, hstop⟩
    by_contra hno
    push Not at hno
    obtain ⟨read, hread, -⟩ := exists_reading hsome hno.1 hno.2
    cases hread.symm.trans hstop
  · intro h
    cases hreading : reading files arguments with
    | error stopped => exact ⟨stopped.2, stopped.1, hreading⟩
    | ok inputs =>
      exfalso
      cases hshared : sharedNames files arguments with
      | error stop => cases (reading_of_shared hshared).symm.trans hreading
      | ok shared =>
        unfold reading at hreading
        rw [hshared] at hreading
        obtain ⟨new, -, hnew, hnames⟩ := of_readInputs hreading List.nodup_nil
        rcases h with ⟨listing, hlisting, stop, hstop⟩ | hdistinct
        · rw [stops_alone_iff hshared] at hstop
          have hmem : readInput files arguments shared [] (Path.ofString listing) ∈ new.map Except.ok :=
            hnew ▸ List.mem_map_of_mem (List.mem_map_of_mem hlisting)
          obtain ⟨input, -, hinput⟩ := List.mem_map.1 hmem
          cases hinput.trans hstop
        · rw [List.map_nil, List.nil_append, List.map_map, Function.comp_def] at hnames
          exact hdistinct hnames

end StubClosure.CommandLine
