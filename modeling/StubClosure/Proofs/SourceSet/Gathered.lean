import StubClosure.Proofs.SourceSet
import StubClosure.Proofs.TypeName

/-!
# What is gathered from a patch directory

The source set of a directory holds the names of its allow-list and those that its patches tell, each of them once and where it comes first. An allow-list is read line by line. Whatever ends the lines, however they are indented and whatever comments stand between them, what is read are names that stand on lines of their own (`Allowed`), so a text that has them one a line (`Lists`) is read as the same list again.

Two notions of separating have to fit together here: reading a file turns carriage returns into line feeds before the text is cut into lines, and a line is cut at more characters than these.
-/

namespace StubClosure

namespace Table

variable {κ ν : Type} [DecidableEq κ]

/-! ## First occurrences -/

theorem firstBy_concat (key : ν → κ) (values : List ν) (value : ν) :
    firstBy key (values ++ [value]) = (firstBy key values).insertNew (key value) value := by
  unfold firstBy
  rw [List.foldl_append]
  rfl

theorem pairwise_keys_firstBy (key : ν → κ) (values : List ν) : (firstBy key values).keys.Pairwise fun first second =>
    (values.map key).idxOf first < (values.map key).idxOf second := by
  -- from the end, since the table grows there
  induction values using List.reverseRecOn with
  | nil => exact .nil
  | append_singleton values value ih =>
    have hmem : ∀ k ∈ (firstBy key values).keys, k ∈ values.map key := fun k hk => List.mem_map.2 (mem_keys_firstBy.1 hk)
    have hold : (firstBy key values).keys.Pairwise fun first second =>
        ((values ++ [value]).map key).idxOf first < ((values ++ [value]).map key).idxOf second := by
      refine ih.imp_of_mem fun {first second} hfirst hsecond hlt => ?_
      rw [List.map_append, List.idxOf_append, List.idxOf_append, if_pos (hmem first hfirst), if_pos (hmem second hsecond)]
      exact hlt
    rw [firstBy_concat, keys_insertNew]
    split
    · exact hold
    next hnew =>
      refine List.pairwise_append.2 ⟨hold, List.pairwise_singleton _ _, fun first hfirst second hsecond => ?_⟩
      obtain rfl := List.mem_singleton.1 hsecond
      have hlast : key value ∉ values.map key := fun hin => hnew (mem_keys_firstBy.2 (List.mem_map.1 hin))
      rw [List.map_append, List.idxOf_append, List.idxOf_append, if_pos (hmem first hfirst), if_neg hlast]
      exact (List.idxOf_lt_length_of_mem (hmem first hfirst)).trans_le (Nat.le_add_left _ _)

end Table

namespace Text

variable {cs line rest ending : List Char} {c : Char}

/-! ## Lines -/

/-- What ends a line: one of the characters that do so, or a carriage return together with a line feed. -/
inductive LineEnding : List Char → Prop where
  | pair : LineEnding ['\r', '\n']
  | single {c : Char} : isLineEnd c = true → LineEnding [c]

theorem lines_of_isLineEnd (hc : isLineEnd c = true) (hr : c ≠ '\r') : lines (c :: rest) = [] :: lines rest := by
  rw [lines, if_pos hc]
  rintro other rfl -
  exact hr rfl

theorem lines_of_not_isLineEnd (hc : isLineEnd c = false) : lines (c :: rest) = consFirst c (lines rest) := by
  rw [lines, if_neg (Bool.eq_false_iff.1 hc)]
  rintro other rfl -
  exact absurd hc (by decide)

theorem lines_append (hl : ∀ c ∈ line, isLineEnd c = false) (hc : isLineEnd c = true) (hr : c ≠ '\r') :
    lines (line ++ c :: rest) = line :: lines rest := by
  induction line with
  | nil => exact lines_of_isLineEnd hc hr
  | cons d line ih =>
    rw [List.cons_append, lines_of_not_isLineEnd (hl d List.mem_cons_self),
      ih fun e he => hl e (List.mem_cons_of_mem _ he)]
    rfl

theorem lines_of_clear (hl : ∀ c ∈ line, isLineEnd c = false) (hne : line ≠ []) : lines line = [line] := by
  induction line with
  | nil => exact absurd rfl hne
  | cons d line ih =>
    rw [lines_of_not_isLineEnd (hl d List.mem_cons_self)]
    cases line with
    | nil => rfl
    | cons e line =>
      rw [ih (fun e he => hl e (List.mem_cons_of_mem _ he)) (List.cons_ne_nil _ _)]
      rfl

theorem isLineEnd_of_mem_lines (hline : line ∈ lines cs) (hc : c ∈ line) : isLineEnd c = false := by
  induction cs using lines.induct generalizing line with
  | case1 => cases hline
  | case2 rest ih =>
    rw [lines] at hline
    rcases List.mem_cons.1 hline with rfl | hline
    · cases hc
    · exact ih hline hc
  | case3 d rest hpair hd ih =>
    rw [lines, if_pos hd] at hline
    · rcases List.mem_cons.1 hline with rfl | hline
      · cases hc
      · exact ih hline hc
    · exact hpair
  | case4 d rest hpair hd ih =>
    rw [Bool.not_eq_true] at hd
    rw [lines_of_not_isLineEnd hd] at hline
    cases hrest : lines rest with
    | nil =>
      rw [hrest, consFirst, List.mem_singleton] at hline
      subst hline
      obtain rfl := List.mem_singleton.1 hc
      exact hd
    | cons first others =>
      rw [hrest] at hline ih
      rcases List.mem_cons.1 hline with rfl | hline
      · rcases List.mem_cons.1 hc with rfl | hc
        · exact hd
        · exact ih List.mem_cons_self hc
      · exact ih (List.mem_cons_of_mem _ hline) hc

/-! ## Line ends of files -/

theorem plainNewlines_append (hl : ∀ c ∈ line, isLineEnd c = false) :
    plainNewlines (line ++ rest) = line ++ plainNewlines rest := by
  induction line with
  | nil => rfl
  | cons d line ih =>
    have hd : d ≠ '\r' := by
      rintro rfl
      exact absurd (hl _ List.mem_cons_self) (by decide)
    rw [List.cons_append, plainNewlines, if_neg hd, ih fun e he => hl e (List.mem_cons_of_mem _ he)]
    · rfl
    · rintro other rfl -
      exact hd rfl

theorem LineEnding.exists_plainNewlines (he : LineEnding ending) (hrest : rest.head? ≠ some '\n') :
    ∃ c, isLineEnd c = true ∧ c ≠ '\r' ∧ plainNewlines (ending ++ rest) = c :: plainNewlines rest := by
  cases he with
  | pair => exact ⟨'\n', by decide, by decide, rfl⟩
  | @single c hc =>
    have hplain : plainNewlines (c :: rest) = (if c = '\r' then '\n' else c) :: plainNewlines rest := by
      rw [plainNewlines]
      rintro other - rfl
      exact hrest rfl
    by_cases hr : c = '\r'
    · rw [if_pos hr] at hplain
      exact ⟨'\n', by decide, by decide, hplain⟩
    · rw [if_neg hr] at hplain
      exact ⟨c, hc, hr, hplain⟩

/-! ## Trimming -/

theorem mem_of_mem_trim (hc : c ∈ trim cs) : c ∈ cs := by
  have hstart : c ∈ cs.dropWhile isBlank := (List.rdropWhile_prefix isBlank (cs.dropWhile isBlank)).mem hc
  exact (List.dropWhile_suffix isBlank).mem hstart

theorem isTrimmed_trim (cs : List Char) : IsTrimmed (trim cs) := by
  show IsTrimmed ((cs.dropWhile isBlank).rdropWhile isBlank)
  rw [isTrimmed_iff]
  constructor
  · -- the first character is that of the text without the blanks at its start
    intro c hc
    obtain ⟨tail, htail⟩ := List.rdropWhile_prefix isBlank (cs.dropWhile isBlank)
    have hhead : (cs.dropWhile isBlank).head? = some c := by
      rw [← htail, List.head?_append, hc]
      rfl
    have hnot := List.head?_dropWhile_not isBlank cs
    rw [hhead] at hnot
    exact hnot
  · intro c hc
    have hne : (cs.dropWhile isBlank).rdropWhile isBlank ≠ [] := by
      rintro heq
      rw [heq] at hc
      cases hc
    have hlast := List.rdropWhile_last_not isBlank (cs.dropWhile isBlank) hne
    rw [List.getLast?_eq_some_getLast hne] at hc
    rw [Option.mem_some_iff.1 hc] at hlast
    exact Bool.eq_false_iff.2 hlast

end Text

namespace SourceSet

variable {files : Files} {path directory : Path} {patches : List (String × String)} {line : List Char}
  {name : String} {names : List String} {text : List Char}

/-! ## Allow-lists -/

/-- A name as it can stand in an allow-list: on one line, not empty and no comment, and without blanks at its ends. -/
structure Allowed (name : String) : Prop where
  nonempty : name ≠ ""
  noComment : name.toList.head? ≠ some '#'
  trimmed : Text.IsTrimmed name.toList
  oneLine : ∀ c ∈ name.toList, Text.isLineEnd c = false

/-- The text has these names one a line. The lines may end in any way, and the last one need not. -/
inductive Lists : List String → List Char → Prop where
  | nil : Lists [] []
  | last (name : String) : Lists [name] name.toList
  | cons (name : String) {names : List String} {ending text : List Char} :
      Text.LineEnding ending → Lists names text → Lists (name :: names) (name.toList ++ (ending ++ text))

theorem allowedName?_eq_some_iff : allowedName? line = some name ↔
    name.toList = Text.trim line ∧ name ≠ "" ∧ name.toList.head? ≠ some '#' := by
  unfold allowedName?
  dsimp only
  rw [ne_eq, ← String.toList_eq_nil_iff]
  split
  next hnone =>
    constructor
    · rintro ⟨⟩
    · rintro ⟨heq, hne, hhead⟩
      rw [heq] at hne hhead
      exact absurd hnone (not_or.2 ⟨hne, hhead⟩)
  next hsome =>
    obtain ⟨hne, hhead⟩ := not_or.1 hsome
    rw [Option.some.injEq]
    constructor
    · rintro rfl
      rw [String.toList_ofList]
      exact ⟨rfl, hne, hhead⟩
    · rintro ⟨heq, -, -⟩
      rw [← heq, String.ofList_toList]

theorem Allowed.allowedName?_eq (h : Allowed name) : allowedName? name.toList = some name :=
  allowedName?_eq_some_iff.2 ⟨h.trimmed.symm, h.nonempty, h.noComment⟩

theorem allowed_of_mem {text : String} (hname : name ∈ allowedNames text) : Allowed name := by
  obtain ⟨line, hline, hsome⟩ := List.mem_filterMap.1 hname
  obtain ⟨heq, hne, hhead⟩ := allowedName?_eq_some_iff.1 hsome
  refine ⟨hne, hhead, ?_, fun c hc => ?_⟩
  · rw [heq]
    exact Text.isTrimmed_trim line
  · rw [heq] at hc
    exact Text.isLineEnd_of_mem_lines hline (Text.mem_of_mem_trim hc)

theorem readAllowList_of_file {text : String} (hfile : files path = .file text) :
    readAllowList files path = .ok ((Text.lines (Text.plainNewlines text.toList)).filterMap allowedName?) := by
  unfold readAllowList Files.read
  rw [hfile]
  show Except.ok (allowedNames _) = _
  rw [allowedNames, String.toList_ofList]

theorem exists_readAllowList_iff : (∃ allowed, readAllowList files path = .ok allowed) ↔
    (files path).isAbsent = true ∨ (files path).text? ≠ none := by
  unfold readAllowList Files.read
  cases files path <;> simp [Entry.isAbsent, Entry.text?, Except.map]

theorem allowed_of_readAllowList {allowed : List String} (h : readAllowList files path = .ok allowed) :
    ∀ name ∈ allowed, Allowed name := by
  unfold readAllowList at h
  split at h
  · cases h
    exact List.forall_mem_nil _
  · obtain ⟨text, -, rfl⟩ := exists_of_map_eq_ok h
    exact fun name => allowed_of_mem

theorem Lists.head?_ne (h : Lists names text) (hall : ∀ name ∈ names, Allowed name) : text.head? ≠ some '\n' := by
  have hfirst : ∀ {name : String} (more : List Char), Allowed name → (name.toList ++ more).head? ≠ some '\n' := by
    intro name more ha hhead
    cases hname : name.toList with
    | nil => exact ha.nonempty (String.toList_eq_nil_iff.1 hname)
    | cons c cs =>
      rw [hname] at hhead
      obtain rfl : c = '\n' := Option.some.inj hhead
      have hclear := ha.oneLine '\n' (hname ▸ List.mem_cons_self)
      exact absurd hclear (by decide)
  cases h with
  | nil => exact nofun
  | last name =>
    have hhead := hfirst [] (hall name List.mem_cons_self)
    rwa [List.append_nil] at hhead
  | cons name _ _ => exact hfirst _ (hall name List.mem_cons_self)

theorem Lists.filterMap_lines (h : Lists names text) (hall : ∀ name ∈ names, Allowed name) :
    (Text.lines (Text.plainNewlines text)).filterMap allowedName? = names := by
  induction h with
  | nil => rfl
  | last name =>
    have ha := hall name List.mem_cons_self
    have hplain : Text.plainNewlines (name.toList ++ []) = name.toList ++ [] := Text.plainNewlines_append ha.oneLine
    rw [List.append_nil] at hplain
    have hne : name.toList ≠ [] := fun hnil => ha.nonempty (String.toList_eq_nil_iff.1 hnil)
    rw [hplain, Text.lines_of_clear ha.oneLine hne, List.filterMap_cons_some ha.allowedName?_eq]
    rfl
  | @cons name names ending text hending hrest ih =>
    have ha := hall name List.mem_cons_self
    have htail : ∀ name ∈ names, Allowed name := fun name hname => hall name (List.mem_cons_of_mem _ hname)
    obtain ⟨c, hc, hr, hplain⟩ := hending.exists_plainNewlines (hrest.head?_ne htail)
    rw [Text.plainNewlines_append ha.oneLine, hplain, Text.lines_append ha.oneLine hc hr,
      List.filterMap_cons_some ha.allowedName?_eq, ih htail]

theorem Lists.readAllowList_eq (h : Lists names text) (hall : ∀ name ∈ names, Allowed name)
    (hfile : files path = .file (String.ofList text)) : readAllowList files path = .ok names := by
  rw [readAllowList_of_file hfile, String.toList_ofList, h.filterMap_lines hall]

theorem lists_joinWith (names : List String) : Lists names (Text.joinWith "\n" names).toList := by
  induction names with
  | nil => exact .nil
  | cons name rest ih =>
    cases rest with
    | nil => exact .last name
    | cons next more =>
      have htext : (Text.joinWith "\n" (name :: next :: more)).toList =
          name.toList ++ (['\n'] ++ (Text.joinWith "\n" (next :: more)).toList) := by
        rw [Text.joinWith, String.toList_append, String.toList_append, List.append_assoc]
        · rfl
        · exact nofun
      rw [htext]
      exact .cons name (.single (by decide)) ih

/-! ## The patches -/

theorem Holds.exists_patchedNames (h : Holds files directory patches)
    (hsound : ∀ header ∈ headers directory patches, header.isHidden = false → ∀ fault, ¬ header.Breaks fault) :
    ∃ patched, patchedNames files directory = .ok patched := by
  rw [h.patchedNames_eq, ← tell_filter]
  have hshown : ∀ header ∈ (headers directory patches).filter fun header => !header.isHidden,
      header ∈ headers directory patches ∧ header.isHidden = false := by
    intro header hmem
    simpa using List.mem_filter.1 hmem
  rcases exists_namesOf_or_breaks fun header hmem => headerStart_prefix_of_mem (hshown header hmem).1 with
    ⟨names, hnames⟩ | ⟨good, bad, rest, names, fault, hsplit, -, hbad⟩
  · exact ⟨names, mapError_eq_ok_iff.2 (hnames.tell_eq fun header hmem => (hshown header hmem).2)⟩
  · obtain ⟨hmem, hhidden⟩ := hshown bad (hsplit ▸ List.mem_append_right _ List.mem_cons_self)
    exact absurd hbad (hsound bad hmem hhidden fault)

theorem exists_holds {patched : List String} (h : patchedNames files directory = .ok patched) :
    ∃ patches, Holds files directory patches := by
  unfold patchedNames at h
  split at h
  · cases h
  next hseen =>
    obtain ⟨found, hfound, -⟩ := exists_of_map_eq_ok h
    let names := (files directory).names.filter fun name => patchSuffix.toList.isSuffixOf name.toList
    let text := fun name => ((files (directory.child name)).text?).getD ""
    have hnames : ((sortOn id names).map fun name => (name, text name)).map Prod.fst = sortOn id names := by
      rw [List.map_map]
      exact List.map_id _
    refine ⟨(sortOn id names).map fun name => (name, text name), hseen, ?_, ?_, List.forall_mem_map.2 fun name hname => ?_⟩
    · rw [hnames]
      exact pairwise_sortOn id names
    · rw [hnames]
      exact sortOn_perm id names
    · obtain ⟨told, htold⟩ := mapM_eq_ok_iff.1 ⟨found, hfound⟩ (directory.child name) (List.mem_map_of_mem hname)
      obtain ⟨content, hcontent, -⟩ := exists_of_bind_eq_ok htold
      have htext := Files.read_eq_ok_iff.1 (mapError_eq_ok_iff.1 hcontent)
      dsimp only [text]
      rw [htext]
      rfl

/-- The patches of a directory tell names exactly if the directory can be looked at, each patch is a file with a text, and no header that is looked at is broken. -/
theorem exists_patchedNames_iff : (∃ patched, patchedNames files directory = .ok patched) ↔
    ∃ patches, Holds files directory patches ∧
      ∀ header ∈ headers directory patches, header.isHidden = false → ∀ fault, ¬ header.Breaks fault := by
  constructor
  · rintro ⟨patched, h⟩
    obtain ⟨patches, hholds⟩ := exists_holds h
    refine ⟨patches, hholds, fun header hmem hhidden fault hbreaks => ?_⟩
    rw [hholds.patchedNames_eq] at h
    exact names_ne_error_of_tell (mapError_eq_ok_iff.1 h) hmem _ (header.names_of_breaks hbreaks hhidden)
  · rintro ⟨patches, hholds, hsound⟩
    exact hholds.exists_patchedNames hsound

/-! ## The source set -/

/-- The allow-list is read before the patches, and the first that fails is what is wrong with the whole. -/
theorem gather_cases (files : Files) (directory : Path) :
    gather files directory =
      match readAllowList files (directory.child allowListName), patchedNames files directory with
      | .error e, _ => .error (.file e)
      | .ok _, .error e => .error e
      | .ok allowed, .ok patched => .ok (Table.firstBy id (allowed ++ patched)).keys := by
  unfold gather
  cases readAllowList files (directory.child allowListName) with
  | error e => rfl
  | ok allowed => cases patchedNames files directory <;> rfl

/-- **Nothing is lost and nothing repeated.** Take any directory. Its allow-list is read if there is none or if it is a file with a text, and its patches are if they are all files with texts and no header that is looked at is broken. Where one of them is not read, no source set is gathered, and the error is that of the first. Where both are, no name stands in the source set twice, it has exactly the names of the allow-list and those that the patches tell, and they come in the order in which each is met first, the allow-list before the patches. What is read from an allow-list, whatever text it has, are names that can stand on lines of their own, and any list of these can be read; put one a line, they are read again as they were. -/
theorem gather_and_reread :
    (∀ (files : Files) (directory : Path),
      let list := directory.child allowListName
      ((∃ allowed, readAllowList files list = .ok allowed) ↔
        (files list).isAbsent = true ∨ (files list).text? ≠ none) ∧
      ((∃ patched, patchedNames files directory = .ok patched) ↔ ∃ patches, Holds files directory patches ∧
        ∀ header ∈ headers directory patches, header.isHidden = false → ∀ fault, ¬ header.Breaks fault) ∧
      (∀ e, readAllowList files list = .error e → gather files directory = .error (.file e)) ∧
      ∀ allowed, readAllowList files list = .ok allowed →
        (∀ e, patchedNames files directory = .error e → gather files directory = .error e) ∧
        ∀ patched, patchedNames files directory = .ok patched →
          ∃ names, gather files directory = .ok names ∧ names.Nodup ∧
            (∀ name, name ∈ names ↔ name ∈ allowed ∨ name ∈ patched) ∧
            names.Pairwise fun first second =>
              (allowed ++ patched).idxOf first < (allowed ++ patched).idxOf second) ∧
    (∀ names, (∃ (files : Files) (path : Path), readAllowList files path = .ok names) ↔ ∀ name ∈ names, Allowed name) ∧
    ∀ (files : Files) path allowed, readAllowList files path = .ok allowed →
      Lists allowed (Text.joinWith "\n" allowed).toList ∧
      ∀ text (files' : Files) path', Lists allowed text → files' path' = .file (String.ofList text) →
        readAllowList files' path' = .ok allowed := by
  refine ⟨fun files directory => ?_, fun names => ?_, fun files path allowed hallowed => ?_⟩
  · have hcases := gather_cases files directory
    refine ⟨exists_readAllowList_iff, exists_patchedNames_iff, fun e he => ?_, fun allowed hallowed => ⟨fun e he => ?_, ?_⟩⟩
    · rwa [he] at hcases
    · rwa [hallowed, he] at hcases
    · intro patched hpatched
      rw [hallowed, hpatched] at hcases
      refine ⟨_, hcases, Table.nodup_keys_firstBy id (allowed ++ patched), fun name => ?_, ?_⟩
      · rw [Table.mem_keys_firstBy, ← List.mem_append]
        simp
      · simpa using Table.pairwise_keys_firstBy id (allowed ++ patched)
  · constructor
    · rintro ⟨files, path, h⟩
      exact allowed_of_readAllowList h
    · intro hall
      exact ⟨fun _ => .file (String.ofList _), {}, (lists_joinWith names).readAllowList_eq hall rfl⟩
  · refine ⟨lists_joinWith _, fun text files' path' hlists hfile => ?_⟩
    exact hlists.readAllowList_eq (allowed_of_readAllowList hallowed) hfile

/-- The second patch changes a type that the allow-list has too, and one that the first changes. -/
def playerPatches : List (String × String) :=
  [("1.patch", "diff --git a/Player.cs b/x\ndiff --git a/null b/x\n"),
   ("2.patch", "diff --git a/World.cs b/x\ndiff --git a/Player.cs b/x\n")]

/-- An allow-list whose lines end in four ways, with a name that it repeats. -/
def playerList : String := "# old\r\n\u3000World\t\rShop\u2028\n#Disabled\n World "

def playerTree : FileTree :=
  { files := ([allowListName], playerList) :: (treeOf playerPatches).files }

/-- The same with a directory in the place of the allow-list. -/
def playerTreeBlocked : FileTree :=
  { files := (treeOf playerPatches).files, directories := [[allowListName]] }

theorem gather_and_reread_player :
    Holds playerTree.view {} playerPatches ∧
    (∀ header ∈ headers {} playerPatches, header.isHidden = false → ∀ fault, ¬ header.Breaks fault) ∧
    patchedNames playerTree.view {} = .ok ["Player", "World", "Player"] ∧
    readAllowList playerTree.view (({} : Path).child allowListName) = .ok ["World", "Shop", "World"] ∧
    gather playerTree.view {} = .ok ["World", "Shop", "Player"] ∧
    (["World", "Shop", "Player"].Pairwise fun first second =>
      ["World", "Shop", "World", "Player", "World", "Player"].idxOf first <
        ["World", "Shop", "World", "Player", "World", "Player"].idxOf second) ∧
    readAllowList (fun _ => .file "World\u2028Shop\r\nWorld") {} = .ok ["World", "Shop", "World"] ∧
    gather playerTreeBlocked.view {} = .error (.file (.refused .directory { names := [allowListName] })) := by
  have hholds : Holds playerTree.view {} playerPatches := by constructor <;> decide
  have hsound : ∀ header ∈ headers {} playerPatches, header.isHidden = false → ∀ fault, ¬ header.Breaks fault := by
    intro header hmem hhidden fault hbreaks
    have hnames : ∀ header ∈ headers {} playerPatches, header.names.toOption ≠ none := by decide
    exact hnames header hmem (by rw [header.names_of_breaks hbreaks hhidden]; rfl)
  have hlist : readAllowList playerTree.view (({} : Path).child allowListName) = .ok ["World", "Shop", "World"] := by
    decide
  have htell : patchedNames playerTree.view {} = .ok ["Player", "World", "Player"] := by
    rw [hholds.patchedNames_eq]
    decide
  have hvalue : gather playerTree.view {} = .ok ["World", "Shop", "Player"] := by
    rw [gather_cases, hlist, htell]
    decide
  have hlists : Lists ["World", "Shop", "World"] "World\u2028Shop\r\nWorld".toList :=
    .cons "World" (.single (c := '\u2028') (by decide)) (.cons "Shop" .pair (.last "World"))
  have hblocked : readAllowList playerTreeBlocked.view (({} : Path).child allowListName) =
      .error (.refused .directory { names := [allowListName] }) := by decide
  obtain ⟨hgather, -, hreread⟩ := gather_and_reread
  obtain ⟨-, -, -, hread⟩ := hgather playerTree.view {}
  obtain ⟨names, hnames, -, -, horder⟩ := (hread _ hlist).2 _ htell
  obtain rfl := Except.ok.inj (hvalue.symm.trans hnames)
  obtain ⟨-, hagain⟩ := hreread playerTree.view _ _ hlist
  obtain ⟨-, -, hfails, -⟩ := hgather playerTreeBlocked.view {}
  exact ⟨hholds, hsound, htell, hlist, hvalue, horder, hagain _ _ _ hlists (by rw [String.ofList_toList]),
    hfails _ hblocked⟩

end SourceSet

end StubClosure
