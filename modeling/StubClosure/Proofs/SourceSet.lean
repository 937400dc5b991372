import Mathlib.Data.List.Basic
import StubClosure.Proofs.Except
import StubClosure.SourceSet

/-!
# What the headers of patches tell

A patch names each file that it changes in a header of its own. `headers` lists these lines over all patches of a directory, with the places where they stand, and `NamesOf` says which names they tell: the name in front of the suffix for a file that was there before, nothing for a new one. A header that names no source file breaks the whole.

`Header.isHidden` picks out the headers that go unread although they do not stand for a new file: their file only begins like the name that stands for none. What is found is what the other headers tell, or the first of them that is broken; so if all headers are sound, all names are found exactly if no header is hidden.
-/

namespace StubClosure

namespace SourceSet

/-- A line that begins as headers do, with the patch and the number of the line. -/
structure Header where
  patch : Path
  line : Nat
  text : List Char
  deriving DecidableEq, Repr

namespace Header

/-- The file of a header is what stands before the first space. -/
def Names (h : Header) (file : List Char) : Prop :=
  ' ' ∉ file ∧ ∃ more, h.text = headerStart ++ (file ++ ' ' :: more)

/-- The header of a file that was not there before. -/
def IsNew (h : Header) : Prop := h.Names noFile

/-- The header of the file of a type. -/
def Changes (h : Header) (name : String) : Prop := name ≠ "" ∧ h.Names (name.toList ++ sourceSuffix)

/-- A header that names no file, or one that is neither new nor that of a type. -/
inductive Breaks (h : Header) : HeaderFault → Prop where
  | noSpace {file : List Char} : ' ' ∉ file → h.text = headerStart ++ file → Breaks h .noSpace
  | notSource {file : List Char} : h.Names file → file ≠ noFile →
      (∀ name, name ≠ [] → file ≠ name ++ sourceSuffix) → Breaks h .notSource

/-- What is reported of a broken header. -/
def fail (h : Header) (fault : HeaderFault) : PatchError :=
  { fault, header := String.ofList h.text, patch := h.patch, line := h.line }

/-- Begins like the header of a new file but goes on. -/
def isHidden (h : Header) : Bool :=
  (headerStart ++ noFile).isPrefixOf h.text && (h.text.drop (headerStart ++ noFile).length).head? != some ' '

/-- What a header tells by itself. -/
def names (h : Header) : Except PatchError (List String) :=
  if isHeader h.text then
    match headerName h.text with
    | .error fault => .error (h.fail fault)
    | .ok name => .ok [name]
  else .ok []

end Header

/-- The headers among the lines of a patch, which are counted from a number on. -/
def headersFrom (patch : Path) (number : Nat) (lines : List (List Char)) : List Header :=
  (lines.zipIdx number).filterMap fun (text, line) =>
    if headerStart.isPrefixOf text then some { patch, line, text } else none

/-- The headers of patches, in the order of the patches and of their lines. -/
def headers (directory : Path) (patches : List (String × String)) : List Header :=
  patches.flatMap fun (name, text) => headersFrom (directory.child name) 1 (Text.lines text.toList)

/-- The headers are sound, and tell these names. -/
inductive NamesOf : List Header → List String → Prop where
  | nil : NamesOf [] []
  | new {h : Header} {rest : List Header} {names : List String} :
      h.IsNew → NamesOf rest names → NamesOf (h :: rest) names
  | changed {h : Header} {name : String} {rest : List Header} {names : List String} :
      h.Changes name → NamesOf rest names → NamesOf (h :: rest) (name :: names)

/-- The patches in a directory are these, each a file with its text and in the order of their names. -/
structure Holds (files : Files) (directory : Path) (patches : List (String × String)) : Prop where
  seen : files directory ≠ .tooLong
  sorted : (patches.map Prod.fst).Pairwise (· ≤ ·)
  names : (patches.map Prod.fst).Perm
    ((files directory).names.filter fun name => patchSuffix.toList.isSuffixOf name.toList)
  texts : ∀ patch ∈ patches, (files (directory.child patch.1)).text? = some patch.2

/-! ## One header -/

namespace Header

variable {h : Header} {file : List Char} {name : String} {fault : HeaderFault}

theorem isHeader_eq_false_iff : isHeader (headerStart ++ file) = false ↔ noFile <+: file := by
  have hstart : headerStart.isPrefixOf (headerStart ++ file) = true :=
    List.isPrefixOf_iff_prefix.2 (List.prefix_append _ _)
  unfold isHeader
  rw [hstart, Bool.true_and, Bool.not_eq_false', List.isPrefixOf_iff_prefix, List.prefix_append_right_inj]

theorem isHidden_eq_true_iff (ht : h.text = headerStart ++ file) :
    h.isHidden = true ↔ ∃ more, file = noFile ++ more ∧ more.head? ≠ some ' ' := by
  have hprefix : (headerStart ++ noFile).isPrefixOf h.text = true ↔ noFile <+: file := by
    rw [List.isPrefixOf_iff_prefix, ht, List.prefix_append_right_inj]
  unfold isHidden
  rw [Bool.and_eq_true, hprefix, bne_iff_ne, ht, List.length_append, ← List.drop_drop, List.drop_left]
  constructor
  · rintro ⟨⟨more, rfl⟩, hmore⟩
    rw [List.drop_left] at hmore
    exact ⟨more, rfl, hmore⟩
  · rintro ⟨more, rfl, hmore⟩
    rw [List.drop_left]
    exact ⟨List.prefix_append _ _, hmore⟩

theorem not_isHidden_of_isNew (hn : h.IsNew) : h.isHidden = false := by
  obtain ⟨-, more, ht⟩ := hn
  rw [Bool.eq_false_iff, ne_eq, isHidden_eq_true_iff ht]
  rintro ⟨other, heq, hother⟩
  rw [← List.append_cancel_left heq] at hother
  exact hother rfl

theorem isHeader_of_names (hf : h.Names file) (hne : file ≠ noFile) (hh : h.isHidden = false) :
    isHeader h.text = true := by
  obtain ⟨hspace, more, ht⟩ := hf
  rw [ht, ← Bool.not_eq_false, isHeader_eq_false_iff]
  rintro ⟨other, hother⟩
  rw [Bool.eq_false_iff, ne_eq, isHidden_eq_true_iff ht] at hh
  refine hh ⟨other, hother.symm, ?_⟩
  intro hhead
  cases other with
  | nil => cases hhead
  | cons c tail =>
    obtain rfl : c = ' ' := Option.some.inj hhead
    -- both texts are cut at their first space
    have hnull : ' ' ∉ noFile := by decide
    have hcut := congrArg (List.takeWhile (· ≠ ' ')) hother
    rw [List.takeWhile_append_of_pos (by simpa using fun c hc => ne_of_mem_of_not_mem hc hnull),
      List.takeWhile_append_of_pos (by simpa using fun c hc => ne_of_mem_of_not_mem hc hspace)] at hcut
    exact hne (by simpa using hcut.symm)

theorem headerName_of_names (hf : h.Names file) :
    headerName h.text =
      if sourceSuffix.isSuffixOf file ∧ sourceSuffix.length < file.length then
        .ok (String.ofList (file.take (file.length - sourceSuffix.length)))
      else .error .notSource := by
  obtain ⟨hspace, more, ht⟩ := hf
  have hfile : (file ++ ' ' :: more).takeWhile (· ≠ ' ') = file := by
    rw [List.takeWhile_append_of_pos (by simpa using fun c hc => ne_of_mem_of_not_mem hc hspace)]
    simp
  unfold headerName
  dsimp only
  rw [ht, List.drop_left, if_neg (not_not_intro (List.mem_append_right _ List.mem_cons_self)), hfile]

theorem names_of_isNew (hn : h.IsNew) : h.names = .ok [] := by
  obtain ⟨-, more, ht⟩ := hn
  have hheader : isHeader h.text = false := by
    rw [ht, isHeader_eq_false_iff]
    exact List.prefix_append _ _
  unfold names
  rw [hheader]
  rfl

theorem names_of_isHidden (hh : h.isHidden = true) : h.names = .ok [] := by
  have hheader : isHeader h.text = false := by
    obtain ⟨hnull, -⟩ := Bool.and_eq_true_iff.1 hh
    unfold isHeader
    rw [hnull, Bool.not_true, Bool.and_false]
  unfold names
  rw [hheader]
  rfl

theorem ne_noFile_of_changes (name : List Char) : name ++ sourceSuffix ≠ noFile := by
  intro heq
  have hlast : sourceSuffix.getLast? = noFile.getLast? := by
    rw [← heq, List.getLast?_append]
    rfl
  exact absurd hlast (by decide)

theorem names_of_changes (hc : h.Changes name) (hh : h.isHidden = false) : h.names = .ok [name] := by
  obtain ⟨hname, hf⟩ := hc
  have hpos : 0 < name.toList.length := by
    rw [List.length_pos_iff, ne_eq, String.toList_eq_nil_iff]
    exact hname
  have hheader := isHeader_of_names hf (ne_noFile_of_changes _) hh
  have hsource : headerName h.text = .ok name := by
    rw [headerName_of_names hf, if_pos]
    · rw [List.length_append, Nat.add_sub_cancel, List.take_left, String.ofList_toList]
    · refine ⟨List.isSuffixOf_iff_suffix.2 (List.suffix_append _ _), ?_⟩
      rw [List.length_append]
      omega
  unfold names
  rw [if_pos hheader, hsource]

theorem names_of_breaks (hb : h.Breaks fault) (hh : h.isHidden = false) : h.names = .error (h.fail fault) := by
  cases hb with
  | @noSpace file hspace ht =>
    have hheader : isHeader h.text = true := by
      rw [ht, ← Bool.not_eq_false, isHeader_eq_false_iff]
      rintro ⟨more, rfl⟩
      rw [Bool.eq_false_iff, ne_eq, isHidden_eq_true_iff ht] at hh
      refine hh ⟨more, rfl, fun hhead => hspace (List.mem_append_right _ (List.mem_of_head? hhead))⟩
    have hsource : headerName h.text = .error .noSpace := by
      unfold headerName
      dsimp only
      rw [ht, List.drop_left, if_pos hspace]
    unfold names
    rw [if_pos hheader, hsource]
  | @notSource file hf hnew hother =>
    have hheader := isHeader_of_names hf hnew hh
    have hsource : headerName h.text = .error .notSource := by
      rw [headerName_of_names hf, if_neg]
      rintro ⟨hsuffix, hlong⟩
      obtain ⟨before, rfl⟩ := List.isSuffixOf_iff_suffix.1 hsuffix
      refine hother before ?_ rfl
      rintro rfl
      exact absurd hlong (Nat.lt_irrefl _)
    unfold names
    rw [if_pos hheader, hsource]

/-- Every header that begins as it should is new, that of a type, or broken. -/
theorem isNew_or_changes_or_breaks (ht : headerStart <+: h.text) :
    h.IsNew ∨ (∃ name, h.Changes name) ∨ ∃ fault, h.Breaks fault := by
  obtain ⟨rest, hrest⟩ := ht
  by_cases hspace : ' ' ∈ rest
  · obtain ⟨file, more, heq, hfile⟩ := List.eq_append_cons_of_mem hspace
    have hf : h.Names file := ⟨hfile, more, by rw [← hrest, heq]⟩
    by_cases hnew : file = noFile
    · subst hnew
      exact .inl hf
    by_cases hsource : ∃ name, name ≠ [] ∧ file = name ++ sourceSuffix
    · obtain ⟨name, hname, rfl⟩ := hsource
      refine .inr (.inl ⟨String.ofList name, ?_, ?_⟩)
      · rw [ne_eq, ← String.toList_eq_nil_iff, String.toList_ofList]
        exact hname
      · rw [String.toList_ofList]
        exact hf
    · exact .inr (.inr ⟨_, .notSource hf hnew fun name hname heq => hsource ⟨name, hname, heq⟩⟩)
  · exact .inr (.inr ⟨_, .noSpace hspace hrest.symm⟩)

end Header

/-! ## All headers -/

/-- What headers tell one after the other. -/
def tell : List Header → Except PatchError (List String)
  | [] => .ok []
  | h :: rest =>
    match h.names with
    | .error e => .error e
    | .ok names => (tell rest).map (names ++ ·)

theorem tell_append (first second : List Header) :
    tell (first ++ second) =
      match tell first with
      | .error e => .error e
      | .ok names => (tell second).map (names ++ ·) := by
  induction first with
  | nil =>
    rw [List.nil_append, tell]
    cases tell second <;> rfl
  | cons h rest ih =>
    rw [List.cons_append, tell, tell, ih]
    cases h.names with
    | error e => rfl
    | ok names =>
      cases tell rest with
      | error e => rfl
      | ok others =>
        cases tell second with
        | error e => rfl
        | ok last => exact congrArg Except.ok (List.append_assoc names others last).symm

theorem tell_filter (all : List Header) : tell (all.filter fun h => !h.isHidden) = tell all := by
  induction all with
  | nil => rfl
  | cons h rest ih =>
    cases hh : h.isHidden with
    | false =>
      rw [List.filter_cons_of_pos (by rw [hh]; rfl), tell, tell, ih]
    | true =>
      rw [List.filter_cons_of_neg (by rw [hh]; exact Bool.false_ne_true), tell, h.names_of_isHidden hh, ih]
      cases tell rest <;> rfl

variable {all good rest : List Header} {names : List String}

theorem names_ne_error_of_tell (h : tell all = .ok names) {header : Header} (hmem : header ∈ all) (e : PatchError) :
    header.names ≠ .error e := by
  induction all generalizing names with
  | nil => cases hmem
  | cons first rest ih =>
    rw [tell] at h
    cases hfirst : first.names with
    | error e' =>
      rw [hfirst] at h
      cases h
    | ok own =>
      rw [hfirst] at h
      rcases List.mem_cons.1 hmem with rfl | hmem
      · rw [hfirst]
        exact nofun
      · obtain ⟨others, hothers, -⟩ := exists_of_map_eq_ok h
        exact ih hothers hmem

theorem NamesOf.exists_tell (hn : NamesOf all names) :
    ∃ found, tell all = .ok found ∧ found.length + all.countP Header.isHidden = names.length ∧
      ((∀ h ∈ all, h.isHidden = false) → found = names) := by
  induction hn with
  | nil => exact ⟨[], rfl, rfl, fun _ => rfl⟩
  | @new h rest names hnew _ ih =>
    obtain ⟨found, htell, hcount, heq⟩ := ih
    refine ⟨found, ?_, ?_, fun hall => heq fun other hother => hall other (List.mem_cons_of_mem _ hother)⟩
    · rw [tell, h.names_of_isNew hnew, htell]
      rfl
    · rw [List.countP_cons_of_neg (by rw [h.not_isHidden_of_isNew hnew]; exact Bool.false_ne_true), hcount]
  | @changed h name rest names hchanges _ ih =>
    obtain ⟨found, htell, hcount, heq⟩ := ih
    cases hh : h.isHidden with
    | true =>
      refine ⟨found, ?_, ?_, fun hall => ?_⟩
      · rw [tell, h.names_of_isHidden hh, htell]
        rfl
      · rw [List.countP_cons_of_pos hh, List.length_cons, ← hcount]
        rfl
      · rw [hall h List.mem_cons_self] at hh
        cases hh
    | false =>
      refine ⟨name :: found, ?_, ?_, fun hall => ?_⟩
      · rw [tell, h.names_of_changes hchanges hh, htell]
        rfl
      · rw [List.countP_cons_of_neg (by rw [hh]; exact Bool.false_ne_true), List.length_cons, List.length_cons, ← hcount]
        omega
      · rw [heq fun other hother => hall other (List.mem_cons_of_mem _ hother)]

theorem NamesOf.tell_eq (hn : NamesOf all names) (hh : ∀ h ∈ all, h.isHidden = false) : tell all = .ok names := by
  obtain ⟨found, htell, -, heq⟩ := hn.exists_tell
  rw [htell, heq hh]

theorem NamesOf.tell_append_cons {bad : Header} {fault : HeaderFault} (hn : NamesOf good names) (hb : bad.Breaks fault)
    (hh : bad.isHidden = false) : tell (good ++ bad :: rest) = .error (bad.fail fault) := by
  obtain ⟨found, htell, -, -⟩ := hn.exists_tell
  rw [tell_append, htell, tell, bad.names_of_breaks hb hh]
  rfl

/-- Headers that begin as they should are all sound, or there is a first that is broken. -/
theorem exists_namesOf_or_breaks (hall : ∀ h ∈ all, headerStart <+: h.text) :
    (∃ names, NamesOf all names) ∨
      ∃ good bad rest names fault, all = good ++ bad :: rest ∧ NamesOf good names ∧ bad.Breaks fault := by
  induction all with
  | nil => exact .inl ⟨[], .nil⟩
  | cons h rest ih =>
    rcases h.isNew_or_changes_or_breaks (hall h List.mem_cons_self) with hnew | ⟨name, hname⟩ | ⟨fault, hfault⟩
    next =>
      rcases ih fun other hother => hall other (List.mem_cons_of_mem _ hother) with
        ⟨names, hn⟩ | ⟨good, bad, last, names, fault, rfl, hgood, hbad⟩
      · exact .inl ⟨names, .new hnew hn⟩
      · exact .inr ⟨h :: good, bad, last, names, fault, rfl, .new hnew hgood, hbad⟩
    next =>
      rcases ih fun other hother => hall other (List.mem_cons_of_mem _ hother) with
        ⟨names, hn⟩ | ⟨good, bad, last, names, fault, rfl, hgood, hbad⟩
      · exact .inl ⟨name :: names, .changed hname hn⟩
      · exact .inr ⟨h :: good, bad, last, name :: names, fault, rfl, .changed hname hgood, hbad⟩
    next => exact .inr ⟨[], h, rest, [], fault, rfl, .nil, hfault⟩

/-! ## Patches and directories -/

/-- A patch is read header by header. -/
theorem namesFrom_eq_tell (patch : Path) (number : Nat) (lines : List (List Char)) :
    namesFrom patch number lines = tell (headersFrom patch number lines) := by
  induction lines generalizing number with
  | nil => rfl
  | cons line rest ih =>
    have hcons : headersFrom patch number (line :: rest) =
        (if headerStart.isPrefixOf line then [⟨patch, number, line⟩] else []) ++ headersFrom patch (number + 1) rest := by
      unfold headersFrom
      rw [List.zipIdx_cons, List.filterMap_cons]
      dsimp only
      by_cases hstart : headerStart.isPrefixOf line
      · rw [if_pos hstart, if_pos hstart]
        rfl
      · rw [if_neg hstart, if_neg hstart]
        rfl
    rw [namesFrom, hcons, ih]
    split
    next hheader =>
      have hstart := (Bool.and_eq_true_iff.1 hheader).1
      rw [if_pos hstart, List.singleton_append, tell, Header.names, if_pos hheader]
      dsimp only
      cases headerName line <;> rfl
    next hheader =>
      split
      · rw [List.singleton_append, tell, Header.names, if_neg hheader]
        cases tell (headersFrom patch (number + 1) rest) <;> rfl
      · rfl

variable {files : Files} {directory : Path} {patches : List (String × String)}

theorem mapM_readPatch (htexts : ∀ patch ∈ patches, (files (directory.child patch.1)).text? = some patch.2) :
    ((patches.map fun patch => directory.child patch.1).mapM (readPatch files)).map List.flatten =
      (tell (headers directory patches)).mapError .patch := by
  induction patches with
  | nil => rfl
  | cons patch rest ih =>
    obtain ⟨name, text⟩ := patch
    have hheaders : headers directory ((name, text) :: rest) =
        headersFrom (directory.child name) 1 (Text.lines text.toList) ++ headers directory rest := List.flatMap_cons ..
    have hread : readPatch files (directory.child name) =
        (namesFrom (directory.child name) 1 (Text.lines text.toList)).mapError .patch := by
      unfold readPatch
      rw [Files.read_eq_ok_iff.2 (htexts (name, text) List.mem_cons_self)]
      rfl
    have hrest := ih fun other ho => htexts other (List.mem_cons_of_mem _ ho)
    rw [hheaders, tell_append, ← namesFrom_eq_tell, List.map_cons, List.mapM_cons, hread]
    cases namesFrom (directory.child name) 1 (Text.lines text.toList) with
    | error e => rfl
    | ok names =>
      calc
        _ = (((rest.map fun patch => directory.child patch.1).mapM (readPatch files)).map List.flatten).map (names ++ ·) := by
          cases (rest.map fun patch => directory.child patch.1).mapM (readPatch files) <;> rfl
        _ = ((tell (headers directory rest)).mapError .patch).map (names ++ ·) := by rw [hrest]
        _ = _ := by cases tell (headers directory rest) <;> rfl

theorem Holds.patchFiles_eq (h : Holds files directory patches) :
    patchFiles files directory = patches.map fun patch => directory.child patch.1 := by
  have hsort : sortOn id ((files directory).names.filter fun name => patchSuffix.toList.isSuffixOf name.toList) =
      patches.map Prod.fst := by
    rw [← @sortOn_congr _ id _ _ h.names fun _ _ _ _ heq => heq]
    exact sortOn_of_pairwise h.sorted
  unfold patchFiles
  dsimp only
  rw [hsort, List.map_map]
  rfl

theorem Holds.patchedNames_eq (h : Holds files directory patches) :
    patchedNames files directory = (tell (headers directory patches)).mapError .patch := by
  unfold patchedNames
  rw [if_neg h.seen, h.patchFiles_eq]
  exact mapM_readPatch h.texts

theorem headerStart_prefix_of_mem {h : Header} (hh : h ∈ headers directory patches) : headerStart <+: h.text := by
  obtain ⟨patch, -, hmem⟩ := List.mem_flatMap.1 hh
  obtain ⟨⟨text, line⟩, -, hsome⟩ := List.mem_filterMap.1 hmem
  dsimp only at hsome
  split at hsome
  next hstart =>
    obtain rfl := Option.some.inj hsome
    exact List.isPrefixOf_iff_prefix.1 hstart
  · cases hsome

/-- **What patches tell.** Leave out the headers that are hidden. The others are all sound, and then what is found are exactly the names that they tell, over the patches by name and the lines in order, with repetitions; or there is a first that is broken, and then that one is reported, with its patch and line. So if all headers are sound their names are found exactly if none is hidden, and a broken header behind sound ones is reported if it is not hidden itself. -/
theorem patchedNames_of_holds (h : Holds files directory patches) :
    let all := headers directory patches
    let shown := all.filter fun header => !header.isHidden
    ((∃ names, NamesOf shown names) ∨
      ∃ good bad rest names fault, shown = good ++ bad :: rest ∧ NamesOf good names ∧ bad.Breaks fault) ∧
    (∀ names, NamesOf shown names → patchedNames files directory = .ok names) ∧
    (∀ good bad rest names fault, shown = good ++ bad :: rest → NamesOf good names → bad.Breaks fault →
      patchedNames files directory = .error (.patch (bad.fail fault))) ∧
    (∀ names, NamesOf all names →
      (patchedNames files directory = .ok names ↔ ∀ header ∈ all, header.isHidden = false)) ∧
    (∀ good bad rest names fault, all = good ++ bad :: rest → NamesOf good names → bad.Breaks fault →
      bad.isHidden = false → patchedNames files directory = .error (.patch (bad.fail fault))) := by
  intro all shown
  have hall : patchedNames files directory = (tell all).mapError .patch := h.patchedNames_eq
  have hshown : patchedNames files directory = (tell shown).mapError .patch := by rw [hall, ← tell_filter]
  have hhidden : ∀ header ∈ shown, header.isHidden = false := by
    intro header hmem
    simpa using (List.mem_filter.1 hmem).2
  refine ⟨exists_namesOf_or_breaks ?_, ?_, ?_, ?_, ?_⟩
  · intro header hmem
    exact headerStart_prefix_of_mem (List.mem_filter.1 hmem).1
  · intro names hn
    rw [hshown, hn.tell_eq hhidden]
    rfl
  · intro good bad rest names fault hsplit hn hb
    have hbad : bad ∈ shown := hsplit ▸ List.mem_append_right _ List.mem_cons_self
    rw [hshown, hsplit, hn.tell_append_cons hb (hhidden bad hbad)]
    rfl
  · intro names hn
    obtain ⟨found, htell, hcount, heq⟩ := hn.exists_tell
    rw [hall, htell]
    constructor
    · rintro hfound header hmem
      obtain rfl := Except.ok.inj hfound
      have hzero : all.countP Header.isHidden = 0 := by omega
      simpa using List.countP_eq_zero.1 hzero header hmem
    · intro hnone
      rw [heq hnone]
      rfl
  · intro good bad rest names fault hsplit hn hb hh
    rw [hall, hsplit, hn.tell_append_cons hb hh]
    rfl

/-- The first patch creates a file and changes one. The second changes a file whose name begins like that of no file, and one more. -/
def nullablePatches : List (String × String) :=
  [("0001.patch", "diff --git a/null b/New.cs\ndiff --git a/A.B.cs b/A.B.cs\n"),
   ("0002.patch", "diff --git a/nullable.cs b/nullable.cs\n+x\ndiff --git a/C.cs b/C.cs\n")]

/-- The same with a file that belongs to no type. -/
def readmePatches : List (String × String) :=
  nullablePatches ++ [("0003.patch", "From x\ndiff --git a/readme b/readme\n")]

/-- A directory that lists its patches backwards. -/
def treeOf (patches : List (String × String)) : FileTree := { files := patches.reverse.map fun patch => ([patch.1], patch.2) }

theorem holds_nullable : Holds (treeOf nullablePatches).view {} nullablePatches := by
  constructor <;> decide +kernel

theorem holds_readme : Holds (treeOf readmePatches).view {} readmePatches := by
  constructor <;> decide +kernel

theorem changes_of_eq {h : Header} {name : String} (more : List Char) (hname : name ≠ "")
    (ht : ' ' ∉ name.toList ++ sourceSuffix ∧ h.text = headerStart ++ (name.toList ++ sourceSuffix ++ ' ' :: more)) :
    h.Changes name :=
  ⟨hname, ht.1, more, ht.2⟩

theorem patchedNames_of_holds_nullable :
    Holds (treeOf nullablePatches).view {} nullablePatches ∧
    NamesOf (headers {} nullablePatches) ["A.B", "nullable", "C"] ∧
    patchedNames (treeOf nullablePatches).view {} ≠ .ok ["A.B", "nullable", "C"] ∧
    patchedNames (treeOf nullablePatches).view {} = .ok ["A.B", "C"] ∧
    Holds (treeOf readmePatches).view {} readmePatches ∧
    patchedNames (treeOf readmePatches).view {} = .error (.patch
      { fault := .notSource, header := "diff --git a/readme b/readme", patch := { names := ["0003.patch"] }, line := 2 }) := by
  have hnew : (⟨{ names := ["0001.patch"] }, 1, "diff --git a/null b/New.cs".toList⟩ : Header).IsNew :=
    ⟨by decide, "b/New.cs".toList, by decide⟩
  have hfirst : (⟨{ names := ["0001.patch"] }, 2, "diff --git a/A.B.cs b/A.B.cs".toList⟩ : Header).Changes "A.B" :=
    changes_of_eq "b/A.B.cs".toList (by decide) (by decide)
  have hlost : (⟨{ names := ["0002.patch"] }, 1, "diff --git a/nullable.cs b/nullable.cs".toList⟩ : Header).Changes "nullable" :=
    changes_of_eq "b/nullable.cs".toList (by decide) (by decide)
  have hlast : (⟨{ names := ["0002.patch"] }, 3, "diff --git a/C.cs b/C.cs".toList⟩ : Header).Changes "C" :=
    changes_of_eq "b/C.cs".toList (by decide) (by decide)
  have hall : NamesOf (headers {} nullablePatches) ["A.B", "nullable", "C"] :=
    .new hnew (.changed hfirst (.changed hlost (.changed hlast .nil)))
  have hsound := NamesOf.new hnew (.changed hfirst (.changed hlast .nil))
  have hbad : (⟨{ names := ["0003.patch"] }, 2, "diff --git a/readme b/readme".toList⟩ : Header).Breaks .notSource := by
    have hnames : (⟨{ names := ["0003.patch"] }, 2, "diff --git a/readme b/readme".toList⟩ : Header).Names "readme".toList :=
      ⟨by decide, "b/readme".toList, by decide⟩
    refine .notSource hnames (by decide) ?_
    rintro name - heq
    have hlast : "readme".toList.getLast? = sourceSuffix.getLast? := by
      rw [heq, List.getLast?_append]
      rfl
    exact absurd hlast (by decide)
  obtain ⟨-, hshown, -, hiff, -⟩ := patchedNames_of_holds holds_nullable
  obtain ⟨-, -, hbroken, -, -⟩ := patchedNames_of_holds holds_readme
  refine ⟨holds_nullable, hall, ?_, hshown _ hsound, holds_readme, hbroken _ _ [] _ _ rfl hsound hbad⟩
  rw [ne_eq, hiff _ hall]
  decide

end SourceSet

end StubClosure
