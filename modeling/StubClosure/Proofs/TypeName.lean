import Mathlib.Data.List.DropRight
import StubClosure.Proofs.Numeral
import StubClosure.Proofs.Program.Naming

/-!
# Type names in writing

A text is the name of a type if nothing in it is left empty: no blank at either end, no slash beside another or at the end, a name before the first slash that does not end in its dot (`IsTypeName`). Apart from arities that cannot be read nothing else is asked for. The full name of what was read is the text again unless the text writes an arity or the namespace in a way of its own: an arity as zero or with zeros in front, a dot before a name without a namespace. A slash and one more simple name make the name of a nested type (`parse_nested`).
-/

namespace StubClosure

namespace Text

variable {separator : Char} {cs : List Char}

/-! ## Cutting at a separator -/

theorem pieces_fst (separator : Char) (cs : List Char) : (pieces separator cs).1 = cs.takeWhile (· ≠ separator) := by
  induction cs with
  | nil => rfl
  | cons c rest ih =>
    rw [pieces, List.takeWhile_cons]
    dsimp only
    by_cases hc : c = separator
    · simp [hc]
    · simp [hc, ih]

theorem join_pieces (separator : Char) (cs : List Char) :
    (pieces separator cs).1 ++ (pieces separator cs).2.flatMap (separator :: ·) = cs := by
  induction cs with
  | nil => rfl
  | cons c rest ih =>
    rw [pieces]
    dsimp only
    split
    next hc => rw [hc, List.nil_append, List.flatMap_cons, List.cons_append, ih]
    · rw [List.cons_append, ih]

theorem pieces_append (separator : Char) (cs more : List Char) : pieces separator (cs ++ separator :: more) =
    ((pieces separator cs).1, (pieces separator cs).2 ++ (pieces separator more).1 :: (pieces separator more).2) := by
  induction cs with
  | nil => simp [pieces]
  | cons c rest ih =>
    rw [List.cons_append, pieces, pieces, ih]
    dsimp only
    split <;> rfl

theorem pieces_fst_eq_nil_iff : (pieces separator cs).1 = [] ↔ cs = [] ∨ cs.head? = some separator := by
  cases cs with
  | nil => simp [pieces]
  | cons c rest =>
    rw [pieces]
    dsimp only
    by_cases hc : c = separator <;> simp [hc]

/-- A piece after the first is empty just if a separator has another, or nothing, behind it. -/
theorem nil_mem_pieces_snd_iff :
    [] ∈ (pieces separator cs).2 ↔ [separator, separator] <:+: cs ∨ cs.getLast? = some separator := by
  induction cs with
  | nil => simp [pieces]
  | cons c rest ih =>
    have hinside : [separator, separator] <:+: c :: rest ↔
        c = separator ∧ rest.head? = some separator ∨ [separator, separator] <:+: rest := by
      rw [List.infix_cons_iff, List.cons_prefix_cons, List.singleton_prefix_iff_head?_eq_some, eq_comm]
    rw [hinside, pieces]
    dsimp only
    cases rest with
    | nil => by_cases hc : c = separator <;> simp [hc, pieces]
    | cons d more =>
      have hlast : (c :: d :: more).getLast? = (d :: more).getLast? := rfl
      rw [hlast]
      by_cases hc : c = separator
      · rw [if_pos hc, List.mem_cons, ih, eq_comm, pieces_fst_eq_nil_iff]
        simp [hc, or_assoc]
      · rw [if_neg hc, ih]
        simp [hc]

theorem isTrimmed_iff :
    IsTrimmed cs ↔ (∀ c ∈ cs.head?, isBlank c = false) ∧ ∀ c ∈ cs.getLast?, isBlank c = false := by
  have hstart : (∀ c ∈ cs.head?, isBlank c = false) ↔ cs.dropWhile isBlank = cs := by
    rw [List.dropWhile_eq_self_iff]
    cases cs <;> simp
  have hstop : (∀ c ∈ cs.getLast?, isBlank c = false) ↔ cs.rdropWhile isBlank = cs := by
    rw [List.rdropWhile_eq_self_iff]
    rcases List.eq_nil_or_concat cs with rfl | ⟨front, c, rfl⟩ <;> simp
  rw [hstart, hstop]
  show (cs.dropWhile isBlank).rdropWhile isBlank = cs ↔ _
  constructor
  · intro h
    have hle : cs.length ≤ (cs.dropWhile isBlank).length := by
      rw [← congrArg List.length h]
      exact (List.rdropWhile_prefix isBlank _).length_le
    have hsame := (List.dropWhile_suffix isBlank).eq_of_length_le hle
    rw [hsame] at h
    exact ⟨hsame, h⟩
  · rintro ⟨hfront, hback⟩
    rw [hfront, hback]

end Text

namespace TypeId

/-! ## What is asked of a name -/

/-- The part of a name that names the outermost type. -/
def headOf (text : String) : List Char := text.toList.takeWhile (· ≠ '/')

/-- The names in a full name, each with its arity, without the namespace: the outermost one first. -/
def simpleNames (text : String) : List (List Char) :=
  (splitSpace (headOf text)).2 :: (Text.pieces '/' text.toList).2

/-- The text is the name of a type, if its arities can be read. -/
structure IsTypeName (text : String) : Prop where
  nonempty : text ≠ ""
  start : ∀ c ∈ text.toList.head?, Text.isBlank c = false
  stop : ∀ c ∈ text.toList.getLast?, Text.isBlank c = false
  noDouble : ¬ ['/', '/'] <:+: text.toList
  noEnd : text.toList.getLast? ≠ some '/'
  named : headOf text ≠ []
  noDot : (headOf text).getLast? ≠ some '.'

/-- The simple name has digits behind its last backtick, and a name before it. -/
def HasArity (simple digits : List Char) : Prop :=
  (∃ name, name ≠ [] ∧ simple = name ++ '\x60' :: digits) ∧ '\x60' ∉ digits ∧ digits ≠ [] ∧
    ∀ c ∈ digits, Text.isDigit c = true

/-- If the simple name has an arity, then it is of ASCII digits, and of no more than can be read. -/
def IsReadable (simple : List Char) : Prop :=
  ∀ digits, HasArity simple digits → (∀ c ∈ digits, c.isDigit = true) ∧ digits.length ≤ Text.maxDigits

/-- If the simple name has an arity, then it does not begin with a zero. -/
def HasNoZero (simple : List Char) : Prop := ∀ digits, HasArity simple digits → digits.head? ≠ some '0'

/-- The name is written as full names are: no arity begins with a zero, and no dot comes before a name without a namespace. -/
def IsInFullForm (text : String) : Prop :=
  (∀ simple ∈ simpleNames text, HasNoZero simple) ∧ ∀ name, headOf text = '.' :: name → '.' ∈ name

variable {text : String} {t outer : TypeId}

/-! ## Simple names -/

theorem splitArity_cases (simple : List Char) :
    (∃ name digits, simple = name ++ '\x60' :: digits ∧ HasArity simple digits ∧ splitArity simple =
      match Arity.read digits with
      | .ok arity => .ok (String.ofList name, arity)
      | .error error => .error (.arity error)) ∨
    splitArity simple = .ok (String.ofList simple, 0) := by
  unfold splitArity
  cases hcut : Text.cutLast? '\x60' simple with
  | none => exact .inr rfl
  | some cut =>
    obtain ⟨name, digits⟩ := cut
    have hsimple := Text.eq_of_cutLast?_eq_some hcut
    dsimp only
    split
    next h =>
      obtain ⟨hname, hdigits, hall⟩ := h
      refine .inl ⟨name, digits, hsimple, ⟨⟨name, hname, hsimple⟩, Text.not_mem_of_cutLast?_eq_some hcut, hdigits, ?_⟩, rfl⟩
      exact List.all_eq_true.1 hall
    · exact .inr rfl

/-- A simple name whose arity can be read is taken apart, and put together again if the arity has no zero in front. -/
theorem exists_splitArity {simple : List Char} (h : IsReadable simple) : ∃ name arity,
    splitArity simple = .ok (name, arity) ∧ (HasNoZero simple → (simpleText name arity).toList = simple) := by
  rcases splitArity_cases simple with ⟨name, digits, hsimple, harity, hsplit⟩ | hsplit
  · obtain ⟨hdigit, hlength⟩ := h digits harity
    have hne := harity.2.2.1
    obtain ⟨count, hread, hcount⟩ := Arity.read_of_ok (Text.readDecimal_of_isDigit hne hdigit hlength)
    rw [hread] at hsplit
    refine ⟨_, _, hsplit, fun hzero => ?_⟩
    have hback := Text.toDigits_valueOf (by decide) (fun c hc => Text.digitChar_digitValue (hdigit c hc)) hne
      (hzero digits harity)
    have hpos : Text.valueOf 10 (digits.map Text.digitValue) ≠ 0 := by
      intro hz
      rw [hz, Nat.toDigits_zero] at hback
      exact hzero digits harity (by rw [← hback]; rfl)
    have htext : count.text.toList = digits := by
      rw [Arity.text, hcount]
      exact Nat.toList_repr.trans hback
    rw [toList_simpleText, if_neg (by rw [hcount]; exact_mod_cast hpos), htext, String.toList_ofList, hsimple]
  · exact ⟨_, _, hsplit, fun _ => String.toList_ofList⟩

theorem HasArity.cutLast?_eq {simple digits : List Char} (h : HasArity simple digits) :
    (Text.cutLast? '\x60' simple).map Prod.snd = some digits := by
  obtain ⟨⟨name, -, rfl⟩, htick, -⟩ := h
  rw [Text.cutLast?_append htick]
  rfl

/-! ## Reading a name -/

theorem hasDoubleSlash_iff (cs : List Char) : hasDoubleSlash cs = true ↔ ['/', '/'] <:+: cs := by
  fun_induction hasDoubleSlash cs with
  | case1 rest => simpa using (List.prefix_append ['/', '/'] rest).isInfix
  | case2 c rest hnot ih =>
    rw [ih, List.infix_cons_iff, or_iff_right]
    rintro ⟨more, hmore⟩
    cases hmore
    exact hnot _ rfl rfl
  | case3 => simp

theorem splitSpace_snd_eq_nil_iff (head : List Char) :
    (splitSpace head).2 = [] ↔ head = [] ∨ head.getLast? = some '.' := by
  unfold splitSpace
  cases hcut : Text.cutLast? '.' head with
  | none =>
    have hdot := Text.cutLast?_eq_none_iff.1 hcut
    rw [Option.getD_none, or_iff_left]
    exact fun hlast => hdot (List.mem_of_getLast? hlast)
  | some cut =>
    obtain ⟨space, simple⟩ := cut
    have hdot := Text.not_mem_of_cutLast?_eq_some hcut
    rw [Text.eq_of_cutLast?_eq_some hcut, Option.getD_some]
    cases simple with
    | nil => simp
    | cons c rest =>
      have hlast : ('.' :: c :: rest).getLast? ≠ some '.' := fun h => hdot (List.mem_of_getLast? h)
      simpa [List.getLast?_append] using hlast

theorem splitSpace_cases (head : List Char) : splitSpace head = ([], head) ∨
    head = (splitSpace head).1 ++ '.' :: (splitSpace head).2 ∧ '.' ∉ (splitSpace head).2 := by
  unfold splitSpace
  cases hcut : Text.cutLast? '.' head with
  | none => exact .inl rfl
  | some cut => exact .inr ⟨Text.eq_of_cutLast?_eq_some hcut, Text.not_mem_of_cutLast?_eq_some hcut⟩

theorem nestAll_eq {parts : List (List Char)} (h : [] ∉ parts) :
    nestAll text outer parts = parts.foldlM nest outer := by
  induction parts generalizing outer with
  | nil => rfl
  | cons part rest ih =>
    rw [List.mem_cons, not_or] at h
    rw [nestAll, if_neg (Ne.symm h.1), List.foldlM_cons]
    exact bind_congr fun next => ih h.2

theorem IsTypeName.nil_not_mem (h : IsTypeName text) : [] ∉ (Text.pieces '/' text.toList).2 := by
  rw [Text.nil_mem_pieces_snd_iff]
  exact not_or.2 ⟨h.noDouble, h.noEnd⟩

/-- **Reading the name of a type**: the outermost type, and then those nested in it, one after the other. -/
theorem IsTypeName.parse_eq (h : IsTypeName text) : parse text = splitArity (splitSpace (headOf text)).2 >>= fun cut =>
    (Text.pieces '/' text.toList).2.foldlM nest (.top (String.ofList (splitSpace (headOf text)).1) cut.1 cut.2) := by
  have hne : text.toList ≠ [] := by
    intro hnil
    exact h.nonempty (String.toList_inj.1 hnil)
  have hgood : ¬ (text.toList = [] ∨ ¬ Text.IsTrimmed text.toList ∨ hasDoubleSlash text.toList = true) := by
    rw [Text.isTrimmed_iff, hasDoubleSlash_iff]
    have hblank := And.intro h.start h.stop
    have hdouble := h.noDouble
    tauto
  have hsimple : (splitSpace (headOf text)).2 ≠ [] := by
    rw [Ne, splitSpace_snd_eq_nil_iff]
    exact not_or.2 ⟨h.named, h.noDot⟩
  unfold headOf at hsimple ⊢
  rw [← Text.pieces_fst] at hsimple ⊢
  unfold parse
  dsimp only
  rw [if_neg hgood, if_neg hsimple]
  exact bind_congr fun cut => nestAll_eq h.nil_not_mem

theorem nil_not_mem_of_nestAll {parts : List (List Char)} (h : nestAll text outer parts = .ok t) : [] ∉ parts := by
  induction parts generalizing outer with
  | nil => exact List.not_mem_nil
  | cons part rest ih =>
    rw [nestAll] at h
    split at h
    · cases h
    next hpart =>
      cases hn : outer.nest part with
      | error e =>
        rw [hn] at h
        cases h
      | ok next =>
        rw [hn] at h
        rw [List.mem_cons, not_or]
        exact ⟨Ne.symm hpart, ih h⟩

theorem isTypeName_of_parse (h : parse text = .ok t) : IsTypeName text := by
  obtain ⟨name, arity, -, hnest⟩ := exists_of_parse h
  have hparts := nil_not_mem_of_nestAll hnest
  rw [Text.nil_mem_pieces_snd_iff, not_or] at hparts
  unfold parse at h
  dsimp only at h
  split at h
  · cases h
  next hgood =>
    split at h
    · cases h
    next hsimple =>
      rw [not_or, not_or, not_not, Text.isTrimmed_iff] at hgood
      rw [Text.pieces_fst, splitSpace_snd_eq_nil_iff, not_or] at hsimple
      exact {
        nonempty := fun he => hgood.1 (by rw [he]; rfl)
        start := hgood.2.1.1
        stop := hgood.2.1.2
        noDouble := hparts.1
        noEnd := hparts.2
        named := hsimple.1
        noDot := hsimple.2 }

/-! ## Full names -/

theorem exists_foldlM_nest (outer : TypeId) {parts : List (List Char)} (h : ∀ part ∈ parts, IsReadable part) :
    ∃ t, parts.foldlM nest outer = .ok t ∧ ((∀ part ∈ parts, HasNoZero part) →
      t.fullName.toList = outer.fullName.toList ++ parts.flatMap ('/' :: ·)) := by
  induction parts generalizing outer with
  | nil => exact ⟨outer, rfl, fun _ => by simp⟩
  | cons part rest ih =>
    rw [List.forall_mem_cons] at h
    obtain ⟨name, arity, hsplit, hname⟩ := exists_splitArity h.1
    have hnest : outer.nest part = .ok (.inner outer "" name arity) := by
      unfold nest
      rw [hsplit]
      rfl
    obtain ⟨t, ht, hfull⟩ := ih (.inner outer "" name arity) h.2
    refine ⟨t, ?_, fun hzero => ?_⟩
    · rw [List.foldlM_cons, hnest]
      exact ht
    · rw [List.forall_mem_cons] at hzero
      rw [hfull hzero.2, fullName_inner, hname hzero.1, List.flatMap_cons, List.append_assoc]

/-- A name whose arities can be read is that of a type, and if it is written as full names are, then it is the full name. -/
theorem IsTypeName.exists_parse (h : IsTypeName text) (ha : ∀ simple ∈ simpleNames text, IsReadable simple) :
    ∃ t, parse text = .ok t ∧ (IsInFullForm text → t.fullName = text) := by
  unfold simpleNames at ha
  rw [List.forall_mem_cons] at ha
  obtain ⟨name, arity, hsplit, hname⟩ := exists_splitArity ha.1
  obtain ⟨t, ht, hfull⟩ :=
    exists_foldlM_nest (.top (String.ofList (splitSpace (headOf text)).1) name arity) ha.2
  refine ⟨t, ?_, fun hform => ?_⟩
  · rw [h.parse_eq, hsplit]
    exact ht
  · obtain ⟨hzero, hdot⟩ := hform
    unfold simpleNames at hzero
    rw [List.forall_mem_cons] at hzero
    have hhead : (top (String.ofList (splitSpace (headOf text)).1) name arity).fullName.toList = headOf text := by
      rw [fullName_top, hname hzero.1, String.toList_ofList]
      rcases splitSpace_cases (headOf text) with hsplit | ⟨hsplit, hsimple⟩
      · rw [hsplit, if_pos (by rfl)]
      · rw [if_neg, ← hsplit]
        intro hspace
        have hnil : (splitSpace (headOf text)).1 = [] := by simpa using congrArg String.toList hspace
        rw [hnil, List.nil_append] at hsplit
        exact hsimple (hdot _ hsplit)
    apply String.toList_inj.1
    rw [hfull hzero.2, hhead, headOf, ← Text.pieces_fst]
    exact Text.join_pieces '/' text.toList

/-! ## Nested types -/

/-- **A slash and a simple name** make the name of a nested type. -/
theorem parse_nested (h : parse text = .ok t) {simple : String} (hne : simple ≠ "") (hslash : '/' ∉ simple.toList)
    (hstop : ∀ c ∈ simple.toList.getLast?, Text.isBlank c = false) :
    parse (text ++ "/" ++ simple) = t.nest simple.toList := by
  have hname := isTypeName_of_parse h
  have htext : (text ++ "/" ++ simple).toList = text.toList ++ '/' :: simple.toList := by
    rw [String.toList_append, String.toList_append, List.append_assoc]
    rfl
  have hfront : text.toList ≠ [] := fun hnil => hname.nonempty (String.toList_inj.1 hnil)
  have hback : simple.toList ≠ [] := fun hnil => hne (String.toList_inj.1 hnil)
  have hpieces : Text.pieces '/' (text ++ "/" ++ simple).toList =
      (headOf text, (Text.pieces '/' text.toList).2 ++ [simple.toList]) := by
    rw [htext, Text.pieces_append, Text.pieces_of_not_mem hslash, Text.pieces_fst]
    rfl
  have hhead : headOf (text ++ "/" ++ simple) = headOf text := by
    rw [headOf, ← Text.pieces_fst, hpieces]
  have hparts : [] ∉ (Text.pieces '/' (text ++ "/" ++ simple).toList).2 := by
    rw [hpieces, List.mem_append, List.mem_singleton]
    exact not_or.2 ⟨hname.nil_not_mem, Ne.symm hback⟩
  rw [Text.nil_mem_pieces_snd_iff, not_or] at hparts
  have hlast : (text ++ "/" ++ simple).toList.getLast? = simple.toList.getLast? := by
    rw [htext, List.append_cons, List.getLast?_append_of_ne_nil _ hback]
  have hnested : IsTypeName (text ++ "/" ++ simple) := {
    nonempty := fun he => by simp [he] at htext
    start := by
      rw [htext, List.head?_append_of_ne_nil _ hfront]
      exact hname.start
    stop := by
      rw [hlast]
      exact hstop
    noDouble := hparts.1
    noEnd := hparts.2
    named := by
      rw [hhead]
      exact hname.named
    noDot := by
      rw [hhead]
      exact hname.noDot }
  rw [hname.parse_eq] at h
  rw [hnested.parse_eq, hhead, hpieces]
  simp only [List.foldlM_append, ← bind_assoc]
  rw [h]
  exact bind_pure (t.nest simple.toList)

/-- **Type names are read and written.** A text whose arities can be read is the name of a type just if nothing in it is left empty. If it is written as full names are, then the type has it for its full name, and no other type has; so reading full names gives the types back, and different texts give different types. And reading a name with a slash and a simple name after it is reading the name and nesting the simple name in the type. -/
theorem parse_names (text : String) :
    ((∀ simple ∈ simpleNames text, IsReadable simple) →
      ((∃ t, parse text = .ok t) ↔ IsTypeName text) ∧
      ∀ t, parse text = .ok t → IsInFullForm text →
        t.fullName = text ∧ parse t.fullName = .ok t ∧
        ∀ other, (∀ simple ∈ simpleNames other, IsReadable simple) → IsInFullForm other →
          parse other = .ok t → other = text) ∧
    ∀ t simple, parse text = .ok t → simple ≠ "" → '/' ∉ simple.toList →
      (∀ c ∈ simple.toList.getLast?, Text.isBlank c = false) →
        parse (text ++ "/" ++ simple) = t.nest simple.toList := by
  have hfull : ∀ {name t}, (∀ simple ∈ simpleNames name, IsReadable simple) → IsInFullForm name →
      parse name = .ok t → t.fullName = name := by
    intro name t ha hform h
    obtain ⟨t', ht', hback⟩ := (isTypeName_of_parse h).exists_parse ha
    obtain rfl := Except.ok.inj (h.symm.trans ht')
    exact hback hform
  refine ⟨fun ha => ⟨⟨fun ⟨t, h⟩ => isTypeName_of_parse h, fun h => ?_⟩, fun t h hform => ?_⟩, ?_⟩
  · obtain ⟨t, ht, -⟩ := h.exists_parse ha
    exact ⟨t, ht⟩
  · have htext := hfull ha hform h
    refine ⟨htext, by rw [htext, h], fun other ho hother hparse => ?_⟩
    rw [← hfull ho hother hparse, htext]
  · exact fun t simple h => parse_nested h

/-- A generic type in another, with a backtick and a dot in its own name. -/
def genericInner : TypeId := .inner (.top "Ns" "Outer" (.small 2)) "" "In.ner\x60x" (.small 10)

theorem hasArity_genericInner {simple digits : List Char} (hs : simple ∈ simpleNames "Ns.Outer\x602/In.ner\x60x\x6010")
    (h : HasArity simple digits) : digits = ['2'] ∨ digits = ['1', '0'] := by
  have hcut := h.cutLast?_eq
  have hnames : simpleNames "Ns.Outer\x602/In.ner\x60x\x6010" =
      ["Outer\x602".toList, "In.ner\x60x\x6010".toList] := by decide +kernel
  rw [hnames, List.mem_cons, List.mem_singleton] at hs
  rcases hs with rfl | rfl
  · exact .inl (Option.some.inj hcut).symm
  · exact .inr (Option.some.inj hcut).symm

theorem parse_names_genericInner :
    (∀ simple ∈ simpleNames "Ns.Outer\x602/In.ner\x60x\x6010", IsReadable simple) ∧
    IsInFullForm "Ns.Outer\x602/In.ner\x60x\x6010" ∧ IsTypeName "Ns.Outer\x602/In.ner\x60x\x6010" ∧
    parse "Ns.Outer\x602/In.ner\x60x\x6010" = .ok genericInner ∧
    genericInner.fullName = "Ns.Outer\x602/In.ner\x60x\x6010" ∧ parse genericInner.fullName = .ok genericInner ∧
    parse ("Ns.Outer\x602/In.ner\x60x\x6010" ++ "/" ++ "B\x60²") = genericInner.nest "B\x60²".toList := by
  have hreadable : ∀ simple ∈ simpleNames "Ns.Outer\x602/In.ner\x60x\x6010", IsReadable simple := by
    intro simple hs digits h
    rcases hasArity_genericInner hs h with rfl | rfl <;> exact ⟨List.all_eq_true.1 (by decide), by decide⟩
  have hstop : ∀ c ∈ "B\x60²".toList.getLast?, Text.isBlank c = false := by
    rintro c hc
    obtain rfl : '²' = c := Option.some.inj hc
    decide
  have hform : IsInFullForm "Ns.Outer\x602/In.ner\x60x\x6010" := by
    refine ⟨fun simple hs digits h => ?_, fun name h => ?_⟩
    · rcases hasArity_genericInner hs h with rfl | rfl <;> decide
    · cases show "Ns.Outer\x602".toList = '.' :: name from h
  have hparse : parse "Ns.Outer\x602/In.ner\x60x\x6010" = .ok genericInner := by decide +kernel
  obtain ⟨hread, hnested⟩ := parse_names "Ns.Outer\x602/In.ner\x60x\x6010"
  obtain ⟨hname, hback⟩ := hread hreadable
  obtain ⟨hfull, hagain, -⟩ := hback genericInner hparse hform
  exact ⟨hreadable, hform, hname.1 ⟨_, hparse⟩, hparse, hfull, hagain,
    hnested genericInner "B\x60²" hparse (by decide) (by decide) hstop⟩

end TypeId

end StubClosure
