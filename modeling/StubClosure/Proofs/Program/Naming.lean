import StubClosure.Proofs.Numeral
import StubClosure.Proofs.Program.Change

/-!
# Full names

A type is looked up by its full name, and the name is made of the parts of its identity. Mostly it tells the identity: it is cut at the last slash, the last dot and the last backtick. It does not where a part holds what it is cut at. A nested type may have a slash in its name, and a name without an arity may end in a backtick and a number. Names without either are `Plain`, and distinct identities of plain names have distinct full names (`fullName_inj`). Where two types of a program do have one full name, the type that was added last is found (`Built.findType?_eq`).
-/

namespace StubClosure

namespace TypeId

/-- The arity is a number of parameters, and there is a name to put it after. -/
def SpelledPart (name : String) (arity : Arity) : Prop := 0 ≤ arity.value ∧ (arity.value ≠ 0 → name ≠ "")

/-- The identity is of the kind that names are read as. -/
def Spelled : TypeId → Prop
  | .top space name arity => '/' ∉ space.toList ∧ '/' ∉ name.toList ∧ '.' ∉ name.toList ∧ SpelledPart name arity
  | .inner outer space name arity => outer.Spelled ∧ space = "" ∧ SpelledPart name arity

/-- If there is no arity, then the name does not look like another with one. -/
def PlainPart (name : String) (arity : Arity) : Prop :=
  arity.value = 0 → ∀ other (count : Arity), other ≠ "" → 0 < count.value → name ≠ simpleText other count

/-- No part of the full name passes for another. -/
def Plain : TypeId → Prop
  | .top _ name arity => PlainPart name arity
  | .inner outer _ name arity => outer.Plain ∧ '/' ∉ name.toList ∧ PlainPart name arity

/-! ## Reading gives spelled identities -/

theorem splitArity_spec {simple : List Char} {name : String} {arity : Arity} (h : splitArity simple = .ok (name, arity)) :
    SpelledPart name arity ∧ name.toList ⊆ simple := by
  unfold splitArity at h
  split at h
  next found digits hcut =>
    split at h
    next hgood =>
      split at h
      next hread =>
        cases h
        refine ⟨⟨Arity.read_nonneg hread, fun _ he => hgood.1 ?_⟩, ?_⟩
        · simpa using congrArg String.toList he
        · rw [Text.eq_of_cutLast?_eq_some hcut, String.toList_ofList]
          exact List.subset_append_left _ _
      · cases h
    · cases h
      refine ⟨⟨Int.le_refl 0, fun hne => absurd rfl hne⟩, ?_⟩
      rw [String.toList_ofList]
      exact List.Subset.refl _
  · cases h
    refine ⟨⟨Int.le_refl 0, fun hne => absurd rfl hne⟩, ?_⟩
    rw [String.toList_ofList]
    exact List.Subset.refl _

theorem nest_spec {outer t : TypeId} {simple : List Char} (h : outer.nest simple = .ok t) :
    ∃ name arity, t = .inner outer "" name arity ∧ SpelledPart name arity := by
  unfold nest at h
  cases hs : splitArity simple with
  | error e =>
    rw [hs] at h
    cases h
  | ok found =>
    rw [hs] at h
    cases h
    exact ⟨found.1, found.2, rfl, (splitArity_spec hs).1⟩

theorem Spelled.nest {outer t : TypeId} {simple : List Char} (ho : outer.Spelled) (h : outer.nest simple = .ok t) :
    t.Spelled := by
  obtain ⟨name, arity, rfl, hpart⟩ := nest_spec h
  exact ⟨ho, rfl, hpart⟩

theorem Spelled.outer {t outer : TypeId} (h : t.Spelled) (ho : t.outer? = some outer) : outer.Spelled := by
  cases t with
  | top => cases ho
  | inner other space name arity =>
    obtain rfl := Option.some.inj ho
    exact h.1

theorem Spelled.nestAll {text : String} {outer t : TypeId} {parts : List (List Char)} (ho : outer.Spelled)
    (h : nestAll text outer parts = .ok t) : t.Spelled := by
  induction parts generalizing outer with
  | nil =>
    cases h
    exact ho
  | cons part rest ih =>
    rw [TypeId.nestAll] at h
    split at h
    · cases h
    · cases hn : outer.nest part with
      | error e =>
        rw [hn] at h
        cases h
      | ok next =>
        rw [hn] at h
        exact ih (ho.nest hn) h

theorem splitSpace_spec (head : List Char) :
    '.' ∉ (splitSpace head).2 ∧ (splitSpace head).1 ⊆ head ∧ (splitSpace head).2 ⊆ head := by
  unfold splitSpace
  cases hcut : Text.cutLast? '.' head with
  | none => exact ⟨Text.cutLast?_eq_none_iff.1 hcut, List.nil_subset _, List.Subset.refl _⟩
  | some found =>
    refine ⟨Text.not_mem_of_cutLast?_eq_some hcut, ?_, ?_⟩ <;> rw [Text.eq_of_cutLast?_eq_some hcut, Option.getD_some]
    · exact List.subset_append_left _ _
    · exact List.subset_append_of_subset_right _ (List.subset_cons_self _ _)

theorem exists_of_parse {text : String} {t : TypeId} (h : parse text = .ok t) :
    let (head, parts) := Text.pieces '/' text.toList
    ∃ name arity, splitArity (splitSpace head).2 = .ok (name, arity) ∧
      nestAll text (.top (String.ofList (splitSpace head).1) name arity) parts = .ok t := by
  unfold parse at h
  dsimp only at h ⊢
  split at h
  · cases h
  · split at h
    · cases h
    · cases hs : splitArity (splitSpace (Text.pieces '/' text.toList).1).2 with
      | error e =>
        rw [hs] at h
        cases h
      | ok found =>
        rw [hs] at h
        exact ⟨found.1, found.2, rfl, h⟩

theorem spelled_of_parse {text : String} {t : TypeId} (h : parse text = .ok t) : t.Spelled := by
  obtain ⟨name, arity, hs, hnest⟩ := exists_of_parse h
  have hslash := Text.not_mem_pieces_fst '/' text.toList
  obtain ⟨hdot, hspace, hsimple⟩ := splitSpace_spec (Text.pieces '/' text.toList).1
  obtain ⟨hpart, hname⟩ := splitArity_spec hs
  have hroot : Spelled (.top (String.ofList (splitSpace (Text.pieces '/' text.toList).1).1) name arity) := by
    refine ⟨?_, ?_, ?_, hpart⟩
    · rw [String.toList_ofList]
      exact fun hmem => hslash (hspace hmem)
    · exact fun hmem => hslash (hsimple (hname hmem))
    · exact fun hmem => hdot (hname hmem)
  exact hroot.nestAll hnest

theorem outer?_of_parse {text : String} {t : TypeId} (hs : '/' ∉ text.toList) (h : parse text = .ok t) :
    t.outer? = none := by
  obtain ⟨name, arity, -, hnest⟩ := exists_of_parse h
  rw [Text.pieces_of_not_mem hs] at hnest
  cases hnest
  rfl

/-! ## Plain names tell the identity -/

theorem isDigit_of_mem_text {c : Char} {arity : Arity} (h : 0 ≤ arity.value) (hc : c ∈ arity.text.toList) :
    c.isDigit = true := by
  obtain ⟨n, hn⟩ := Int.eq_ofNat_of_zero_le h
  rw [Arity.text, hn, show (toString (n : Int)).toList = Nat.toDigits 10 n from Nat.toList_repr] at hc
  exact Nat.isDigit_of_mem_toDigits (by decide) (by decide) hc

theorem not_mem_text {c : Char} (hc : c.isDigit = false) {arity : Arity} (h : 0 ≤ arity.value) :
    c ∉ arity.text.toList := by
  intro hmem
  rw [isDigit_of_mem_text h hmem] at hc
  cases hc

theorem toList_simpleText (name : String) (arity : Arity) : (simpleText name arity).toList =
    if arity.value = 0 then name.toList else name.toList ++ '\x60' :: arity.text.toList := by
  unfold simpleText
  split
  · rfl
  · rw [String.toList_append, String.toList_append, List.append_assoc]
    rfl

theorem not_mem_simpleText {c : Char} (hc : c.isDigit = false) (hb : c ≠ '\x60') {name : String} {arity : Arity}
    (ha : 0 ≤ arity.value) (hn : c ∉ name.toList) : c ∉ (simpleText name arity).toList := by
  rw [toList_simpleText]
  split
  · exact hn
  · rw [List.mem_append, List.mem_cons]
    rintro (h | h | h)
    · exact hn h
    · exact hb h
    · exact not_mem_text hc ha h

theorem simpleText_inj {name other : String} {arity count : Arity} (hs : SpelledPart name arity)
    (ho : SpelledPart other count) (hp : PlainPart name arity) (hpo : PlainPart other count)
    (h : simpleText name arity = simpleText other count) : name = other ∧ arity = count := by
  by_cases ha : arity.value = 0
  · by_cases hc : count.value = 0
    · rw [simpleText, simpleText, if_pos ha, if_pos hc] at h
      exact ⟨h, Arity.ext (ha.trans hc.symm)⟩
    · refine absurd ?_ (hp ha other count (ho.2 hc) (by have := ho.1; omega))
      rw [← h, simpleText, if_pos ha]
  · by_cases hc : count.value = 0
    · refine absurd ?_ (hpo hc name arity (hs.2 ha) (by have := hs.1; omega))
      rw [h, simpleText, if_pos hc]
    · have hcut := congrArg (fun text : String => Text.cutLast? '\x60' text.toList) h
      rw [toList_simpleText, toList_simpleText, if_neg ha, if_neg hc,
        Text.cutLast?_append (not_mem_text (by decide) hs.1),
        Text.cutLast?_append (not_mem_text (by decide) ho.1)] at hcut
      obtain ⟨hname, harity⟩ := Prod.mk.inj (Option.some.inj hcut)
      exact ⟨String.toList_inj.1 hname, Arity.ext (Text.eq_of_toString_eq harity)⟩

theorem fullName_top (space name : String) (arity : Arity) : (top space name arity).fullName.toList =
    if space = "" then (simpleText name arity).toList else space.toList ++ '.' :: (simpleText name arity).toList := by
  unfold fullName
  split
  · rfl
  · rw [String.toList_append, String.toList_append, List.append_assoc]
    rfl

theorem fullName_inner (outer : TypeId) (space name : String) (arity : Arity) :
    (inner outer space name arity).fullName.toList =
      outer.fullName.toList ++ '/' :: (simpleText name arity).toList := by
  rw [fullName, String.toList_append, String.toList_append, List.append_assoc]
  rfl

theorem not_mem_fullName_top {space name : String} {arity : Arity} (h : (top space name arity).Spelled) :
    '/' ∉ (top space name arity).fullName.toList := by
  obtain ⟨hspace, hname, -, hpart⟩ := h
  have hsimple := not_mem_simpleText (c := '/') (by decide) (by decide) hpart.1 hname
  rw [fullName_top]
  split
  · exact hsimple
  · rw [List.mem_append, List.mem_cons]
    rintro (h | h | h)
    · exact hspace h
    · cases h
    · exact hsimple h

theorem fullName_top_inj {space name space' name' : String} {arity arity' : Arity}
    (hs : (top space name arity).Spelled) (hs' : (top space' name' arity').Spelled)
    (hp : PlainPart name arity) (hp' : PlainPart name' arity')
    (h : (top space name arity).fullName = (top space' name' arity').fullName) :
    top space name arity = top space' name' arity' := by
  obtain ⟨-, -, hdot, hpart⟩ := hs
  obtain ⟨-, -, hdot', hpart'⟩ := hs'
  have hnone := not_mem_simpleText (c := '.') (by decide) (by decide) hpart.1 hdot
  have hnone' := not_mem_simpleText (c := '.') (by decide) (by decide) hpart'.1 hdot'
  have hlist := congrArg String.toList h
  rw [fullName_top, fullName_top] at hlist
  have hparts : space = space' ∧ simpleText name arity = simpleText name' arity' := by
    split at hlist <;> split at hlist
    next he he' => exact ⟨he.trans he'.symm, String.toList_inj.1 hlist⟩
    · exact absurd (hlist ▸ List.mem_append_right _ List.mem_cons_self) hnone
    · exact absurd (hlist ▸ List.mem_append_right _ List.mem_cons_self) hnone'
    · have hcut := congrArg (Text.cutLast? '.') hlist
      rw [Text.cutLast?_append hnone, Text.cutLast?_append hnone'] at hcut
      obtain ⟨hspace, hsimple⟩ := Prod.mk.inj (Option.some.inj hcut)
      exact ⟨String.toList_inj.1 hspace, String.toList_inj.1 hsimple⟩
  obtain ⟨rfl, hsimple⟩ := hparts
  obtain ⟨rfl, rfl⟩ := simpleText_inj hpart hpart' hp hp' hsimple
  rfl

/-- **Plain full names identify types.** -/
theorem fullName_inj {t other : TypeId} (ht : t.Spelled) (ho : other.Spelled) (hp : t.Plain) (hpo : other.Plain)
    (h : t.fullName = other.fullName) : t = other := by
  induction t generalizing other with
  | top space name arity =>
    cases other with
    | top space' name' arity' => exact fullName_top_inj ht ho hp hpo h
    | inner outer' space' name' arity' =>
      refine absurd ?_ (not_mem_fullName_top ht)
      rw [h, fullName_inner]
      exact List.mem_append_right _ List.mem_cons_self
  | inner outer space name arity ih =>
    cases other with
    | top space' name' arity' =>
      refine absurd ?_ (not_mem_fullName_top ho)
      rw [← h, fullName_inner]
      exact List.mem_append_right _ List.mem_cons_self
    | inner outer' space' name' arity' =>
      obtain ⟨houter, rfl, hpart⟩ := ht
      obtain ⟨houter', rfl, hpart'⟩ := ho
      obtain ⟨hplain, hslash, hname⟩ := hp
      obtain ⟨hplain', hslash', hname'⟩ := hpo
      -- the last slash is that between the type and the one around it
      have hcut := congrArg (fun text : String => Text.cutLast? '/' text.toList) h
      rw [fullName_inner, fullName_inner,
        Text.cutLast?_append (not_mem_simpleText (by decide) (by decide) hpart.1 hslash),
        Text.cutLast?_append (not_mem_simpleText (by decide) (by decide) hpart'.1 hslash')] at hcut
      obtain ⟨hfull, hsimple⟩ := Prod.mk.inj (Option.some.inj hcut)
      obtain rfl := ih houter houter' hplain hplain' (String.toList_inj.1 hfull)
      obtain ⟨rfl, rfl⟩ := simpleText_inj hpart hpart' hname hname' (String.toList_inj.1 hsimple)
      rfl

end TypeId

/-! ## Looking a type up by its name -/

namespace Program

variable {p : Program}

/-- No two of the defined types have one full name. -/
def NamesApart (p : Program) : Prop :=
  ∀ t other, p.defines t = true → p.defines other = true → t.fullName = other.fullName → t = other

theorem Built.mem_values_iff (hp : p.Built) {d : TypeDef} : d ∈ p.types.values ↔ p.type? d.id = some d := by
  constructor
  · intro h
    obtain ⟨entry, hentry, rfl⟩ := List.mem_map.1 h
    have hd := Table.find?_of_mem hp.indexed.nodup hentry
    rw [(hp.coherent.type entry.1 entry.2 hd).id_eq]
    exact hd
  · intro h
    obtain ⟨entry, hentry, he⟩ := List.mem_map.1 (Table.contains_iff.1 (defines_of_type? h))
    have hd := Table.find?_of_mem hp.indexed.nodup hentry
    rw [he] at hd
    obtain rfl := Option.some.inj (hd.symm.trans h)
    exact List.mem_map_of_mem hentry

/-- The index holds, for each name, the last type of that name. -/
theorem Built.find?_names (hp : p.Built) (name : String) :
    p.names.find? name = p.types.keys.reverse.find? fun t => t.fullName = name := by
  induction hp with
  | new => rfl
  | @step p _ step ih =>
    rcases (step.changes_after p).index with ⟨hn, hk⟩ | ⟨t, hn, -, hk⟩
    · rw [hn, hk]
      exact ih
    · rw [hn, hk, Table.find?_insert, List.reverse_append, List.reverse_singleton, List.singleton_append,
        List.find?_cons, ih]
      by_cases he : name = t.fullName
      · simp [he]
      · simp [he, Ne.symm he]

/-- **Of the types of a name, the one that was added last is found.** -/
theorem Built.findType?_eq (hp : p.Built) (name : String) :
    p.findType? name = p.types.values.reverse.find? fun d => d.id.fullName = name := by
  unfold findType?
  rw [hp.find?_names, ← hp.indexed.map_id_values hp.coherent, ← List.map_reverse, List.find?_map]
  cases hfound : p.types.values.reverse.find? ((fun t : TypeId => decide (t.fullName = name)) ∘ fun d => d.id) with
  | none => exact hfound.symm
  | some d =>
    have hd := hp.mem_values_iff.1 (List.mem_reverse.1 (List.mem_of_find?_eq_some hfound))
    exact Eq.trans hd hfound.symm

/-- Every type is found under its name just if no two types have one name. -/
theorem Built.find_all_iff (hp : p.Built) :
    (∀ d ∈ p.types.values, p.findType? d.id.fullName = some d) ↔ p.NamesApart := by
  constructor
  · intro h t other ht ho he
    obtain ⟨d, hd⟩ := exists_type?_of_defines ht
    obtain ⟨d', hd'⟩ := exists_type?_of_defines ho
    obtain rfl := (hp.coherent.type t d hd).id_eq
    obtain rfl := (hp.coherent.type other d' hd').id_eq
    have hfound := h d (hp.mem_values_iff.2 hd)
    rw [he, h d' (hp.mem_values_iff.2 hd')] at hfound
    rw [Option.some.inj hfound]
  · intro h d hd
    rw [hp.findType?_eq]
    cases hfound : p.types.values.reverse.find? fun other => other.id.fullName = d.id.fullName with
    | none =>
      have hnone := List.find?_eq_none.1 hfound d (List.mem_reverse.2 hd)
      simp at hnone
    | some other =>
      have hother := hp.mem_values_iff.1 (List.mem_reverse.1 (List.mem_of_find?_eq_some hfound))
      have hname : other.id.fullName = d.id.fullName := by simpa using List.find?_some hfound
      have hd := hp.mem_values_iff.1 hd
      rw [h other.id d.id (defines_of_type? hother) (defines_of_type? hd) hname, hd] at hother
      exact hother.symm

end Program

end StubClosure
