import StubClosure.Proofs.Closure.Operands
import StubClosure.Proofs.Listing.Lines
import StubClosure.Proofs.Listing.WellFormed
import StubClosure.Proofs.TypeName

/-!
# Operands in writing

What a listing may write as an operand, and what an operand looks like when it is written again. Not every value is an operand that was read: the texts among them have no quote that would end them early, the names of types are names, and a member is what its mnemonic makes of it (`Operand.Legible`). Written again, such an operand is read as itself if the names of its types are read as these types, and if nothing in it has a meaning of its own to the reader (`Operand.Canonical`): `V_1` is a slot before it is a type, `instance` a word of the grammar, `IL_0` a label in front of a colon.
-/

namespace StubClosure

namespace Listing

/-! ## Characters of names -/

theorem isNameChar_of_isDigit {c : Char} (h : c.isDigit = true) : isNameChar c = true := by
  simp [isNameChar, h]

theorem forall_isNameChar {P : Char → Prop} (h : ∀ n < 128, isNameChar (Char.ofNat n) = true → P (Char.ofNat n)) :
    ∀ c, isNameChar c = true → P c := by
  intro c hc
  have hsmall : c.toNat < 128 := by
    simp only [isNameChar, isNameStart, isLetter, Char.isDigit, Char.le_def, UInt32.le_iff_toNat_le, Bool.or_eq_true,
      Bool.and_eq_true, decide_eq_true_eq] at hc
    rcases hc with ((((((((((⟨-, hc⟩ | ⟨-, hc⟩) | rfl) | rfl) | rfl) | ⟨-, hc⟩) | rfl) | rfl) | rfl) | rfl) | rfl) | rfl
    · exact Nat.lt_of_le_of_lt hc (by decide)
    · exact Nat.lt_of_le_of_lt hc (by decide)
    · decide
    · decide
    · decide
    · exact Nat.lt_of_le_of_lt hc (by decide)
    all_goals decide
  have hp := h c.toNat hsmall
  rw [Char.ofNat_toNat] at hp
  exact hp hc

theorem isNameChar_toLower : ∀ c, isNameChar c = true → isNameChar c.toLower = true ∧
    isNameStart c.toLower = isNameStart c ∧ c.toLower.toLower = c.toLower :=
  forall_isNameChar (by decide +kernel)

/-- No name character ends a string or hides the end of one. -/
theorem isNameChar_ne : ∀ c, isNameChar c = true → c ≠ '"' ∧ c ≠ '\\' :=
  forall_isNameChar (by decide +kernel)

theorem isName_append {text more : String} (h : IsName text) (hm : ∀ c ∈ more.toList, isNameChar c = true) :
    IsName (text ++ more) := by
  obtain ⟨⟨c, hhead, hc⟩, hall⟩ := isName_iff.1 h
  rw [isName_iff, String.toList_append, List.forall_mem_append, List.head?_append, hhead]
  exact ⟨⟨c, rfl, hc⟩, hall, hm⟩

theorem isName_lower {mnemonic : String} (h : IsName mnemonic) :
    IsName (Mnemonic.lower mnemonic) ∧ Mnemonic.lower (Mnemonic.lower mnemonic) = Mnemonic.lower mnemonic := by
  obtain ⟨c, cs, hs, hc, hall⟩ := exists_of_isName h
  have hlower : (Mnemonic.lower mnemonic).toList = mnemonic.toList.map Char.toLower := String.toList_ofList
  constructor
  · rw [isName_iff, hlower]
    refine ⟨⟨c.toLower, by simp [hs], ?_⟩, ?_⟩
    · rw [(isNameChar_toLower c (isNameChar_of_isNameStart hc)).2.1]
      exact hc
    · rw [List.forall_mem_map]
      exact fun d hd => (isNameChar_toLower d (hall d hd)).1
  · have hsame : (mnemonic.toList.map Char.toLower).map Char.toLower = mnemonic.toList.map Char.toLower := by
      rw [List.map_map]
      exact List.map_congr_left fun d hd => (isNameChar_toLower d (hall d hd)).2.2
    rw [Mnemonic.lower, hlower, hsame]
    rfl

/-! ## Names of types -/

open TypeId

theorem isNameChar_of_splitArity {simple : List Char} {name : String} {arity : Arity}
    (h : splitArity simple = .ok (name, arity)) (hall : ∀ c ∈ simple, isNameChar c = true) :
    (simpleText name arity).toList.head? = simple.head? ∧ ∀ c ∈ (simpleText name arity).toList, isNameChar c = true := by
  rw [toList_simpleText]
  rcases splitArity_cases simple with ⟨front, digits, hsimple, ⟨⟨front', hne, hsimple'⟩, -⟩, hsplit⟩ | hsplit
  · rw [hsplit] at h
    obtain rfl := List.append_cancel_right (hsimple'.symm.trans hsimple)
    cases hread : Arity.read digits with
    | error e =>
      rw [hread] at h
      cases h
    | ok found =>
      rw [hread] at h
      obtain ⟨rfl, rfl⟩ := Prod.mk.inj (Except.ok.inj h)
      rw [String.toList_ofList]
      rw [hsimple, List.forall_mem_append] at hall
      obtain ⟨c, rest, rfl⟩ := List.exists_cons_of_ne_nil hne
      split
      · exact ⟨by rw [hsimple]; rfl, hall.1⟩
      · refine ⟨by rw [hsimple]; rfl, List.forall_mem_append.2 ⟨hall.1, List.forall_mem_cons.2 ⟨by decide, ?_⟩⟩⟩
        intro d hd
        exact isNameChar_of_isDigit (isDigit_of_mem_text (Arity.read_nonneg hread) hd)
  · rw [hsplit] at h
    obtain ⟨rfl, rfl⟩ := Prod.mk.inj (Except.ok.inj h)
    rw [String.toList_ofList]
    exact ⟨rfl, hall⟩

theorem isName_fullName_of_nestAll {text : String} {outer t : TypeId} {parts : List (List Char)}
    (ho : IsName outer.fullName) (hall : ∀ part ∈ parts, ∀ c ∈ part, isNameChar c = true)
    (h : nestAll text outer parts = .ok t) : IsName t.fullName := by
  induction parts generalizing outer with
  | nil =>
    cases h
    exact ho
  | cons part rest ih =>
    rw [List.forall_mem_cons] at hall
    rw [nestAll] at h
    split at h
    · cases h
    · obtain ⟨next, hnext, h⟩ := exists_of_bind_eq_ok h
      obtain ⟨⟨name, arity⟩, hsplit, hnext⟩ := exists_of_bind_eq_ok hnext
      obtain rfl := Except.ok.inj hnext
      refine ih ?_ hall.2 h
      show IsName (outer.fullName ++ "/" ++ simpleText name arity)
      refine isName_append (isName_append ho (List.forall_mem_singleton.2 rfl)) ?_
      exact (isNameChar_of_splitArity hsplit hall.1).2

theorem isName_fullName_of_parse {text : String} {t : TypeId} (hn : IsName text) (h : TypeId.parse text = .ok t) :
    IsName t.fullName := by
  obtain ⟨c, cs, hs, hc, hall⟩ := exists_of_isName hn
  obtain ⟨name, arity, hsplit, hnest⟩ := exists_of_parse h
  have hjoin := Text.join_pieces '/' text.toList
  have hhead : (Text.pieces '/' text.toList).1.head? = some c := by
    have hslash : c ≠ '/' := by
      rintro rfl
      cases hc
    rw [Text.pieces_fst, hs, List.takeWhile_cons_of_pos (by simpa using hslash)]
    rfl
  generalize Text.pieces '/' text.toList = cut at *
  obtain ⟨head, parts⟩ := cut
  dsimp only at *
  rw [← hjoin, List.forall_mem_append] at hall
  obtain ⟨hallHead, hallParts⟩ := hall
  refine isName_fullName_of_nestAll ?_ ?_ hnest
  · have hsimple : ∀ d ∈ (splitSpace head).2, isNameChar d = true := fun d hd =>
      hallHead d ((splitSpace_spec head).2.2 hd)
    obtain ⟨hfirst, hchars⟩ := isNameChar_of_splitArity hsplit hsimple
    rw [isName_iff, fullName_top]
    rcases splitSpace_cases head with hsplit | ⟨hsplit, -⟩
    · rw [hsplit] at hfirst ⊢
      rw [if_pos rfl, hfirst]
      exact ⟨⟨c, hhead, hc⟩, hchars⟩
    · generalize splitSpace head = cut at *
      obtain ⟨space, simple⟩ := cut
      dsimp only at *
      subst hsplit
      cases space with
      | nil =>
        obtain rfl := Option.some.inj hhead
        cases hc
      | cons d space =>
        obtain rfl := Option.some.inj hhead
        rw [List.forall_mem_append] at hallHead
        rw [if_neg (by simp), String.toList_ofList]
        refine ⟨⟨_, rfl, hc⟩, List.forall_mem_append.2 ⟨hallHead.1, List.forall_mem_cons.2 ⟨by decide, hchars⟩⟩⟩
  · intro part hpart d hd
    exact hallParts d (List.mem_flatMap.2 ⟨part, hpart, List.mem_cons_of_mem _ hd⟩)

theorem isName_fullName_of_typeNamed {name : String} {t : TypeId} (hn : IsName name) (h : typeNamed name = .ok t) :
    IsName t.fullName := by
  have hbuiltin : ∀ entry ∈ builtinTypes, IsName (TypeId.top "System" entry.2 0).fullName := by decide +kernel
  unfold typeNamed at h
  split at h
  next builtin hlookup =>
    obtain rfl := Except.ok.inj h
    obtain ⟨before, after, htable, -⟩ := List.lookup_eq_some_iff.1 hlookup
    exact hbuiltin (name, builtin) (htable ▸ List.mem_append_right before List.mem_cons_self)
  · exact isName_fullName_of_parse hn h

/-! ## Numbers -/

section
variable {digits rest w : List Char}

theorem IsNumber.forall_isNameChar (h : IsNumber rest w) : ∀ c ∈ w, c = '-' ∨ isNameChar c = true := by
  have hdecimal : ∀ {w}, IsDecimal rest w → ∀ c ∈ w, isNameChar c = true := by
    intro w hw
    cases hw with
    | whole hdigits => exact fun c hc => isNameChar_of_isDigit (hdigits.2 c hc)
    | fraction hdigits hfraction =>
      refine List.forall_mem_append.2 ⟨fun c hc => isNameChar_of_isDigit (hdigits.2 c hc), ?_⟩
      exact List.forall_mem_cons.2 ⟨by decide, fun c hc => isNameChar_of_isDigit (hfraction.2 c hc)⟩
  have hunsigned : ∀ {w}, IsUnsigned rest w → ∀ c ∈ w, isNameChar c = true := by
    intro w hw
    cases hw with
    | hex hdigits =>
      refine List.forall_mem_cons.2 ⟨by decide, List.forall_mem_cons.2 ⟨by decide, ?_⟩⟩
      exact fun c hc => isNameChar_of_isHex (hdigits.2 c hc)
    | decimal h => exact hdecimal h
  cases h with
  | plain h => exact fun c hc => .inr (hunsigned h c hc)
  | negative h => exact List.forall_mem_cons.2 ⟨.inl rfl, fun c hc => .inr (hunsigned h c hc)⟩

theorem number?_of_isDigit (hne : digits ≠ []) (hd : ∀ c ∈ digits, c.isDigit = true) :
    number? digits = some (digits, []) ∧ number? ('-' :: digits) = some ('-' :: digits, []) := by
  have hunsigned : IsUnsigned [] digits :=
    .decimal (.whole ⟨hne, hd⟩ nofun fun _ h => nomatch h) fun _ _ h => nomatch h
  have hplain := (IsNumber.plain hunsigned).number?_append
  have hnegative := (IsNumber.negative hunsigned).number?_append
  rw [List.append_nil] at hplain hnegative
  exact ⟨hplain, hnegative⟩

theorem numberOperand_toString {n : Int} (hn : n.natAbs < Text.unwritableFrom) :
    IsWhole number? (toString n) ∧ numberOperand (toString n) = .ok (.number n) := by
  have hdigits : ∀ k : Nat, ∀ c ∈ Nat.toDigits 10 k, c.isDigit = true := fun k c =>
    Nat.isDigit_of_mem_toDigits (by decide) (by decide)
  have hpoint : ∀ k : Nat, '.' ∉ Nat.toDigits 10 k := fun k h => absurd (hdigits k '.' h) (by decide)
  have hhex : ∀ k : Nat, ['0', 'x'].isPrefixOf (Nat.toDigits 10 k) = false := by
    intro k
    rw [Bool.eq_false_iff, Ne, List.isPrefixOf_iff_prefix]
    rintro ⟨more, hmore⟩
    exact absurd (hdigits k 'x' (by simp [← hmore])) (by decide)
  unfold numberOperand
  cases n with
  | ofNat k =>
    have htext : (toString (Int.ofNat k)).toList = Nat.toDigits 10 k := Nat.toList_repr
    have hread := Text.readDecimal_toDigits (n := k) hn
    unfold IsWhole
    rw [htext]
    refine ⟨(number?_of_isDigit Nat.toDigits_ne_nil (hdigits k)).1, ?_⟩
    have hminus : (Nat.toDigits 10 k).head? ≠ some '-' := fun h =>
      absurd (hdigits k '-' (List.mem_of_head? h)) (by decide)
    dsimp only
    rw [if_neg hminus, hhex, if_neg Bool.false_ne_true, if_neg (hpoint k), signed, hread]
    · rfl
    · intro digits heq
      exact hminus (by rw [heq]; rfl)
  | negSucc k =>
    have htext : (toString (Int.negSucc k)).toList = '-' :: Nat.toDigits 10 (k + 1) := by
      rw [← Nat.toList_repr]
      exact String.toList_append
    have hread := Text.readDecimal_toDigits (n := k + 1) hn
    unfold IsWhole
    rw [htext]
    refine ⟨(number?_of_isDigit Nat.toDigits_ne_nil (hdigits (k + 1))).2, ?_⟩
    have hnot : '.' ∉ '-' :: Nat.toDigits 10 (k + 1) := List.not_mem_cons_of_ne_of_not_mem (by decide) (hpoint (k + 1))
    dsimp only
    rw [List.head?_cons, if_pos rfl, List.tail_cons, hhex, if_neg Bool.false_ne_true, if_neg hnot, signed, hread]
    rfl

/-! ## Strings -/

theorem exists_of_stringEnd? {cs : List Char} {cut : Cutting} (h : stringEnd? cs = some cut) :
    ∃ inner, cut.1 = inner ++ ['"'] := by
  fun_induction stringEnd? cs generalizing cut with
  | case1 | case3 | case5 => simp at h
  | case2 =>
    obtain rfl := Option.some.inj h
    exact ⟨[], rfl⟩
  | case4 c _ _ ih =>
    obtain ⟨rest, hrest, rfl⟩ := Option.map_eq_some_iff.1 h
    obtain ⟨inner, hinner⟩ := ih hrest
    exact ⟨'\\' :: c :: inner, by rw [after, hinner]; rfl⟩
  | case6 c _ _ _ _ ih =>
    obtain ⟨rest, hrest, rfl⟩ := Option.map_eq_some_iff.1 h
    obtain ⟨inner, hinner⟩ := ih hrest
    exact ⟨c :: inner, by rw [after, hinner]; rfl⟩

theorem exists_of_isWhole_string {quoted : String} (h : IsWhole string? quoted) :
    ∃ inner, quoted.toList = '"' :: (inner ++ ['"']) := by
  obtain ⟨cs, hs⟩ := exists_of_string h
  unfold IsWhole at h
  rw [hs, string?] at h
  obtain ⟨cut, hcut, heq⟩ := Option.map_eq_some_iff.1 h
  obtain ⟨inner, hinner⟩ := exists_of_stringEnd? hcut
  refine ⟨inner, ?_⟩
  rw [hs, ← (Prod.mk.inj heq).1, hinner]
  rfl

theorem toList_quotes (s : String) : ("\"" ++ s ++ "\"").toList = '"' :: (s.toList ++ ['"']) := by
  rw [String.toList_append, String.toList_append]
  rfl

theorem isWhole_string_of_forall {s : String} (h : ∀ c ∈ s.toList, c ≠ '"' ∧ c ≠ '\\') :
    IsWhole string? ("\"" ++ s ++ "\"") := by
  have hend : ∀ cs : List Char, (∀ c ∈ cs, c ≠ '"' ∧ c ≠ '\\') → stringEnd? (cs ++ ['"']) = some (cs ++ ['"'], []) := by
    intro cs hcs
    induction cs with
    | nil => rfl
    | cons c cs ih =>
      rw [List.forall_mem_cons] at hcs
      rw [List.cons_append, stringEnd?.eq_def]
      simp [hcs.1, ih hcs.2, after]
  unfold IsWhole
  rw [toList_quotes, string?, hend _ h]
  rfl

end

end Listing

open Listing

/-- The types that a signature names. -/
def Signature.types (s : Signature) : List TypeId := s.valueType :: s.owner :: s.params

namespace Operand

/-! ## What operands are read -/

/-- The operand is one that can be read under the mnemonic. -/
def Legible (mnemonic : String) : Operand → Prop
  | .member m => m.plain = m ∧ IsMemberName m.name ∧ (∀ t ∈ m.types, IsName t.fullName) ∧
      (m.kind = .field ∧ m.params = [] ∨ m.kind = .method ∧ (OpCategory.ofMnemonic mnemonic).isFieldAccess = false)
  | .type t => mnemonic ∈ typeMnemonics ∧ IsName t.fullName
  | .number _ => True
  | .text s => IsWhole string? ("\"" ++ s ++ "\"")

theorem legible_of_operandOf_member {mnemonic : String} {marked : Bool} {type owner name : String}
    {params : Option (List String)} (ho : (OperandText.member marked type owner name params).WellFormed) {operand : Operand}
    (h : operandOf mnemonic (.member marked type owner name params) = .ok operand) : operand.Legible mnemonic := by
  obtain ⟨htype, -, howner, hname, hparams⟩ := ho
  obtain ⟨owner', howner', h⟩ := exists_of_bind_eq_ok h
  have hownerName := isName_fullName_of_typeNamed howner (mapError_eq_ok_iff.1 howner')
  split at h
  · obtain ⟨type', htype', h⟩ := exists_of_bind_eq_ok h
    obtain rfl := Except.ok.inj h
    have htypeName := isName_fullName_of_typeNamed htype (mapError_eq_ok_iff.1 htype')
    exact ⟨rfl, hname, by simpa [Signature.types, Member.field] using ⟨htypeName, hownerName⟩, .inl ⟨rfl, rfl⟩⟩
  next names hnames =>
    obtain ⟨params', hparams', h⟩ := exists_of_bind_eq_ok h
    obtain ⟨type', htype', h⟩ := exists_of_bind_eq_ok h
    obtain rfl := Except.ok.inj h
    have htypeName := isName_fullName_of_typeNamed htype (mapError_eq_ok_iff.1 htype')
    obtain ⟨hmethod, rfl⟩ : ¬ (OpCategory.ofMnemonic mnemonic).isFieldAccess = true ∧ params = some names := by
      simpa using hnames
    have hparamNames : ∀ t ∈ params', IsName t.fullName := by
      intro t ht
      obtain ⟨param, hparam, hread⟩ := exists_of_mem_mapM hparams' ht
      exact isName_fullName_of_typeNamed (hparams names rfl param hparam) (mapError_eq_ok_iff.1 hread)
    refine ⟨rfl, hname, ?_, .inr ⟨rfl, by simpa using hmethod⟩⟩
    exact List.forall_mem_cons.2 ⟨htypeName, List.forall_mem_cons.2 ⟨hownerName, hparamNames⟩⟩

/-- A number with a fraction stands for a text, and there are no quotes in it. -/
theorem legible_of_numberOperand {digits : String} (hd : IsWhole number? digits) {operand : Operand}
    (h : numberOperand digits = .ok operand) (mnemonic : String) : operand.Legible mnemonic := by
  have hchars := (isNumber_of_number? hd).forall_isNameChar
  unfold numberOperand at h
  dsimp only at h
  generalize (if digits.toList.head? = some '-' then digits.toList.tail else digits.toList) = unsigned at h
  split at h
  · obtain ⟨n, -, rfl⟩ := exists_of_map_eq_ok h
    trivial
  · split at h
    · obtain rfl := Except.ok.inj h
      refine isWhole_string_of_forall fun c hc => ?_
      rcases hchars c hc with rfl | hc
      · decide
      · exact isNameChar_ne c hc
    · obtain ⟨n, -, rfl⟩ := exists_of_map_eq_ok h
      trivial

theorem quotes_tail_dropLast {quoted : String} (h : IsWhole string? quoted) :
    "\"" ++ String.ofList quoted.toList.tail.dropLast ++ "\"" = quoted := by
  obtain ⟨inner, hinner⟩ := exists_of_isWhole_string h
  apply String.toList_inj.1
  rw [hinner, List.tail_cons, List.dropLast_concat, toList_quotes, String.toList_ofList]

theorem legible_of_operandOf {mnemonic : String} {o : OperandText} (ho : o.WellFormed) {operand : Operand}
    (h : operandOf mnemonic o = .ok operand) : operand.Legible mnemonic := by
  cases o with
  | member marked type owner name params => exact legible_of_operandOf_member ho h
  | number digits => exact legible_of_numberOperand ho (mapError_eq_ok_iff.1 h) mnemonic
  | string quoted =>
    obtain rfl := Except.ok.inj h
    show IsWhole string? _
    rwa [quotes_tail_dropLast ho]
  | name word =>
    unfold operandOf at h
    dsimp only at h
    split at h
    · obtain ⟨n, -, h⟩ := exists_of_bind_eq_ok h
      obtain rfl := Except.ok.inj h
      trivial
    · split at h
      next hmnemonic =>
        obtain ⟨t, ht, h⟩ := exists_of_bind_eq_ok h
        obtain rfl := Except.ok.inj h
        exact ⟨hmnemonic, isName_fullName_of_typeNamed ho.1 (mapError_eq_ok_iff.1 ht)⟩
      · obtain rfl := Except.ok.inj h
        exact isWhole_string_of_forall fun c hc => isNameChar_ne c ((isName_iff.1 ho.1).2 c hc)

/-! ## Operands written again -/

/-- The operand is read as itself where it is written: the names of its types are read as these, its number is not too long, and it has no name that means something else to the reader. -/
def Canonical : Operand → Prop
  | .member m => (∀ t ∈ m.types, typeNamed t.fullName = .ok t) ∧ m.valueType.fullName ≠ "instance" ∧
      ¬ BeginsLabel m.owner.fullName
  | .type t => typeNamed t.fullName = .ok t ∧ slotDigits? t.fullName = none ∧ t.fullName ≠ "instance"
  | .number n => n.natAbs < Text.unwritableFrom
  | .text _ => True

instance : (operand : Operand) → Decidable operand.Canonical
  | .member _ => inferInstanceAs (Decidable (_ ∧ _ ∧ _))
  | .type _ => inferInstanceAs (Decidable (_ ∧ _ ∧ _))
  | .number _ => inferInstanceAs (Decidable (_ < _))
  | .text _ => inferInstanceAs (Decidable True)

/-- The operand as a listing writes it. -/
def written : Operand → OperandText
  | .member m => .member false m.valueType.fullName m.owner.fullName m.name
      (if m.kind = .field then none else some (m.params.map TypeId.fullName))
  | .type t => .name t.fullName
  | .number n => .number (toString n)
  | .text s => .string ("\"" ++ s ++ "\"")

theorem mapM_typeNamed {types : List TypeId} (h : ∀ t ∈ types, typeNamed t.fullName = .ok t) :
    (types.map TypeId.fullName).mapM (fun name => orFault typeFault (typeNamed name)) = .ok types := by
  have hread := mapM_eq_ok_of_forall id fun t ht => congrArg (orFault typeFault) (h t ht)
  rw [List.mapM_map]
  rwa [List.map_id] at hread

theorem Legible.written_wellFormed {mnemonic : String} {operand : Operand} (h : operand.Legible mnemonic)
    (hc : operand.Canonical) : operand.written.WellFormed := by
  cases operand with
  | member m =>
    obtain ⟨-, hname, hnames, -⟩ := h
    obtain ⟨-, hinstance, -⟩ := hc
    refine ⟨hnames _ (by simp [Signature.types]), fun _ => hinstance, hnames _ (by simp [Signature.types]), hname, ?_⟩
    intro names hlist text htext
    split at hlist
    · cases hlist
    · obtain rfl := Option.some.inj hlist
      obtain ⟨t, ht, rfl⟩ := List.mem_map.1 htext
      exact hnames t (by simp [Signature.types, ht])
  | type t => exact ⟨h.2, hc.2.2⟩
  | number n => exact (numberOperand_toString hc).1
  | text s => exact h

/-- **An operand that is written again is read as itself.** -/
theorem Legible.operandOf_written {mnemonic : String} {operand : Operand} (h : operand.Legible mnemonic)
    (hc : operand.Canonical) : operandOf mnemonic operand.written = .ok operand := by
  cases operand with
  | member m =>
    obtain ⟨hplain, -, -, hkind⟩ := h
    obtain ⟨howner, hread⟩ := List.forall_mem_cons.1 (List.forall_mem_cons.1 hc.1).2
    have hvalue := hc.1 m.valueType List.mem_cons_self
    have hparams := mapM_typeNamed hread
    rw [← hplain] at hkind ⊢
    obtain ⟨⟨kind, owner, name, params, valueType⟩, role, isStatic⟩ := m
    dsimp only [Member.plain] at *
    unfold written operandOf
    dsimp only
    rcases hkind with ⟨rfl, rfl⟩ | ⟨rfl, hmethod⟩
    · rw [if_pos rfl, ite_self, howner, hvalue]
      rfl
    · simp only [hmethod, Bool.false_eq_true, reduceCtorEq, if_false, howner, hvalue, hparams]
      rfl
  | type t =>
    unfold written operandOf
    dsimp only
    rw [hc.2.1]
    dsimp only
    rw [if_pos h.1, hc.1]
    rfl
  | number n =>
    show orFault .numeral (numberOperand (toString n)) = _
    rw [(numberOperand_toString hc).2]
    rfl
  | text s =>
    show Except.ok (Operand.text (String.ofList ("\"" ++ s ++ "\"").toList.tail.dropLast)) = _
    rw [toList_quotes, List.tail_cons, List.dropLast_concat, String.ofList_toList]

/-! ## Operands in lines -/

theorem exists_words_written (operand : Operand) :
    ∃ next rest, operand.written.words = next :: rest ∧ next.isJoint = false ∧ next.terminal ≠ .literal "::" := by
  cases operand with
  | member m => exact ⟨_, _, rfl, rfl, nofun⟩
  | type t => exact ⟨_, _, rfl, rfl, nofun⟩
  | number n => exact ⟨_, _, rfl, rfl, nofun⟩
  | text s => exact ⟨_, _, rfl, rfl, nofun⟩

theorem Legible.render_eq {mnemonic : String} {operand : Operand} (h : operand.Legible mnemonic)
    (hc : operand.Canonical) : operand.render = .ok (lineOf operand.written.words) := by
  cases operand with
  | member m =>
    obtain ⟨-, -, -, hkind⟩ := h
    refine congrArg Except.ok (String.toList_inj.1 ?_)
    unfold written
    rw [lineOf, String.toList_ofList, inLine_member]
    unfold Member.text Signature.text
    rcases hkind with ⟨hkind, -⟩ | ⟨hkind, -⟩
    · rw [hkind, if_pos rfl]
      simp
    · rw [hkind, if_neg (by decide)]
      simp
  | type t => exact congrArg Except.ok String.ofList_toList.symm
  | number n =>
    have hn : n.natAbs < Text.unwritableFrom := hc
    show Text.writeDecimal n = .ok (String.ofList (toString n).toList)
    rw [Text.writeDecimal, if_pos hn, String.ofList_toList]
  | text s =>
    show _ = Except.ok (String.ofList ("\"" ++ s ++ "\"").toList)
    rw [String.ofList_toList]
    rfl

theorem Canonical.clear_written {operand : Operand} (hc : operand.Canonical) : Clear operand.written.words := by
  cases operand with
  | member m => exact clear_member hc.2.2 _ _ _
  | type t => exact List.isChain_singleton _
  | number n => exact List.isChain_singleton _
  | text s => exact List.isChain_singleton _

end Operand

end StubClosure
