import Mathlib.Data.List.TakeWhile
import StubClosure.Listing.Lexeme

/-!
# Lexemes and what comes after them

A recogniser takes what it can, so where a lexeme ends depends on what comes after it. Each class of lexemes is told here together with the texts in front of which they end: a run of characters, or a name, ends where another character comes, a label and a string by themselves, and a number (`IsNumber`) as far as the next two characters do not continue it. Blanks and comments end all of these, but for comments after names.
-/

namespace StubClosure.Listing

/-! ## Runs of characters -/

/-- The text begins with no character of the class. -/
def Leaves (isMember : Char → Bool) (rest : List Char) : Prop := ∀ c ∈ rest.head?, isMember c = false

/-- A run of characters of the class. -/
def IsRun (isMember : Char → Bool) (w : List Char) : Prop := w ≠ [] ∧ ∀ c ∈ w, isMember c = true

instance (isMember : Char → Bool) (w : List Char) : Decidable (IsRun isMember w) :=
  decidable_of_iff (w ≠ [] ∧ w.all isMember = true) (and_congr_right fun _ => List.all_eq_true)

/-- The text after a word: none, or a blank and more. -/
def EndsWord (rest : List Char) : Prop := rest = [] ∨ ∃ c more, isSpace c = true ∧ rest = c :: more

/-- A text that blanks or a comment begin, or none at all. -/
def Parts (rest : List Char) : Prop := ∀ c ∈ rest.head?, isSpace c = true ∨ c = '/'

/-- There are few blanks, so what holds of every blank can be told by going through them. -/
theorem forall_isSpace {P : Char → Prop} (h : P ' ' ∧ P '\t' ∧ P '\x0c' ∧ P '\r' ∧ P '\n') :
    ∀ c, isSpace c = true → P c := by
  intro c hc
  simp only [isSpace, Bool.or_eq_true, decide_eq_true_eq] at hc
  grind

theorem EndsWord.parts {rest : List Char} (h : EndsWord rest) : Parts rest := by
  rintro c hc
  rcases h with rfl | ⟨blank, more, hb, rfl⟩
  · cases hc
  · obtain rfl := Option.some.inj hc
    exact .inl hb

theorem EndsWord.leaves {rest : List Char} (h : EndsWord rest) : Leaves isNameChar rest := by
  have hblank : ∀ c, isSpace c = true → isNameChar c = false := forall_isSpace (by decide)
  rintro c hc
  rcases h with rfl | ⟨blank, more, hb, rfl⟩
  · cases hc
  · obtain rfl := Option.some.inj hc
    exact hblank _ hb

section
variable {isMember : Char → Bool} {rest w before after : List Char}

theorem Parts.leaves (h : Parts rest)
    (hm : isMember ' ' = false ∧ isMember '\t' = false ∧ isMember '\x0c' = false ∧ isMember '\r' = false ∧
      isMember '\n' = false) (hslash : isMember '/' = false) : Leaves isMember rest := by
  intro c hc
  rcases h c hc with hb | rfl
  · exact forall_isSpace (P := fun c => isMember c = false) hm c hb
  · exact hslash

theorem Leaves.swap (h : Leaves isMember (before ++ after)) (hr : Leaves isMember rest) :
    Leaves isMember (before ++ rest) := by
  cases before with
  | nil => exact hr
  | cons c cs => exact h

@[simp] theorem leaves_cons {c : Char} : Leaves isMember (c :: rest) ↔ isMember c = false := by
  simp [Leaves]

theorem run?_append_iff : run? isMember (w ++ rest) = some (w, rest) ↔ IsRun isMember w ∧ Leaves isMember rest := by
  have htake : (∀ c ∈ w, isMember c = true) → Leaves isMember rest →
      (w ++ rest).takeWhile isMember = w ∧ (w ++ rest).dropWhile isMember = rest := by
    intro hw hr
    rw [List.takeWhile_append_of_pos hw, List.dropWhile_append_of_pos hw]
    cases rest with
    | nil => exact ⟨List.append_nil w, rfl⟩
    | cons c cs =>
      have hc := hr c rfl
      simp [hc]
  constructor
  · intro h
    unfold run? at h
    split at h
    · cases h
    next run hne =>
      obtain ⟨ht, hd⟩ := Prod.mk.inj (Option.some.inj h)
      refine ⟨⟨fun hw => hne (ht.trans hw), fun c hc => ?_⟩, fun c hc => ?_⟩
      · rw [← ht] at hc
        exact List.mem_takeWhile_imp hc
      · have hnot := List.head?_dropWhile_not isMember (w ++ rest)
        rw [hd, Option.mem_def.1 hc] at hnot
        exact hnot
  · rintro ⟨⟨hne, hw⟩, hr⟩
    obtain ⟨ht, hd⟩ := htake hw hr
    unfold run?
    rw [ht, hd]
    cases w with
    | nil => exact absurd rfl hne
    | cons c cs => rfl

theorem run?_eq_some_iff {cs : List Char} : run? isMember cs = some (w, rest) ↔
    cs = w ++ rest ∧ IsRun isMember w ∧ Leaves isMember rest := by
  constructor
  · intro h
    have hsplit : w ++ rest = cs := (run?_splits h).1
    rw [← hsplit] at h
    exact ⟨hsplit.symm, run?_append_iff.1 h⟩
  · rintro ⟨rfl, h⟩
    exact run?_append_iff.2 h

theorem run?_eq_none_iff : run? isMember rest = none ↔ Leaves isMember rest := by
  unfold run? Leaves
  cases rest with
  | nil => simp
  | cons c cs => by_cases hc : isMember c = true <;> simp [hc]

end


theorem lexemes_of_blank {c : Char} (h : isSpace c = true ∨ c = '/') (cs : List Char) :
    label? (c :: cs) = none ∧ number? (c :: cs) = none ∧ name? (c :: cs) = none ∧ string? (c :: cs) = none := by
  simp only [isSpace, Bool.or_eq_true, decide_eq_true_eq] at h
  rcases h with ((((rfl | rfl) | rfl) | rfl) | rfl) | rfl <;> exact ⟨rfl, rfl, rfl, rfl⟩

/-! ## Labels and names -/

section
variable {w before after rest : List Char}

theorem label?_append {cs : List Char} {cut : Cutting} (h : label? cs = some cut) (rest : List Char) :
    label? (cut.1 ++ rest) = some (cut.1, rest) := by
  rw [label?.eq_def] at h
  split at h
  next left =>
    split at h
    next digits more hrun =>
      obtain ⟨-, hdigits, -⟩ := run?_eq_some_iff.1 hrun
      have hlong : run? Text.isHex (digits ++ ':' :: rest) = some (digits, ':' :: rest) :=
        run?_append_iff.2 ⟨hdigits, leaves_cons.2 (by decide)⟩
      obtain rfl := Option.some.inj h
      simp [label?, hlong]
    · cases h
  · cases h

theorem isNameChar_of_isNameStart {c : Char} (h : isNameStart c = true) : isNameChar c = true := by
  simp [isNameChar, h]

theorem name?_eq_some_iff {cs : List Char} : name? cs = some (w, rest) ↔
    cs = w ++ rest ∧ (∃ c ∈ w.head?, isNameStart c = true) ∧ (∀ c ∈ w, isNameChar c = true) ∧ Leaves isNameChar rest := by
  have hrun : ∀ c cs, isNameStart c = true → name? (c :: cs) = run? isNameChar (c :: cs) := by
    intro c cs hc
    have hchar := isNameChar_of_isNameStart hc
    rw [name?, if_pos hc, run?, List.takeWhile_cons_of_pos hchar, List.dropWhile_cons_of_pos hchar]
  constructor
  · intro h
    cases cs with
    | nil => cases h
    | cons c cs =>
      by_cases hc : isNameStart c = true
      · rw [hrun c cs hc, run?_eq_some_iff] at h
        obtain ⟨hsplit, ⟨hne, hall⟩, hleaves⟩ := h
        refine ⟨hsplit, ?_, hall, hleaves⟩
        cases w with
        | nil => exact absurd rfl hne
        | cons d ds =>
          obtain rfl := (List.cons.inj hsplit).1
          exact ⟨c, rfl, hc⟩
      · rw [name?, if_neg hc] at h
        cases h
  · rintro ⟨rfl, ⟨c, hhead, hc⟩, hall, hleaves⟩
    cases w with
    | nil => cases hhead
    | cons d ds =>
      obtain rfl := Option.some.inj hhead
      rw [List.cons_append, hrun d _ hc, ← List.cons_append]
      exact run?_append_iff.2 ⟨⟨List.cons_ne_nil d ds, hall⟩, hleaves⟩

end

/-! ## Numbers -/

section
variable {w before after rest : List Char}

/-- Decimal digits with an optional fraction, when they are followed by the given text. -/
inductive IsDecimal (rest : List Char) : List Char → Prop where
  | whole {digits : List Char} : IsRun Char.isDigit digits → Leaves Char.isDigit rest →
      (∀ more, rest = '.' :: more → Leaves Char.isDigit more) → IsDecimal rest digits
  | fraction {digits fraction : List Char} : IsRun Char.isDigit digits → IsRun Char.isDigit fraction →
      Leaves Char.isDigit rest → IsDecimal rest (digits ++ '.' :: fraction)

/-- A number without a sign, when it is followed by the given text. -/
inductive IsUnsigned (rest : List Char) : List Char → Prop where
  | hex {digits : List Char} : IsRun Text.isHex digits → Leaves Text.isHex rest → IsUnsigned rest ('0' :: 'x' :: digits)
  | decimal {digits : List Char} : IsDecimal rest digits →
      (digits = ['0'] → ∀ more, rest = 'x' :: more → Leaves Text.isHex more) → IsUnsigned rest digits

/-- A number, when it is followed by the given text. -/
inductive IsNumber (rest : List Char) : List Char → Prop where
  | plain {digits : List Char} : IsUnsigned rest digits → IsNumber rest digits
  | negative {digits : List Char} : IsUnsigned rest digits → IsNumber rest ('-' :: digits)

theorem isDecimal_of_decimal? {cs : List Char} (h : decimal? cs = some (w, rest)) : IsDecimal rest w := by
  unfold decimal? at h
  split at h
  · cases h
  next digits left hrun =>
    obtain ⟨-, hdigits, hleft⟩ := run?_eq_some_iff.1 hrun
    split at h
    next fraction left' hfraction =>
      obtain ⟨rfl, rfl⟩ := Prod.mk.inj (Option.some.inj h)
      obtain ⟨-, hf, hleaves⟩ := run?_eq_some_iff.1 hfraction
      exact .fraction hdigits hf hleaves
    next hfraction =>
      obtain ⟨rfl, rfl⟩ := Prod.mk.inj (Option.some.inj h)
      refine .whole hdigits hleft ?_
      rintro more hmore
      obtain rfl := (List.cons.inj hmore).2
      exact run?_eq_none_iff.1 hfraction
  next cut hpoint hrun =>
    obtain rfl := Option.some.inj h
    obtain ⟨-, hdigits, hleft⟩ := run?_eq_some_iff.1 hrun
    exact .whole hdigits hleft fun more hmore => absurd (hmore ▸ rfl) (hpoint w more)

theorem IsDecimal.decimal?_append (h : IsDecimal rest w) : decimal? (w ++ rest) = some (w, rest) := by
  cases h with
  | whole hdigits hleft hpoint =>
    unfold decimal?
    rw [run?_append_iff.2 ⟨hdigits, hleft⟩]
    split
    next heq => cases heq
    next digits more heq =>
      obtain ⟨rfl, rfl⟩ := Prod.mk.inj (Option.some.inj heq)
      rw [run?_eq_none_iff.2 (hpoint more rfl)]
    next heq => exact heq.symm
  | @fraction digits fraction hdigits hfraction hleft =>
    have hpoint : Leaves Char.isDigit ('.' :: (fraction ++ rest)) := leaves_cons.2 (by decide)
    unfold decimal?
    rw [List.append_assoc, List.cons_append, run?_append_iff.2 ⟨hdigits, hpoint⟩]
    simp only [run?_append_iff.2 ⟨hfraction, hleft⟩]

theorem IsDecimal.exists_cons (h : IsDecimal rest w) :
    ∃ c cs, w = c :: cs ∧ c.isDigit = true ∧ ∀ d ∈ cs, d ≠ 'x' := by
  have hdigits : ∀ digits, IsRun Char.isDigit digits → ∃ c cs, digits = c :: cs ∧ c.isDigit = true ∧ ∀ d ∈ cs, d ≠ 'x' := by
    rintro (_ | ⟨c, cs⟩) ⟨hne, hall⟩
    · exact absurd rfl hne
    · refine ⟨c, cs, rfl, hall c List.mem_cons_self, ?_⟩
      rintro d hd rfl
      exact absurd (hall 'x' (List.mem_cons_of_mem c hd)) (by decide)
  cases h with
  | whole h _ _ => exact hdigits w h
  | fraction h hfraction _ =>
    obtain ⟨c, cs, rfl, hc, hcs⟩ := hdigits _ h
    refine ⟨c, _, rfl, hc, ?_⟩
    intro d hd
    rcases List.mem_append.1 hd with hd | hd
    · exact hcs d hd
    · rcases List.mem_cons.1 hd with rfl | hd
      · decide
      · rintro rfl
        exact absurd (hfraction.2 'x' hd) (by decide)

theorem IsUnsigned.exists_cons (h : IsUnsigned rest w) : ∃ c cs, w = c :: cs ∧ c.isDigit = true := by
  cases h with
  | hex => exact ⟨'0', _, rfl, by decide⟩
  | decimal h =>
    obtain ⟨c, cs, hw, hc, -⟩ := h.exists_cons
    exact ⟨c, cs, hw, hc⟩

theorem isUnsigned_of_unsigned? {cs : List Char} (h : unsigned? cs = some (w, rest)) : IsUnsigned rest w := by
  have hsplit : w ++ rest = cs := (unsigned?_splits h).1
  by_cases hx : ∃ left, cs = '0' :: 'x' :: left
  · obtain ⟨left, rfl⟩ := hx
    rw [unsigned?] at h
    split at h
    next cut hrun =>
      obtain ⟨-, hdigits, hleaves⟩ := run?_eq_some_iff.1 hrun
      obtain ⟨rfl, rfl⟩ := Prod.mk.inj (Option.some.inj h)
      exact .hex hdigits hleaves
    next hrun =>
      obtain ⟨rfl, rfl⟩ := Prod.mk.inj (Option.some.inj h)
      refine .decimal (.whole ⟨by decide, List.forall_mem_singleton.2 rfl⟩ (leaves_cons.2 (by decide)) ?_) ?_
      · rintro more hmore
        cases hmore
      · rintro - more hmore
        obtain rfl := (List.cons.inj hmore).2
        exact run?_eq_none_iff.1 hrun
  · have hdecimal : decimal? cs = some (w, rest) := by
      rw [← h, unsigned?.eq_def]
      split
      next left => exact absurd ⟨left, rfl⟩ hx
      · rfl
    refine .decimal (isDecimal_of_decimal? hdecimal) ?_
    rintro rfl more rfl
    exact absurd ⟨more, hsplit.symm⟩ hx

theorem IsUnsigned.unsigned?_append (h : IsUnsigned rest w) : unsigned? (w ++ rest) = some (w, rest) := by
  cases h with
  | hex hdigits hleaves =>
    simp only [List.cons_append, unsigned?, run?_append_iff.2 ⟨hdigits, hleaves⟩]
    rfl
  | decimal hdecimal hzero =>
    rw [unsigned?.eq_def]
    split
    next left heq =>
      -- a zero in front of an x is a number by itself, for no digit comes after the x
      obtain ⟨c, cs, rfl, -, hcs⟩ := hdecimal.exists_cons
      obtain ⟨rfl, hleft⟩ := List.cons.inj heq
      cases cs with
      | nil =>
        obtain rfl : rest = 'x' :: left := hleft
        rw [run?_eq_none_iff.2 (hzero rfl left rfl)]
      | cons d ds => exact absurd (List.cons.inj hleft).1 (hcs d List.mem_cons_self)
    · exact hdecimal.decimal?_append

theorem isNumber_of_number? {cs : List Char} (h : number? cs = some (w, rest)) : IsNumber rest w := by
  rw [number?.eq_def] at h
  split at h
  next left =>
    obtain ⟨⟨digits, left'⟩, hinner, heq⟩ := Option.map_eq_some_iff.1 h
    obtain ⟨rfl, rfl⟩ := Prod.mk.inj heq
    exact .negative (isUnsigned_of_unsigned? hinner)
  · exact .plain (isUnsigned_of_unsigned? h)

theorem IsNumber.number?_append (h : IsNumber rest w) : number? (w ++ rest) = some (w, rest) := by
  cases h with
  | negative hunsigned =>
    rw [List.cons_append, number?, hunsigned.unsigned?_append]
    rfl
  | plain hunsigned =>
    rw [number?.eq_def]
    split
    next left heq =>
      obtain ⟨c, cs, rfl, hc⟩ := hunsigned.exists_cons
      obtain rfl := (List.cons.inj heq).1
      cases hc
    · exact hunsigned.unsigned?_append

theorem IsDecimal.swap (h : IsDecimal (before ++ after) w) (hr : Parts rest) : IsDecimal (before ++ rest) w := by
  have hdigit : Leaves Char.isDigit rest := hr.leaves (by decide) (by decide)
  cases h with
  | whole hdigits hleaves hpoint =>
    refine .whole hdigits (hleaves.swap hdigit) ?_
    rintro more hmore
    cases before with
    | nil => exact absurd (hr '.' (by rw [← List.nil_append rest, hmore]; rfl)) (by decide)
    | cons c cs =>
      obtain ⟨rfl, rfl⟩ := List.cons.inj hmore
      exact (hpoint (cs ++ after) rfl).swap hdigit
  | fraction hdigits hfraction hleaves => exact .fraction hdigits hfraction (hleaves.swap hdigit)

theorem IsUnsigned.swap (h : IsUnsigned (before ++ after) w) (hr : Parts rest) : IsUnsigned (before ++ rest) w := by
  have hhex : Leaves Text.isHex rest := hr.leaves (by decide) (by decide)
  cases h with
  | hex hdigits hleaves => exact .hex hdigits (hleaves.swap hhex)
  | decimal hdecimal hzero =>
    refine .decimal (hdecimal.swap hr) ?_
    rintro hw more hmore
    cases before with
    | nil => exact absurd (hr 'x' (by rw [← List.nil_append rest, hmore]; rfl)) (by decide)
    | cons c cs =>
      obtain ⟨rfl, rfl⟩ := List.cons.inj hmore
      exact (hzero hw (cs ++ after) rfl).swap hhex

theorem IsNumber.swap (h : IsNumber (before ++ after) w) (hr : Parts rest) : IsNumber (before ++ rest) w := by
  cases h with
  | plain h => exact .plain (h.swap hr)
  | negative h => exact .negative (h.swap hr)

end

/-! ## Strings -/

theorem stringEnd?_append {cs : List Char} {cut : Cutting} (h : stringEnd? cs = some cut) (rest : List Char) :
    stringEnd? (cut.1 ++ rest) = some (cut.1, rest) := by
  fun_induction stringEnd? cs generalizing cut with
  | case1 => simp at h
  | case2 left =>
    cases h
    rfl
  | case3 => simp at h
  | case4 c left hc ih =>
    obtain ⟨inner, hinner, rfl⟩ := Option.map_eq_some_iff.1 h
    simp [stringEnd?, hc, ih hinner, after]
  | case5 => simp at h
  | case6 c left hquote hslash hlast ih =>
    obtain ⟨inner, hinner, rfl⟩ := Option.map_eq_some_iff.1 h
    have hback : c ≠ '\\' := by
      rintro rfl
      cases left with
      | nil => exact hlast rfl rfl
      | cons d left => exact hslash d left rfl rfl
    show stringEnd? (c :: (inner.1 ++ rest)) = some (c :: inner.1, rest)
    rw [stringEnd?.eq_def]
    simp [hback, ih hinner, after]

theorem string?_append {cs : List Char} {cut : Cutting} (h : string? cs = some cut) (rest : List Char) :
    string? (cut.1 ++ rest) = some (cut.1, rest) := by
  rw [string?.eq_def] at h
  split at h
  · obtain ⟨inner, hinner, rfl⟩ := Option.map_eq_some_iff.1 h
    simp [string?, stringEnd?_append hinner, after]
  · cases h

end StubClosure.Listing
