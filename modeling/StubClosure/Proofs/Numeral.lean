import Mathlib.Algebra.Group.Nat.Defs
import Mathlib.Data.List.Induction
import Mathlib.Data.List.TakeWhile
import StubClosure.Text.Numeral
import StubClosure.Text.Quoted

/-!
# Numerals and numbers

Writing a number and reading its digits gives the number back (`valueOf_toDigits`), and reading digits and writing the number gives them back if there is no zero in front (`toDigits_valueOf`). Both hold in any base whose digits have the values that they should have, and so of decimal and of hexadecimal numerals.
-/

namespace StubClosure.Text

/-! ## Digits in any base -/

section
variable {base : Nat} {value : Char → Nat}

theorem valueOf_concat (digits : List Nat) (d : Nat) : valueOf base (digits ++ [d]) = valueOf base digits * base + d := by
  simp [valueOf]

theorem valueOf_zeros (count : Nat) (digits : List Nat) :
    valueOf base (List.replicate count 0 ++ digits) = valueOf base digits := by
  have hzeros : (List.replicate count 0).foldl (fun value digit => value * base + digit) 0 = 0 := by
    induction count with
    | zero => rfl
    | succ count ih => simpa [List.replicate_succ] using ih
  unfold valueOf
  rw [List.foldl_append, hzeros]

theorem valueOf_toDigits (hb : 1 < base) (hv : ∀ d < base, value d.digitChar = d) (n : Nat) :
    valueOf base ((Nat.toDigits base n).map value) = n := by
  induction n using Nat.strongRecOn with
  | ind n ih =>
    by_cases hn : n < base
    · rw [Nat.toDigits_of_lt_base hn]
      simp [valueOf, hv n hn]
    · have hle : base ≤ n := Nat.le_of_not_lt hn
      have hless : n / base < n := Nat.div_lt_self (by omega) hb
      have hlast : n % base < base := Nat.mod_lt n (by omega)
      rw [Nat.toDigits_of_base_le hb hle, List.map_append, List.map_singleton, valueOf_concat, ih _ hless, hv _ hlast,
        Nat.mul_comm]
      exact Nat.div_add_mod n base

theorem toDigits_valueOf (hb : 1 < base) {cs : List Char} (hv : ∀ c ∈ cs, value c < base ∧ (value c).digitChar = c)
    (hne : cs ≠ []) (hz : cs.head? ≠ some '0') : Nat.toDigits base (valueOf base (cs.map value)) = cs := by
  induction cs using List.reverseRecOn with
  | nil => exact absurd rfl hne
  | append_singleton front c ih =>
    obtain ⟨hlt, hchar⟩ := hv c (by simp)
    rw [List.map_append, List.map_singleton, valueOf_concat]
    by_cases hfront : front = []
    · subst hfront
      rw [List.map_nil, show valueOf base [] = 0 from rfl, Nat.zero_mul, Nat.zero_add, Nat.toDigits_of_lt_base hlt, hchar]
      rfl
    · have hhead : front.head? ≠ some '0' := by
        obtain ⟨first, rest, rfl⟩ := List.exists_cons_of_ne_nil hfront
        exact hz
      have hdigits := ih (fun d hd => hv d (List.mem_append_left _ hd)) hfront hhead
      have hpos : 0 < valueOf base (front.map value) := by
        refine Nat.pos_of_ne_zero fun hzero => hhead ?_
        rw [← hdigits, hzero, Nat.toDigits_zero]
        rfl
      rw [Nat.mul_comm, ← Nat.toDigits_append_toDigits hb hpos hlt, hdigits, Nat.toDigits_of_lt_base hlt, hchar]

end

/-! ## Decimal numerals -/

/-- The value of a decimal digit, zero for any other character. -/
def digitValue (c : Char) : Nat := (decimalValue? c).getD 0

theorem digitValue_of_isDigit {c : Char} (h : c.isDigit = true) : digitValue c = c.toNat - '0'.toNat := by
  rw [digitValue, decimalValue?_of_isDigit h]
  rfl

theorem digitChar_digitValue {c : Char} (h : c.isDigit = true) : digitValue c < 10 ∧ (digitValue c).digitChar = c := by
  rw [digitValue_of_isDigit h]
  have hc : 48 ≤ c.toNat ∧ c.toNat ≤ 57 := by
    simpa [Char.isDigit, UInt32.le_iff_toNat_le] using h
  have hlt : c.toNat - '0'.toNat < 10 := by
    show c.toNat - 48 < 10
    omega
  refine ⟨hlt, Char.toNat_inj.1 ?_⟩
  rw [Nat.toNat_digitChar_of_lt_ten hlt]
  show 48 + (c.toNat - 48) = c.toNat
  omega

theorem readDecimal_of_isDigit {cs : List Char} (hne : cs ≠ []) (hd : ∀ c ∈ cs, c.isDigit = true)
    (hl : cs.length ≤ maxDigits) : readDecimal cs = .ok (valueOf 10 (cs.map digitValue)) := by
  have hdecimal : ∀ c ∈ cs, isDecimal c = true := by
    intro c hc
    rw [isDecimal, decimalValue?_of_isDigit (hd c hc)]
    rfl
  have hempty : cs.isEmpty = false := by simpa using hne
  unfold readDecimal
  dsimp only
  rw [List.takeWhile_eq_self_iff.2 hdecimal, if_neg (Nat.not_lt.2 hl), if_neg (by simp [hempty])]
  rfl

theorem lt_unwritableFrom_iff {n : Nat} : n < unwritableFrom ↔ (Nat.toDigits 10 n).length ≤ maxDigits := by
  have hpos : 0 < maxDigits := by decide
  unfold unwritableFrom
  generalize maxDigits = digits at hpos ⊢
  exact (Nat.length_toDigits_le_iff (by decide) hpos).symm

theorem readDecimal_toDigits {n : Nat} (h : n < unwritableFrom) : readDecimal (Nat.toDigits 10 n) = .ok n := by
  have hdigits : ∀ c ∈ Nat.toDigits 10 n, c.isDigit = true := fun c =>
    Nat.isDigit_of_mem_toDigits (by decide) (by decide)
  rw [readDecimal_of_isDigit Nat.toDigits_ne_nil hdigits (lt_unwritableFrom_iff.1 h),
    valueOf_toDigits (by decide) (by decide)]

theorem toDigits_inj {n m : Nat} (h : Nat.toDigits 10 n = Nat.toDigits 10 m) : n = m := by
  have hread := congrArg (Nat.ofDigitChars 10 · 0) h
  simpa only [Nat.ofDigitChars_toDigits (show 1 < 10 by decide) (show 10 ≤ 10 by decide)] using hread

theorem minus_not_mem_toDigits (n : Nat) : '-' ∉ Nat.toDigits 10 n := fun hmem =>
  absurd (Nat.isDigit_of_mem_toDigits (by decide) (by decide) hmem) (by decide)

theorem toList_toString (n : Int) : (toString n).toList =
    if 0 ≤ n then Nat.toDigits 10 n.toNat else '-' :: Nat.toDigits 10 (-n).toNat := by
  rw [Int.toString_eq_repr, Int.repr_eq_if]
  split
  · exact Nat.toList_repr
  · rw [String.toList_append, Nat.toList_repr]
    rfl

theorem eq_of_toString_eq {n m : Int} (h : (toString n).toList = (toString m).toList) : n = m := by
  rw [toList_toString, toList_toString] at h
  split at h <;> split at h
  · have := toDigits_inj h
    omega
  · exact absurd (h ▸ List.mem_cons_self) (minus_not_mem_toDigits n.toNat)
  · exact absurd (h ▸ List.mem_cons_self) (minus_not_mem_toDigits m.toNat)
  · have := toDigits_inj (List.cons.inj h).2
    omega

/-! ## Hexadecimal numerals -/

theorem isHex_of_mem_toDigits {n : Nat} : ∀ c ∈ Nat.toDigits 16 n, isHex c = true := by
  have hdigit : ∀ d < 16, isHex d.digitChar = true := by decide
  induction n using Nat.strongRecOn with
  | ind n ih =>
    by_cases hn : n < 16
    · rw [Nat.toDigits_of_lt_base hn]
      simpa using hdigit n hn
    · have hless : n / 16 < n := Nat.div_lt_self (by omega) (by decide)
      rw [Nat.toDigits_of_base_le (by decide) (Nat.le_of_not_lt hn), List.forall_mem_append]
      exact ⟨ih _ hless, by simpa using hdigit _ (Nat.mod_lt n (by decide))⟩

theorem toList_hexFour {n : Nat} : (hexFour n).toList =
    List.replicate (4 - (Nat.toDigits 16 n).length) '0' ++ Nat.toDigits 16 n := by
  unfold hexFour
  rw [if_neg (by omega), String.toList_ofList]
  rfl

theorem isHex_of_mem_hexFour {n : Nat} : ∀ c ∈ (hexFour n).toList, isHex c = true := by
  rw [toList_hexFour, List.forall_mem_append]
  refine ⟨fun c hc => ?_, isHex_of_mem_toDigits⟩
  rw [List.eq_of_mem_replicate hc]
  rfl

theorem hexFour_ne_nil {n : Nat} : (hexFour n).toList ≠ [] := by
  rw [toList_hexFour]
  exact List.append_ne_nil_of_right_ne_nil _ Nat.toDigits_ne_nil

theorem readHex_hexDigits (width n : Nat) : readHex (hexDigits width n) = n := by
  unfold readHex hexDigits
  rw [List.map_append, List.map_replicate, show hexValue '0' = 0 from rfl, valueOf_zeros,
    valueOf_toDigits (by decide) (by decide)]

theorem readHex_hexFour (n : Nat) : readHex (hexFour n).toList = n := by
  rw [toList_hexFour]
  exact readHex_hexDigits 4 n

end StubClosure.Text
