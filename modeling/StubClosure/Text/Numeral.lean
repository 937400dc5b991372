import StubClosure.Text.Blank
import StubClosure.Text.Cut
import StubClosure.Text.Digit
import StubClosure.Text.Quoted

/-!
# Numerals

Reading whole numbers from their digits and writing them. A decimal numeral has at most `maxDigits` digits, whether it is read or written, and may be read in the decimal digits of any script; a hexadecimal numeral may be of any length.
-/

namespace StubClosure.Text

/-- The length of the longest decimal numeral. -/
def maxDigits : Nat := 4300

/-- Why a text is no decimal numeral, or a number has none. -/
inductive NumeralError where
  | tooLong (digits : Nat)
  | notDecimal (text : String)
  | unwritable
  deriving DecidableEq, Repr

/-- The reason in words. Of an offending text at most two hundred characters are shown. -/
def NumeralError.message : NumeralError → String
  | .tooLong digits =>
    s!"Exceeds the limit ({maxDigits} digits) for integer string conversion: value has {digits} digits; use sys.set_int_max_str_digits() to increase the limit"
  | .notDecimal text =>
    "invalid literal for int() with base 10: " ++ String.ofList ((quoted text).toList.take 200)
  | .unwritable =>
    s!"Exceeds the limit ({maxDigits} digits) for integer string conversion; use sys.set_int_max_str_digits() to increase the limit"

/-- The number that a row of digit values stands for in a base, after the digits already read. -/
def valueOf (base : Nat) (digits : List Nat) : Nat := digits.foldl (fun value digit => value * base + digit) 0

/-- The number written by decimal digits. The length is judged before anything else, by the digits that come first. -/
def readDecimal (cs : List Char) : Except NumeralError Nat :=
  let digits := cs.takeWhile isDecimal
  if maxDigits < digits.length then .error (.tooLong digits.length)
  else if digits.length < cs.length ∨ cs.isEmpty then .error (.notDecimal (String.ofList cs))
  else .ok (valueOf 10 (digits.map fun c => (decimalValue? c).getD 0))

/-- Blank at the ends of a number. The information separators are not. -/
def isNumberBlank (c : Char) : Bool := isBlank c && !inRanges [(0x1c, 0x1f)] c

/-- A whole number as people write it: blanks around it, a sign, single underscores between digits. -/
def readInteger? (cs : List Char) : Option Int :=
  let cs := ((cs.dropWhile isNumberBlank).reverse.dropWhile isNumberBlank).reverse
  match cs with
  | '-' :: digits => (magnitude? digits).map fun n => -Int.ofNat n
  | '+' :: digits => (magnitude? digits).map Int.ofNat
  | digits => (magnitude? digits).map Int.ofNat
where
  /-- The number without its sign. -/
  magnitude? (digits : List Char) : Option Nat :=
    let (first, others) := pieces '_' digits
    if (first :: others).all (· ≠ []) then (readDecimal (first :: others).flatten).toOption else none

/-- The number written by hexadecimal digits. -/
def readHex (cs : List Char) : Nat := valueOf 16 (cs.map hexValue)

/-- The first number whose numeral is too long. -/
def unwritableFrom : Nat := Nat.pow 10 maxDigits

theorem lt_unwritableFrom {n : Nat} (h : n ≤ maxDigits) : n < unwritableFrom := by
  unfold unwritableFrom
  generalize maxDigits = digits at h ⊢
  exact Nat.lt_of_le_of_lt h (Nat.lt_pow_self (by decide))

theorem valueOf_lt {base : Nat} {digits : List Nat} (h : ∀ d ∈ digits, d < base) :
    valueOf base digits < Nat.pow base digits.length := by
  suffices hfrom : ∀ value, digits.foldl (fun value digit => value * base + digit) value <
      (value + 1) * base ^ digits.length by
    exact Nat.lt_of_lt_of_eq (hfrom 0) (Nat.one_mul _)
  induction digits with
  | nil => simp
  | cons d rest ih =>
    intro value
    have hstep : value * base + d + 1 ≤ (value + 1) * base := by
      rw [Nat.add_mul, Nat.one_mul]
      exact Nat.add_lt_add_left (h d List.mem_cons_self) _
    rw [List.foldl_cons, List.length_cons, Nat.pow_succ, Nat.mul_comm (base ^ rest.length), ← Nat.mul_assoc]
    exact Nat.lt_of_lt_of_le (ih (fun other ho => h other (List.mem_cons_of_mem _ ho)) _) (Nat.mul_le_mul_right _ hstep)

/-- What can be read can be written. -/
theorem lt_unwritableFrom_of_readDecimal {cs : List Char} {n : Nat} (h : readDecimal cs = .ok n) :
    n < unwritableFrom := by
  unfold readDecimal at h
  dsimp only at h
  split at h
  · cases h
  next hshort =>
    split at h
    · cases h
    · obtain rfl := Except.ok.inj h
      have hvalues : ∀ d ∈ (cs.takeWhile isDecimal).map fun c => (decimalValue? c).getD 0, d < 10 := by
        intro d hd
        obtain ⟨c, -, rfl⟩ := List.mem_map.1 hd
        cases hc : decimalValue? c with
        | none => exact (by decide : 0 < 10)
        | some value => exact decimalValue?_lt hc
      have hlt := valueOf_lt hvalues
      rw [List.length_map] at hlt
      unfold unwritableFrom
      generalize maxDigits = most at hshort
      exact Nat.lt_of_lt_of_le hlt (Nat.pow_le_pow_right (by decide) (Nat.le_of_not_lt hshort))

/-- The decimal numeral of a number. -/
def writeDecimal (n : Int) : Except NumeralError String :=
  if n.natAbs < unwritableFrom then .ok (toString n) else .error .unwritable

theorem writeDecimal_of_lt {n : Int} (h : n.natAbs < unwritableFrom) : writeDecimal n = .ok (toString n) := by
  rw [writeDecimal, if_pos h]

theorem writeDecimal_of_le {n : Int} (h : unwritableFrom ≤ n.natAbs) : writeDecimal n = .error .unwritable := by
  rw [writeDecimal, if_neg (Nat.not_lt.2 h)]

/-- A number in hexadecimal, the sign included at least four characters wide, with zeros after the sign. -/
def hexFour (n : Int) : String :=
  let digits := Nat.toDigits 16 n.natAbs
  if n < 0 then String.ofList ('-' :: (List.replicate (3 - digits.length) '0' ++ digits))
  else String.ofList (List.replicate (4 - digits.length) '0' ++ digits)

end StubClosure.Text
