import StubClosure.Text.CharRange

/-!
# Blanks

The blank characters of Unicode text (white space and the four information separators), and text with the blanks at both ends removed.
-/

namespace StubClosure.Text

/-- The blank characters. -/
def blanks : List (Nat × Nat) :=
  [(0x09, 0x0d), (0x1c, 0x20), (0x85, 0x85), (0xa0, 0xa0), (0x1680, 0x1680), (0x2000, 0x200a),
   (0x2028, 0x2029), (0x202f, 0x202f), (0x205f, 0x205f), (0x3000, 0x3000)]

def isBlank (c : Char) : Bool := inRanges blanks c

/-- The text without the blanks at its start. -/
def trimStart (cs : List Char) : List Char := cs.dropWhile isBlank

/-- The text without the blanks at either end. -/
def trim (cs : List Char) : List Char := (trimStart (trimStart cs).reverse).reverse

/-- Neither end of the text is blank. -/
def IsTrimmed (cs : List Char) : Prop := trim cs = cs

instance (cs : List Char) : Decidable (IsTrimmed cs) := inferInstanceAs (Decidable (trim cs = cs))

end StubClosure.Text
