import StubClosure.Text.CharRange

/-!
# Lines

Text as a sequence of lines. A line ends at any of Unicode's line separators; a carriage return and the line feed after it end one line together. The ends are no part of the lines, and text after the last end is a line of its own unless it is empty.
-/

namespace StubClosure.Text

/-- The characters that end a line. -/
def lineEnds : List (Nat × Nat) := [(0x0a, 0x0d), (0x1c, 0x1e), (0x85, 0x85), (0x2028, 0x2029)]

def isLineEnd (c : Char) : Bool := inRanges lineEnds c

/-- Puts a character in front of the first line. -/
def consFirst (c : Char) : List (List Char) → List (List Char)
  | [] => [[c]]
  | line :: lines => (c :: line) :: lines

/-- The lines of a text. -/
def lines : List Char → List (List Char)
  | [] => []
  | '\r' :: '\n' :: rest => [] :: lines rest
  | c :: rest => if isLineEnd c then [] :: lines rest else consFirst c (lines rest)

/-- Text as it is read from a file: every carriage return, with or without a line feed after it, stands for one line feed. -/
def plainNewlines : List Char → List Char
  | [] => []
  | '\r' :: '\n' :: rest => '\n' :: plainNewlines rest
  | c :: rest => (if c = '\r' then '\n' else c) :: plainNewlines rest

end StubClosure.Text
