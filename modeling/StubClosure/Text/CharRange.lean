/-!
# Character ranges

A character class is a table of closed ranges of code points. The modules beside this one hold the tables: blanks and line ends, decimal digits, characters that are shown escaped.
-/

namespace StubClosure.Text

/-- The character lies in one of the closed ranges of the table. -/
def inRanges (table : List (Nat × Nat)) (c : Char) : Bool :=
  table.any fun range => range.1 ≤ c.toNat && c.toNat ≤ range.2

end StubClosure.Text
