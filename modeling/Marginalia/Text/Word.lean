import Marginalia.Text.Basic
import Marginalia.Text.WordTable

/-!
# Word characters and decimal digits

Names of tags, keys and methods are runs of word characters; a field mask is written with decimal
digits of any script. The ASCII part is decided by arithmetic and the rest by a table of ranges.
-/

namespace Marginalia.Text

/-- Whether a code point lies in one of the ranges. -/
def inRanges (ranges : List (Nat × Nat)) (n : Nat) : Bool :=
  ranges.any fun (low, high) => low ≤ n && n ≤ high

/-- A letter, mark, decimal digit, connector or joiner. -/
def isWord (c : Char) : Bool :=
  if c.toNat < 0x80 then c.isAlphanum || c == '_' else inRanges wordRanges c.toNat

/-- A decimal digit of any script. -/
def isDecimal (c : Char) : Bool :=
  if c.toNat < 0x80 then c.isDigit else inRanges digitRanges c.toNat

/-- The letters and digits of ASCII are word characters. -/
theorem isWord_of_isAlphanum {c : Char} (h : c.isAlphanum = true) (hc : c.toNat < 0x80) :
    isWord c = true := by
  simp [isWord, hc, h]

end Marginalia.Text
