import Marginalia.Text.Basic

/-!
# Blank characters

The characters with the Unicode property White_Space, and what is cut at them: the ends of a
text, and its words.
-/

namespace Marginalia.Text

/-- The twenty-five characters with the property White_Space. -/
def isBlank (c : Char) : Bool :=
  let n := c.toNat
  (0x09 ≤ n && n ≤ 0x0D) || n == 0x20 || n == 0x85 || n == 0xA0 || n == 0x1680 ||
    (0x2000 ≤ n && n ≤ 0x200A) || n == 0x2028 || n == 0x2029 || n == 0x202F || n == 0x205F ||
    n == 0x3000

/-- The text from its first character that is not blank. -/
def trimStart (t : Text) : Text :=
  t.dropWhile isBlank

/-- The text up to its last character that is not blank. -/
def trimEnd (t : Text) : Text :=
  (t.reverse.dropWhile isBlank).reverse

/-- The text without blank characters at either end. -/
def trim (t : Text) : Text :=
  trimEnd (trimStart t)

/-- Cutting blanks off the front never makes a text longer. -/
theorem length_trimStart_le (t : Text) : (trimStart t).length ≤ t.length :=
  (List.dropWhile_sublist isBlank).length_le

/-- The maximal runs of characters that are not blank. -/
def words (t : Text) : List Text :=
  (t.splitOnP isBlank).filter fun w => !w.isEmpty

/-- The first word of a text that starts with one, and what follows it. -/
def breakWord (t : Text) : Text × Text :=
  (t.takeWhile (!isBlank ·), t.dropWhile (!isBlank ·))

/-- A word and what follows it make up the text. -/
theorem breakWord_append (t : Text) : (breakWord t).1 ++ (breakWord t).2 = t :=
  List.takeWhile_append_dropWhile

end Marginalia.Text
