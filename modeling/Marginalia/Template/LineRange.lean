import Marginalia.Text.Basic

/-!
# Ranges of lines

Lines are numbered from zero. A table of the offsets at which lines start tells the line of an
offset. Ranges of lines are taken out of a text after ranges that overlap or touch have been
joined, from the last to the first, so that no line is renumbered before its turn.
-/

namespace Marginalia.Template

open Text

/-- The offsets behind the line feeds of a text that starts at some offset. -/
def startsFrom : Nat → Text → List Nat
  | _, [] => []
  | offset, c :: rest =>
    let next := offset + c.utf8Size
    if c = '\n' then next :: startsFrom next rest else startsFrom next rest

/-- The offset of the first byte of each line. -/
def lineStarts (t : Text) : List Nat :=
  0 :: startsFrom 0 t

/-- The line that holds the byte at an offset: the last that does not start behind it. -/
def lineOf (starts : List Nat) (offset : Nat) : Nat :=
  (starts.takeWhile (· ≤ offset)).length - 1

/-- The lines from a first to a last one. -/
structure LineRange where
  first : Nat
  last : Nat
deriving DecidableEq

namespace LineRange

/-- The range of one line. -/
def single (line : Nat) : LineRange :=
  ⟨line, line⟩

/-- The order of ranges by their first and then by their last line. -/
def le (a b : LineRange) : Bool :=
  a.first < b.first || (a.first == b.first && a.last ≤ b.last)

/-- Join a range with the ranges behind it that it reaches. -/
def absorb (r : LineRange) : List LineRange → List LineRange
  | [] => [r]
  | s :: rest =>
    if s.first ≤ r.last + 1 then absorb ⟨r.first, max r.last s.last⟩ rest else r :: absorb s rest

/-- Ranges in order, with those joined that overlap or touch. -/
def merge (ranges : List LineRange) : List LineRange :=
  match ranges.mergeSort le with
  | [] => []
  | r :: rest => absorb r rest

/-- The lines of a text without those of a range. -/
def removeFrom (ls : List Text) (r : LineRange) : List Text :=
  ls.take r.first ++ ls.drop (r.last + 1)

end LineRange

/-- A text without the lines of some ranges. -/
def removeLines (ranges : List LineRange) (t : Text) : Text :=
  unlines ((LineRange.merge ranges).reverse.foldl LineRange.removeFrom (lines t))

end Marginalia.Template
