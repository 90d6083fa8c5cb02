/-!
# Text

Text is a list of characters. Offsets shown to a reader count bytes of the UTF-8 form, so the
length in bytes is defined here beside the search for a piece of text inside another.
-/

namespace Marginalia

/-- A finite sequence of Unicode scalar values. -/
abbrev Text := List Char

namespace Text

/-- The number of bytes of the UTF-8 form. -/
def byteLength : Text → Nat
  | [] => 0
  | c :: rest => c.utf8Size + byteLength rest

@[simp] theorem byteLength_nil : byteLength [] = 0 := rfl

@[simp] theorem byteLength_cons (c : Char) (t : Text) :
    byteLength (c :: t) = c.utf8Size + byteLength t := rfl

/-- Lengths in bytes add up over concatenation. -/
@[simp] theorem byteLength_append (t u : Text) :
    byteLength (t ++ u) = byteLength t + byteLength u := by
  induction t with
  | nil => simp
  | cons c t ih => simp [ih, Nat.add_assoc]

/-- The lines of a text, at least one; a line holds no line feed. -/
def lines (t : Text) : List Text :=
  t.splitOn '\n'

/-- Lines joined by line feeds. -/
def unlines (ls : List Text) : Text :=
  List.intercalate ['\n'] ls

/-- What follows `front` in a list that starts with it. -/
def after? {α : Type} [DecidableEq α] : List α → List α → Option (List α)
  | [], t => some t
  | _ :: _, [] => none
  | a :: front, c :: t => if a = c then after? front t else none

/-- A list starts with `front` exactly when something, possibly nothing, follows `front`. -/
theorem after?_eq_some_iff {α : Type} [DecidableEq α] {front t rest : List α} :
    after? front t = some rest ↔ t = front ++ rest := by
  induction front generalizing t with
  | nil => simp [after?, eq_comm]
  | cons a front ih =>
    cases t with
    | nil => simp [after?]
    | cons c t =>
      by_cases h : a = c
      · simp [after?, h, ih]
      · simp [after?, h, Ne.symm h]

/-- The text before and the text behind the first occurrence of `piece`. -/
def cut? (piece : Text) : Text → Option (Text × Text)
  | [] => if piece = [] then some ([], []) else none
  | c :: t =>
    match after? piece (c :: t) with
    | some behind => some ([], behind)
    | none => (cut? piece t).map fun (before, behind) => (c :: before, behind)

/-- A cut loses nothing: the text is what is before, the piece, and what is behind. -/
theorem eq_of_cut?_eq_some {piece t before behind : Text}
    (h : cut? piece t = some (before, behind)) : t = before ++ piece ++ behind := by
  induction t generalizing before with
  | nil =>
    by_cases hp : piece = []
    · simp_all [cut?]
    · simp [cut?, hp] at h
  | cons c t ih =>
    rw [cut?] at h
    cases ha : after? piece (c :: t) with
    | some u =>
      rw [ha] at h
      obtain ⟨rfl, rfl⟩ : [] = before ∧ u = behind := by simpa using h
      simpa using after?_eq_some_iff.1 ha
    | none =>
      rw [ha] at h
      obtain ⟨⟨b, r⟩, hc, hb⟩ := Option.map_eq_some_iff.1 h
      obtain ⟨rfl, rfl⟩ : c :: b = before ∧ r = behind := by simpa using hb
      simp [ih hc]

/-- Whether a piece of text occurs in another. -/
def contains (t piece : Text) : Bool :=
  (cut? piece t).isSome

/-- A text without one carriage return at its end. -/
def chomp (t : Text) : Text :=
  if t.getLast? = some '\r' then t.dropLast else t

/-- The decimal digits of a number. -/
def ofNat (n : Nat) : Text :=
  Nat.toDigits 10 n

/-- The number that ASCII digits write in base ten, taken from the left. -/
def valueOfDigits (digits : Text) : Nat :=
  digits.foldl (fun n c => 10 * n + (c.toNat - '0'.toNat)) 0

/-- Two to the power of 64: the numbers below it fit into a word. -/
def wordLimit : Nat :=
  18446744073709551616

/-- The natural number that a text consists of, written in ASCII digits only. -/
def natural? (t : Text) : Option Nat :=
  if t ≠ [] ∧ t.all Char.isDigit then some (valueOfDigits t) else none

/-- The value of a digit in base sixteen, in either case. -/
def hexValue? (c : Char) : Option Nat :=
  if c.isDigit then some (c.toNat - '0'.toNat)
  else if 'a' ≤ c ∧ c ≤ 'f' then some (c.toNat - 'a'.toNat + 10)
  else if 'A' ≤ c ∧ c ≤ 'F' then some (c.toNat - 'A'.toNat + 10)
  else none

/-- The text with the letters `A` to `Z` in lower case. -/
def toAsciiLower (t : Text) : Text :=
  t.map Char.toLower

/-- Every occurrence of one character replaced by another. -/
def replaceChar (old new : Char) (t : Text) : Text :=
  t.map fun c => if c = old then new else c

/-- The text without the carriage returns that stand before line feeds. -/
def joinBreaks : Text → Text
  | '\r' :: '\n' :: rest => '\n' :: joinBreaks rest
  | c :: rest => c :: joinBreaks rest
  | [] => []

/-- The text with a line feed for every line break, be it a carriage return, a line feed or both
in this order. -/
def normalizeBreaks (t : Text) : Text :=
  replaceChar '\r' '\n' (joinBreaks t)

end Text

end Marginalia
