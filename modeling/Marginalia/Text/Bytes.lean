import Marginalia.Text.Basic

/-!
# Bytes

Names on disk are bytes, which need not be the form of a text. They are read as one all the same:
a sequence of bytes that starts the form of a character but does not go on as one is read as the
replacement character, and so is a byte that starts none. The sequence is as long as it can be, and
the byte behind it is read anew.
-/

namespace Marginalia

/-- A finite sequence of bytes. -/
abbrev Bytes := List UInt8

/-- The form of a text in UTF-8. -/
def Text.utf8 (t : Text) : Bytes :=
  t.flatMap String.utf8EncodeChar

/-- A text stands for its form where bytes are expected. -/
instance : Coe Text Bytes := ⟨Text.utf8⟩

namespace Bytes

/-- The slash as a byte. -/
def slash : UInt8 := 47

/-- The dot as a byte. -/
def dot : UInt8 := 46

/-- A character whose form is open: the bits that are read of it, the number of bytes that it owes
behind the next one, and the least and the greatest byte that may be next. -/
structure OpenChar where
  value : Nat
  owed : Nat
  least : Nat
  greatest : Nat

/-- What a byte that is not of ASCII makes and opens where no character is open: it is broken, or
it makes nothing yet. The bounds leave out forms that are longer than need be and what is no
character. -/
def first (n : Nat) : List (Option Char) × Option OpenChar :=
  if n < 0xC2 then ([none], none)
  else if n < 0xE0 then ([], some ⟨n - 0xC0, 0, 0x80, 0xBF⟩)
  else if n < 0xF0 then
    ([], some ⟨n - 0xE0, 1, if n = 0xE0 then 0xA0 else 0x80, if n = 0xED then 0x9F else 0xBF⟩)
  else if n < 0xF5 then
    ([], some ⟨n - 0xF0, 2, if n = 0xF0 then 0x90 else 0x80, if n = 0xF4 then 0x8F else 0xBF⟩)
  else ([none], none)

/-- What a byte makes and opens behind an open character. One that the character does not owe leaves
it broken and stands for itself. -/
def OpenChar.goOn (o : OpenChar) (n : Nat) : List (Option Char) × Option OpenChar :=
  if o.least ≤ n ∧ n ≤ o.greatest then
    match o.owed with
    | 0 => ([some (Char.ofNat (64 * o.value + (n - 0x80)))], none)
    | owed + 1 => ([], some ⟨64 * o.value + (n - 0x80), owed, 0x80, 0xBF⟩)
  else (none :: (first n).1, (first n).2)

/-- What an open character makes when it is not gone on with. -/
def cutOff (state : Option OpenChar) : List (Option Char) :=
  state.toList.map fun _ => none

/-- What a byte makes, and the character that is open behind it. -/
def step (state : Option OpenChar) (b : UInt8) : List (Option Char) × Option OpenChar :=
  if b.toNat < 0x80 then (cutOff state ++ [some (Char.ofNat b.toNat)], none)
  else
    match state with
    | none => first b.toNat
    | some o => o.goOn b.toNat

/-- What bytes make behind an open character. -/
def readFrom : Option OpenChar → Bytes → List (Option Char)
  | state, [] => cutOff state
  | state, b :: rest => (step state b).1 ++ readFrom (step state b).2 rest

/-- The text as which bytes are read, with the replacement character for what is broken. -/
def lossy (b : Bytes) : Text :=
  (readFrom none b).map (·.getD '\uFFFD')

/-- The text of which bytes are the form, if there is one: the text as which they are read, if
reading them loses nothing. -/
def text? (b : Bytes) : Option Text :=
  if b.lossy.utf8 = b then some b.lossy else none

end Bytes

end Marginalia
