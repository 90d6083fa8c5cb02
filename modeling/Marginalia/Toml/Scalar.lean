import Marginalia.Datum.Basic

/-!
# Scalars of TOML

A scalar that is no string is one run of characters: a truth value, a whole number in base ten,
sixteen, eight or two, a number with a fraction or an exponent, or a date, a time of day or both.
Only truth values and numbers without a sign below zero can become the value of a field; of the
others it matters only that they are well formed.
-/

namespace Marginalia.Toml

/-- The characters of the scalars that are no strings. -/
def isScalarChar (c : Char) : Bool :=
  c.isAlphanum || c == '+' || c == '-' || c == '_' || c == '.' || c == ':'

/-- Digits without the underscores between them. Each underscore stands between two digits. -/
def plainDigits? (isDigit : Char → Bool) (t : Text) : Option Text :=
  let groups := t.splitOn '_'
  if groups.all fun group => !group.isEmpty && group.all isDigit then some groups.flatten else none

/-- A sign, if there is one, and what follows it. -/
def splitSign : Text → Option Char × Text
  | '+' :: rest => (some '+', rest)
  | '-' :: rest => (some '-', rest)
  | t => (none, t)

/-- The digits of a whole number in base ten, which starts with zero only if zero is all. -/
def wholeDigits? (t : Text) : Option Text :=
  match t with
  | '0' :: _ :: _ => none
  | _ => plainDigits? Char.isDigit t

/-- The number that digits write in some base. -/
def valueIn (base : Nat) (digits : Text) : Nat :=
  digits.foldl (fun n c => base * n + (Text.hexValue? c).getD 0) 0

/-- A whole number that fits into 128 bits. Below zero no field can hold it. -/
def boundedInteger? (negative : Bool) (n : Nat) : Option Datum :=
  if negative then
    if n = 0 then some (.natural 0) else if n ≤ Nat.pow 2 127 then some .other else none
  else if n < Text.wordLimit then some (.natural n)
  else if n < Nat.pow 2 128 then some .other
  else none

/-- Whether a character is a digit of a base of at most sixteen. -/
def isDigitIn (base : Nat) (c : Char) : Bool :=
  (Text.hexValue? c).any (· < base)

/-- A whole number. -/
def integer? (t : Text) : Option Datum :=
  let based (base : Nat) (digits : Text) :=
    (plainDigits? (isDigitIn base) digits).bind fun plain =>
      boundedInteger? false (valueIn base plain)
  match t with
  | '0' :: 'x' :: digits => based 16 digits
  | '0' :: 'o' :: digits => based 8 digits
  | '0' :: 'b' :: digits => based 2 digits
  | _ =>
    let (sign, digits) := splitSign t
    (wholeDigits? digits).bind fun plain => boundedInteger? (sign == some '-') (valueIn 10 plain)

/-- Whether a text is the exponent of a number, without its letter. -/
def isExponent (t : Text) : Bool :=
  (plainDigits? Char.isDigit (splitSign t).2).isSome

/-- The parts of a text before and behind the first character of a kind, if there is one. -/
def splitAt? (isMark : Char → Bool) (t : Text) : Option (Text × Text) :=
  match t.dropWhile (!isMark ·) with
  | [] => none
  | _ :: behind => some (t.takeWhile (!isMark ·), behind)

/-- Whether a text is a number with a fraction or an exponent, or stands for none or for one
beyond all bounds. -/
def isFraction (t : Text) : Bool :=
  let unsigned := (splitSign t).2
  let isMantissa (mantissa : Text) (needsPoint : Bool) :=
    match splitAt? (· == '.') mantissa with
    | some (whole, fraction) =>
      (wholeDigits? whole).isSome && (plainDigits? Char.isDigit fraction).isSome
    | none => !needsPoint && (wholeDigits? mantissa).isSome
  unsigned == "inf".toList || unsigned == "nan".toList ||
    match splitAt? (fun c => c == 'e' || c == 'E') unsigned with
    | some (mantissa, exponent) => isMantissa mantissa false && isExponent exponent
    | none => isMantissa unsigned true

/-- The number that a run of so many digits writes. -/
def fixedNumber? (width : Nat) (t : Text) : Option Nat :=
  if t.length = width then Text.natural? t else none

/-- The number of days of a month. -/
def daysOfMonth (year month : Nat) : Nat :=
  if month = 2 then if year % 4 = 0 ∧ (year % 100 ≠ 0 ∨ year % 400 = 0) then 29 else 28
  else if month ∈ [4, 6, 9, 11] then 30
  else 31

/-- Whether a text is a day of the calendar. -/
def isDate (t : Text) : Bool :=
  match t.splitOn '-' with
  | [year, month, day] =>
    match fixedNumber? 4 year, fixedNumber? 2 month, fixedNumber? 2 day with
    | some year, some month, some day =>
      1 ≤ month && month ≤ 12 && 1 ≤ day && day ≤ daysOfMonth year month
    | _, _, _ => false
  | _ => false

/-- Whether a text is the seconds of a time of day, perhaps with a fraction. -/
def isSeconds (t : Text) : Bool :=
  match splitAt? (· == '.') t with
  | some (whole, fraction) =>
    (fixedNumber? 2 whole).any (· ≤ 60) && (Text.natural? fraction).isSome
  | none => (fixedNumber? 2 t).any (· ≤ 60)

/-- Whether a text is a time of day. Seconds may be left out. -/
def isTime (t : Text) : Bool :=
  match t.splitOn ':' with
  | [hour, minute] => (fixedNumber? 2 hour).any (· ≤ 23) && (fixedNumber? 2 minute).any (· ≤ 59)
  | [hour, minute, second] =>
    (fixedNumber? 2 hour).any (· ≤ 23) && (fixedNumber? 2 minute).any (· ≤ 59) &&
      isSeconds second
  | _ => false

/-- Whether a text is a time of day with the distance of its time zone. -/
def isZonedTime (t : Text) : Bool :=
  match t.getLast? with
  | some c =>
    if c = 'Z' ∨ c = 'z' then isTime t.dropLast
    else
      match splitAt? (fun c => c == '+' || c == '-') t with
      | some (time, distance) =>
        isTime time &&
          match distance.splitOn ':' with
          | [hour, minute] =>
            (fixedNumber? 2 hour).any (· ≤ 23) && (fixedNumber? 2 minute).any (· ≤ 59)
          | _ => false
      | none => false
  | none => false

/-- Whether a text is a date, a time of day, or both with a letter or blank between them. -/
def isMoment (t : Text) : Bool :=
  isDate t || isTime t ||
    (isDate (t.take 10) &&
      match t.drop 10 with
      | c :: time => (c == 'T' || c == 't' || c == ' ') && (isTime time || isZonedTime time)
      | [] => false)

/-- The value of a scalar. -/
def scalar? (t : Text) : Option Datum :=
  if t = "true".toList then some (.bool true)
  else if t = "false".toList then some (.bool false)
  else if isFraction t || isMoment t then some .other
  else integer? t

/-- The scalar at the front of a text, with what follows it. A date may have a time of day behind
one blank. -/
def takeScalar (t : Text) : Option (Datum × Text) :=
  let run := t.takeWhile isScalarChar
  let behind := t.dropWhile isScalarChar
  match behind with
  | ' ' :: c :: rest =>
    if isDate run && c.isDigit then
      (scalar? (run ++ ' ' :: (c :: rest).takeWhile isScalarChar)).map fun value =>
        (value, (c :: rest).dropWhile isScalarChar)
    else (scalar? run).map fun value => (value, behind)
  | _ => (scalar? run).map fun value => (value, behind)

end Marginalia.Toml
