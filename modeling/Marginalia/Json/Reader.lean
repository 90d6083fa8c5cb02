import Marginalia.Json.Escape

/-!
# Reading JSON

A text is a JSON value with nothing but JSON's own white space around it. Every reader returns
what follows the part it has read. Nesting is bounded by the length of the text, which the
readers carry as a budget.
-/

namespace Marginalia.Json

/-- The white space of JSON. -/
def isSpace (c : Char) : Bool :=
  c == ' ' || c == '\n' || c == '\r' || c == '\t'

/-- The text behind its white space. -/
def skipSpace (t : Text) : Text :=
  t.dropWhile isSpace

/-- A nonempty run of digits. -/
def takeDigits (t : Text) : Option (Text × Text) :=
  match t.takeWhile Char.isDigit with
  | [] => none
  | digits => some (digits, t.dropWhile Char.isDigit)

/-- The digits of a whole number, which start with zero only if zero is all. -/
def takeWhole : Text → Option (Text × Text)
  | '0' :: c :: rest => if c.isDigit then none else some (['0'], c :: rest)
  | t => takeDigits t

/-- A fraction, if there is one. -/
def takeFraction : Text → Option (Text × Text)
  | '.' :: rest => (takeDigits rest).map fun (digits, behind) => ('.' :: digits, behind)
  | t => some ([], t)

/-- The sign of an exponent, if there is one. -/
def takeSign : Text → Text × Text
  | '+' :: rest => (['+'], rest)
  | '-' :: rest => (['-'], rest)
  | t => ([], t)

/-- An exponent, if there is one. -/
def takeExponent : Text → Option (Text × Text)
  | [] => some ([], [])
  | c :: rest =>
    if c = 'e' ∨ c = 'E' then
      let (sign, digits) := takeSign rest
      (takeDigits digits).map fun (written, behind) => (c :: sign ++ written, behind)
    else some ([], c :: rest)

/-- The written form of a number. -/
def takeNumber (t : Text) : Option (Text × Text) := do
  let (sign, unsigned) := match t with
    | '-' :: rest => (['-'], rest)
    | t => ([], t)
  let (whole, rest) ← takeWhole unsigned
  let (fraction, rest) ← takeFraction rest
  let (exponent, rest) ← takeExponent rest
  return (sign ++ whole ++ fraction ++ exponent, rest)

mutual

/-- A value, behind white space. -/
def takeValue : Nat → Text → Option (Json × Text)
  | 0, _ => none
  | budget + 1, t =>
    match skipSpace t with
    | '"' :: rest => (takeString rest).map fun (body, behind) => (string body, behind)
    | '[' :: rest =>
      match skipSpace rest with
      | ']' :: behind => some (array [], behind)
      | items => (takeItems budget items).map fun (values, behind) => (array values, behind)
    | '\x7b' :: rest =>
      match skipSpace rest with
      | '\x7d' :: behind => some (object [], behind)
      | members => (takeMembers budget members).map fun (pairs, behind) => (object pairs, behind)
    | 'n' :: 'u' :: 'l' :: 'l' :: rest => some (null, rest)
    | 't' :: 'r' :: 'u' :: 'e' :: rest => some (bool true, rest)
    | 'f' :: 'a' :: 'l' :: 's' :: 'e' :: rest => some (bool false, rest)
    | rest => (takeNumber rest).map fun (written, behind) => (number written, behind)

/-- The items of an array that is not empty, up to its closing bracket. -/
def takeItems : Nat → Text → Option (List Json × Text)
  | 0, _ => none
  | budget + 1, t => do
    let (value, rest) ← takeValue budget t
    match skipSpace rest with
    | ',' :: more => (takeItems budget more).map fun (values, behind) => (value :: values, behind)
    | ']' :: behind => some ([value], behind)
    | _ => none

/-- The members of an object that is not empty, up to its closing brace. -/
def takeMembers : Nat → Text → Option (List (Text × Json) × Text)
  | 0, _ => none
  | budget + 1, t =>
    match skipSpace t with
    | '"' :: rest => do
      let (name, rest) ← takeString rest
      match skipSpace rest with
      | ':' :: rest => do
        let (value, rest) ← takeValue budget rest
        match skipSpace rest with
        | ',' :: more =>
          (takeMembers budget more).map fun (pairs, behind) => ((name, value) :: pairs, behind)
        | '\x7d' :: behind => some ([(name, value)], behind)
        | _ => none
      | _ => none
    | _ => none

end

/-- The value that a text writes. -/
def read? (t : Text) : Option Json :=
  match takeValue (2 * t.length + 2) t with
  | some (value, rest) => if (skipSpace rest).isEmpty then some value else none
  | none => none

end Marginalia.Json
