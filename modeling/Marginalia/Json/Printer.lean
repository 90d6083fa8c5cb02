import Marginalia.Json.Escape

/-!
# Writing JSON

Two layouts of a value: one line without spaces, and one item or member on each line, two spaces
deeper than the brackets around it. An empty array or object stays on one line in both.
-/

namespace Marginalia.Json

/-- The value of a text. -/
def ofText (t : Text) : Json :=
  string (escape t)

/-- The value of a natural number. -/
def ofNat (n : Nat) : Json :=
  number (Text.ofNat n)

/-- A string between its quotes. -/
def quoted (body : Text) : Text :=
  '"' :: body ++ ['"']

/-- The start of a line at some depth. -/
def indent (depth : Nat) : Text :=
  '\n' :: List.replicate (2 * depth) ' '

mutual

/-- The value on one line. -/
def compact : Json → Text
  | null => "null".toList
  | bool true => "true".toList
  | bool false => "false".toList
  | number written => written
  | string body => quoted body
  | array items => '[' :: compactItems items ++ [']']
  | object members => '\x7b' :: compactMembers members ++ ['\x7d']

/-- Items with commas between them. -/
def compactItems : List Json → Text
  | [] => []
  | [v] => compact v
  | v :: w :: rest => compact v ++ ',' :: compactItems (w :: rest)

/-- Members with commas between them. -/
def compactMembers : List (Text × Json) → Text
  | [] => []
  | [(name, v)] => quoted name ++ ':' :: compact v
  | (name, v) :: m :: rest => quoted name ++ ':' :: compact v ++ ',' :: compactMembers (m :: rest)

end

mutual

/-- The value on lines of its own, inside brackets of some depth. -/
def pretty (depth : Nat) : Json → Text
  | null => "null".toList
  | bool true => "true".toList
  | bool false => "false".toList
  | number written => written
  | string body => quoted body
  | array [] => "[]".toList
  | array (v :: rest) => '[' :: prettyItems (depth + 1) (v :: rest) ++ indent depth ++ [']']
  | object [] => "\x7b\x7d".toList
  | object (m :: rest) =>
    '\x7b' :: prettyMembers (depth + 1) (m :: rest) ++ indent depth ++ ['\x7d']

/-- Items, each on a line of some depth. -/
def prettyItems (depth : Nat) : List Json → Text
  | [] => []
  | [v] => indent depth ++ pretty depth v
  | v :: w :: rest => indent depth ++ pretty depth v ++ ',' :: prettyItems depth (w :: rest)

/-- Members, each on a line of some depth. -/
def prettyMembers (depth : Nat) : List (Text × Json) → Text
  | [] => []
  | [(name, v)] => indent depth ++ quoted name ++ ':' :: ' ' :: pretty depth v
  | (name, v) :: m :: rest =>
    indent depth ++ quoted name ++ ':' :: ' ' :: pretty depth v ++
      ',' :: prettyMembers depth (m :: rest)

end

end Marginalia.Json
