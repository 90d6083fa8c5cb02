import Marginalia.Datum.Basic
import Marginalia.Json.Reader

/-!
# Plain data from JSON

Numbers are natural numbers below 2^64 or nothing that a field can hold. A string without a text
is nothing either, and so is an object with such a name.
-/

namespace Marginalia.Datum

/-- The number that a written form stands for, if it is a natural number below 2^64. -/
def ofNumber (written : Text) : Datum :=
  match Text.natural? written with
  | some n => if n < Text.wordLimit then natural n else other
  | none => other

mutual

/-- The data of a JSON value. -/
def ofJson : Json → Datum
  | .null => null
  | .bool value => bool value
  | .number written => ofNumber written
  | .string written => ((Json.unescape? written).map text).getD other
  | .array items => list (ofItems items)
  | .object members => ((ofMembers members).map table).getD other

/-- The data of the items of an array. -/
def ofItems : List Json → List Datum
  | [] => []
  | v :: rest => ofJson v :: ofItems rest

/-- The data of the members of an object, if all of their names are texts. -/
def ofMembers : List (Text × Json) → Option (List (Text × Datum))
  | [] => some []
  | (name, v) :: rest =>
    match Json.unescape? name, ofMembers rest with
    | some name, some entries => some ((name, ofJson v) :: entries)
    | _, _ => none

end

end Marginalia.Datum
