import Marginalia.Dictionary

/-!
# Plain data

What settings and stored documents are decoded from, whatever the format of the file: a value
that is looked at only where a field asks for it. A value that no field can hold is `other`. A
record may be given by the names of its fields or as the list of its values.
-/

namespace Marginalia

universe u

/-- A value as a file gives it. Entries of a table keep their order and may repeat a name. -/
inductive Datum
  | null
  | bool (value : Bool)
  | natural (value : Nat)
  | text (value : Text)
  | list (items : List Datum)
  | table (entries : List (Text × Datum))
  | other
deriving Inhabited

namespace Datum

variable {α : Type u}

/-- A truth value. -/
def bool? : Datum → Option Bool
  | bool value => some value
  | _ => none

/-- A natural number. -/
def natural? : Datum → Option Nat
  | natural value => some value
  | _ => none

/-- A text. -/
def text? : Datum → Option Text
  | text value => some value
  | _ => none

/-- A list of values of one kind. -/
def list? (item? : Datum → Option α) : Datum → Option (List α)
  | list items => items.mapM item?
  | _ => none

/-- A table of values of one kind; of two entries with one name the later stays. -/
def dictionary? (item? : Datum → Option α) : Datum → Option (Dictionary α)
  | table entries =>
    (entries.mapM fun e => (item? e.2).map fun value => (e.1, value)).map Dictionary.ofList
  | _ => none

/-- A value that may be null. -/
def nullable? (item? : Datum → Option α) : Datum → Option (Option α)
  | null => some none
  | value => (item? value).map some

/-- The values of the fields of a record, in the order of their names. A table must not repeat a
field; other names are ignored. A list gives the values in order and may end early; whether it may
also be longer than the record is up to the format. -/
def record? (longer : Bool) (names : List Text) : Datum → Option (List (Option Datum))
  | table entries =>
    if names.all fun name => entries.countP (·.1 == name) ≤ 1 then
      some (names.map fun name => entries.lookup name)
    else none
  | list items =>
    if items.length ≤ names.length ∨ longer then
      some ((List.range names.length).map fun i => items[i]?)
    else none
  | _ => none

/-- A field that has a default. -/
def fieldOr (default : α) (item? : Datum → Option α) : Option Datum → Option α
  | none => some default
  | some value => item? value

/-- A field that must be given. -/
def fieldOf (item? : Datum → Option α) (field : Option Datum) : Option α :=
  field.bind item?

end Datum

end Marginalia
