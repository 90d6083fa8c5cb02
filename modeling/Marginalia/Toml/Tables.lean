import Marginalia.Datum.Basic

/-!
# Tables of TOML

The tables of a document grow statement by statement. A table exists because a header names it,
because a longer header implies it, or because a dotted key does. A header may name an implied
table once more, and a dotted key may add to a table that dotted keys made; nothing may add to a
value, and no name is given twice. A header in double brackets adds a table to an array of tables,
whose last table is the one that further statements reach.
-/

namespace Marginalia.Toml

/-- How a table came into being. -/
inductive Standing
  | named
  | implied
  | dotted
deriving DecidableEq

/-- What a name stands for while a document is read. An array of tables has its last table
first. -/
inductive Node
  | value (datum : Datum)
  | table (standing : Standing) (entries : List (Text × Node))
  | tables (items : List Node)

mutual

/-- The data of a node. -/
def Node.datum : Node → Datum
  | .value datum => datum
  | .table _ entries => .table (dataOfEntries entries)
  | .tables items => .list (dataOfItems items).reverse

/-- The data of the entries of a table. -/
def dataOfEntries : List (Text × Node) → List (Text × Datum)
  | [] => []
  | (name, node) :: rest => (name, node.datum) :: dataOfEntries rest

/-- The data of the items of an array of tables. -/
def dataOfItems : List Node → List Datum
  | [] => []
  | node :: rest => node.datum :: dataOfItems rest

end

/-- The entries of a table. -/
abbrev Entries := List (Text × Node)

/-- Let a name stand for a node. -/
def setNode (name : Text) (node : Node) : Entries → Entries
  | [] => [(name, node)]
  | (k, old) :: rest => if k = name then (k, node) :: rest else (k, old) :: setNode name node rest

/-- Change the table to which names lead, making tables that are missing. -/
def changeAt (change : Entries → Option Entries) : List Text → Entries → Option Entries
  | [], entries => change entries
  | name :: path, entries =>
    match entries.lookup name with
    | none =>
      (changeAt change path []).map fun inner => setNode name (.table .implied inner) entries
    | some (.table standing inner) =>
      (changeAt change path inner).map fun inner => setNode name (.table standing inner) entries
    | some (.tables (.table standing last :: before)) =>
      (changeAt change path last).map fun last =>
        setNode name (.tables (.table standing last :: before)) entries
    | some _ => none

/-- Begin the table of a header. -/
def beginTable (name : Text) (entries : Entries) : Option Entries :=
  match entries.lookup name with
  | none => some (setNode name (.table .named []) entries)
  | some (.table .implied inner) => some (setNode name (.table .named inner) entries)
  | some _ => none

/-- Begin a further table of an array. -/
def beginItem (name : Text) (entries : Entries) : Option Entries :=
  match entries.lookup name with
  | none => some (setNode name (.tables [.table .named []]) entries)
  | some (.tables items) => some (setNode name (.tables (.table .named [] :: items)) entries)
  | some _ => none

/-- Put a value at a dotted key, given by its first part and the others. The table that takes the
value must be the one at hand or one that dotted keys made. -/
def putValue (datum : Datum) : Text → List Text → Entries → Option Entries
  | name, [], entries =>
    if (entries.lookup name).isSome then none else some (setNode name (.value datum) entries)
  | name, part :: parts, entries =>
    match entries.lookup name with
    | none =>
      (putValue datum part parts []).map fun inner => setNode name (.table .dotted inner) entries
    | some (.table standing inner) =>
      if standing = .dotted ∨ (standing = .implied ∧ parts ≠ []) then
        (putValue datum part parts inner).map fun inner =>
          setNode name (.table standing inner) entries
      else none
    | some (.tables (.table standing last :: before)) =>
      if parts = [] then none
      else
        (putValue datum part parts last).map fun last =>
          setNode name (.tables (.table standing last :: before)) entries
    | some _ => none

/-- A dotted key: its first part and the others. -/
structure Key where
  first : Text
  others : List Text

/-- The names of the parts of a key but the last, and the last. -/
def Key.split (key : Key) : List Text × Text :=
  ((key.first :: key.others).dropLast, key.others.getLast?.getD key.first)

/-- A statement of a document. -/
inductive Statement
  | table (key : Key)
  | item (key : Key)
  | value (key : Key) (datum : Datum)

/-- A document as far as it is read: the table that values go to and all entries. -/
structure Tables where
  current : List Text
  entries : Entries

/-- The tables after a statement. -/
def Tables.adding (tables : Tables) : Statement → Option Tables
  | .table key =>
    let (path, name) := key.split
    (changeAt (beginTable name) path tables.entries).map fun entries => ⟨path ++ [name], entries⟩
  | .item key =>
    let (path, name) := key.split
    (changeAt (beginItem name) path tables.entries).map fun entries => ⟨path ++ [name], entries⟩
  | .value key datum =>
    (changeAt (putValue datum key.first key.others) tables.current tables.entries).map fun entries =>
      { tables with entries := entries }

end Marginalia.Toml
