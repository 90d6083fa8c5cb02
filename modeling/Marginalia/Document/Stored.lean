import Marginalia.Datum.OfJson
import Marginalia.Document.Basic
import Marginalia.Json.Printer

/-!
# Stored documents

A document is stored as a JSON object with a member for each note in key order. A note is an
object too: its label, its origin, and one member for each of its tags. The tags stand beside the
two named members, so a tag cannot be named like one of them.
-/

namespace Marginalia

open Text

namespace Origin

/-- The stored form of an origin. -/
def toJson (o : Origin) : Json :=
  .object [
    ("path".toList, .ofText o.path),
    ("line".toList, .ofNat o.line),
    ("file".toList, .ofText o.name),
    ("ext".toList, .ofText o.extension),
    ("lastEdit".toList, .ofText o.lastEdit),
    ("key".toList, .ofText o.key)]

/-- The names of the members of a stored origin. -/
def memberNames : List Text :=
  ["path", "line", "file", "ext", "lastEdit", "key"].map String.toList

/-- The origin that data stands for. -/
def ofDatum? (datum : Datum) : Option Origin := do
  match ← datum.record? false memberNames with
  | [path, line, name, extension, lastEdit, key] =>
    return {
      path := ← Datum.fieldOf Datum.text? path
      line := ← Datum.fieldOf Datum.natural? line
      name := ← Datum.fieldOf Datum.text? name
      extension := ← Datum.fieldOf Datum.text? extension
      lastEdit := ← Datum.fieldOf Datum.text? lastEdit
      key := ← Datum.fieldOf Datum.text? key }
  | _ => none

end Origin

namespace Note

/-- The stored form of the occurrences of a tag. -/
def occurrencesToJson (occurrences : List (List Text)) : Json :=
  .array (occurrences.map fun fields => .array (fields.map .ofText))

/-- The members of a stored note. -/
def members (n : Note) : List (Text × Json) :=
  ("label".toList, .ofText n.label) :: ("meta".toList, n.origin.toJson) ::
    n.tags.entries.map fun (name, occurrences) => (Json.escape name, occurrencesToJson occurrences)

/-- The names of the two members of a stored note that are no tags. -/
def memberNames : List Text :=
  ["label".toList, "meta".toList]

/-- The note that data stands for. -/
def ofDatum? : Datum → Option Note
  | .table entries => do
    match ← (Datum.table entries).record? false memberNames with
    | [label, origin] =>
      let tags := Datum.table (entries.filter fun e => e.1 ∉ memberNames)
      return {
        label := ← Datum.fieldOf Datum.text? label
        origin := ← Datum.fieldOf Origin.ofDatum? origin
        tags := ← tags.dictionary? (Datum.list? (Datum.list? Datum.text?)) }
    | _ => none
  | _ => none

end Note

namespace Document

/-- The stored form of a document. -/
def toJson (d : Document) : Json :=
  .object (d.notes.entries.map fun (key, note) => (Json.escape key, .object note.members))

/-- The text in which a document is stored: indented JSON and a final line feed. -/
def write (d : Document) : Text :=
  d.toJson.pretty 0 ++ ['\n']

/-- The document that data stands for. -/
def ofDatum? (datum : Datum) : Option Document :=
  (datum.dictionary? Note.ofDatum?).map Document.mk

/-- Read a stored document. -/
def read (t : Text) : Except Failure Document :=
  match ((Json.read? t).map Datum.ofJson).bind ofDatum? with
  | some d => .ok d
  | none => .error .document

end Document

end Marginalia
