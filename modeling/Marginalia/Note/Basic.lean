import Marginalia.Dictionary

/-!
# Notes

A note is one documented unit of a source: a key, a label, the place where it was declared, and
the tags it carries. Each tag name has its occurrences in the order of the source, and an
occurrence is a list of fields.
-/

namespace Marginalia

open Text

/-- What a note keeps of its file: the path below the root, the name, the extension and the time
of the last change. -/
structure SourceFile where
  path : Text
  name : Text
  extension : Text
  lastEdit : Text
deriving DecidableEq

/-- Where a note was declared. The line counts from one. -/
structure Origin extends SourceFile where
  line : Nat
  key : Text
deriving DecidableEq

namespace Origin

/-- A part of an origin by the name under which it is stored. -/
def field? (o : Origin) (name : Text) : Option Text :=
  if name = "path".toList then some o.path
  else if name = "line".toList then some (ofNat o.line)
  else if name = "file".toList then some o.name
  else if name = "ext".toList then some o.extension
  else if name = "lastEdit".toList ∨ name = "last_edit".toList then some o.lastEdit
  else if name = "key".toList then some o.key
  else none

/-- The path and the line with a colon between, as a note is pointed at. -/
def location (o : Origin) : Text :=
  o.path ++ ':' :: ofNat o.line

end Origin

/-- A documented unit. -/
structure Note where
  label : Text
  origin : Origin
  tags : Dictionary (List (List Text))
deriving DecidableEq

namespace Note

/-- The key of a note. -/
def key (n : Note) : Text :=
  n.origin.key

/-- The occurrences of a tag, if the note carries it. -/
def occurrences? (n : Note) (tag : Text) : Option (List (List Text)) :=
  n.tags.find? tag

end Note

end Marginalia
