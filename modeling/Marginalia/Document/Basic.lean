import Marginalia.Failure
import Marginalia.Note.Basic

/-!
# Documents

A document holds the notes of a workspace under their stored keys. Notes are indexed one after
another; a key that is taken is refused with the places of both notes.
-/

namespace Marginalia

/-- What a stored key has in front of the key of its note. -/
def keyPrefix : Text :=
  "doc.".toList

/-- The key under which the note with this key is stored. -/
def storedKey (key : Text) : Text :=
  keyPrefix ++ key

/-- Notes by stored key. -/
structure Document where
  notes : Dictionary Note
deriving DecidableEq

namespace Document

/-- The document without notes. -/
def empty : Document :=
  ⟨.empty⟩

instance : Inhabited Document :=
  ⟨empty⟩

/-- The note with this key. -/
def note? (d : Document) (key : Text) : Option Note :=
  d.notes.find? (storedKey key)

/-- Add a note whose key is not yet taken. -/
def insert (d : Document) (n : Note) : Except Failure Document :=
  match d.note? n.key with
  | some earlier => .error (.duplicateKey n.key earlier.origin.location n.origin.location)
  | none => .ok ⟨d.notes.insert (storedKey n.key) n⟩

/-- Index notes in the given order. -/
def ofNotes (notes : List Note) : Except Failure Document :=
  notes.foldlM insert empty

end Document

end Marginalia
