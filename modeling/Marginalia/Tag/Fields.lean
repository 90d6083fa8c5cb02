import Marginalia.Tag.Basic

/-!
# Fields of a tag

What a document keeps of a tag is a list of fields. Most tags have one field for each word. A
parameter has a name, a type and a free text, a result a type and a free text, as long as there is
such a text; the text of a block tag is one field.
-/

namespace Marginalia.Tag

open Text

/-- The number of single words before the free text of a tag with this name. -/
def leadingWords (name : Text) : Nat :=
  if name = "param".toList then 2 else if name = "returns".toList then 1 else 0

/-- The first words of a text and the trimmed rest, if the text has that many words. -/
def takeWords : Nat → Text → Option (List Text × Text)
  | 0, t => some ([], trim t)
  | n + 1, t =>
    match trimStart t with
    | [] => none
    | c :: rest =>
      let (word, behind) := breakWord (c :: rest)
      (takeWords n behind).map fun (more, last) => (word :: more, last)

/-- The fields of a tag. -/
def fields (tag : Tag) : List Text :=
  if tag.isBlock then [tag.content]
  else
    match leadingWords tag.name with
    | 0 => words tag.content
    | n + 1 =>
      match takeWords (n + 1) tag.content with
      | some (leading, c :: rest) => leading ++ [c :: rest]
      | _ => words tag.content

end Marginalia.Tag
