import Marginalia.Failure
import Marginalia.Note.Basic
import Marginalia.Tag.Fields

/-!
# Notes of a file

The comments of a file fall into sections, each headed by a comment that carries the opening tag;
comments before the first such comment belong to no note. Inside a section, line comments on
successive lines are read as one text, so that a block tag runs on over them. A section makes one
note, or fails when its opening tag has no key.
-/

namespace Marginalia

open Text Comment

/-- A section of the comments of a file: the opening tag that heads it and its comments. -/
structure Section where
  opening : Tag
  fragments : List Fragment

/-- Text that is read for tags as a whole, with the source line of its first line. -/
structure Run where
  text : Text
  line : Nat
deriving DecidableEq

namespace Section

/-- The first opening tag of a comment. -/
def openingTag? (initTag : Text) (f : Fragment) : Option Tag :=
  (Tag.ofFragment initTag f).find? (·.name = initTag)

/-- The comments before the first section, and the sections. -/
def cut (initTag : Text) : List Fragment → List Fragment × List Section
  | [] => ([], [])
  | f :: rest =>
    let (loose, sections) := cut initTag rest
    match openingTag? initTag f with
    | some tag => ([], ⟨tag, f :: loose⟩ :: sections)
    | none => (f :: loose, sections)

/-- Whether the second of two comments goes on with the text of the first: both are line comments
and the second stands on the line behind the first. -/
def continues (f g : Fragment) : Bool :=
  f.kind.isLine && g.kind.isLine && g.line == f.endLine + 1

/-- The text of comments that go on with one another, with the line on which it starts. -/
def runOf (fragments : List Fragment) : Run where
  text := unlines (fragments.map (·.content))
  line := (fragments.head?.map (·.contentLine)).getD 0

/-- The texts of a section: comments that go on with one another are joined. -/
def runs (fragments : List Fragment) : List Run :=
  (fragments.splitBy continues).map runOf

/-- The names that mean something else in a stored note. -/
def reservedNames : List Text :=
  ["label".toList, "meta".toList]

/-- The tags that a section gives to its note, in order. -/
def tags (initTag : Text) (s : Section) : List Tag :=
  ((runs s.fragments).flatMap fun run => Tag.ofText initTag run.line run.text).filter fun tag =>
    tag.name != initTag && !reservedNames.contains tag.name

/-- The fields of tags by name, occurrence after occurrence. -/
def tally (tags : List Tag) : Dictionary (List (List Text)) :=
  tags.foldl (fun d tag => d.alter tag.name fun found => found.getD [] ++ [tag.fields]) .empty

/-- The note of a section. The label is the key unless the opening tag has one. -/
def note (initTag : Text) (file : SourceFile) (s : Section) : Except Failure Note :=
  match s.opening.arguments with
  | [] => .error (.missingKey initTag file.path s.opening.line)
  | key :: more => .ok
    { label := more.head?.getD key
      origin :=
        { file with
          line := (s.fragments.head?.map (·.line)).getD s.opening.line
          key := key }
      tags := tally (s.tags initTag) }

end Section

namespace Note

/-- The notes of the comments of a file, in order. The first section without a key makes the
whole file fail. -/
def ofFragments (initTag : Text) (file : SourceFile) (fragments : List Fragment) :
    Except Failure (List Note) :=
  (Section.cut initTag fragments).2.mapM (Section.note initTag file)

/-- The notes of a source text. -/
def ofText (initTag : Text) (style : Style) (file : SourceFile) (t : Text) :
    Except Failure (List Note) :=
  ofFragments initTag file (fragments style t)

end Note

end Marginalia
