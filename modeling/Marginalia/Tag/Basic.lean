import Marginalia.Comment.Fragment
import Marginalia.Text.Word

/-!
# Tags

A tag line is an at sign, a name, and, behind a blank, text that runs to the end of the line. The
lines that follow a block tag belong to it up to the next tag line; behind any other tag they
belong to nothing. Lines are read from the last to the first, so that each tag line finds the
lines that follow it already gathered.
-/

namespace Marginalia

open Text

/-- A tag of a comment. A block tag has no arguments; the content of a tag is its text. -/
structure Tag where
  name : Text
  arguments : List Text
  content : Text
  line : Nat
deriving DecidableEq

namespace Tag

/-- The names of the tags whose text runs over several lines. -/
def blockNames : List Text :=
  ["description".toList, "example".toList]

/-- Whether the text of tags with this name runs over several lines. -/
def isBlockName (name : Text) : Bool :=
  blockNames.contains name

/-- Whether the text of the tag runs over several lines. -/
def isBlock (t : Tag) : Bool :=
  isBlockName t.name

/-- Whether a text is a tag name: nonempty runs of word characters with single dots between. -/
def isName (t : Text) : Bool :=
  (t.splitOn '.').all fun group => !group.isEmpty && group.all isWord

/-- The name and the text of a tag line. The text starts behind the blanks that follow the name. -/
def ofLine? (line : Text) : Option (Text × Text) :=
  match trimStart line with
  | '@' :: rest =>
    let name := rest.takeWhile fun c => isWord c || c == '.'
    let behind := rest.dropWhile fun c => isWord c || c == '.'
    if isName name && (behind.take 1).all isBlank then some (name, trimStart behind) else none
  | _ => none

/-- The arguments of an opening tag: a key and, if there is more, a label that may hold blanks. -/
def keyAndLabel (content : Text) : List Text :=
  let (key, rest) := breakWord content
  [key, trim rest].filter (!·.isEmpty)

/-- The tag of a line with this name and text, followed by lines that are no tag lines. -/
def ofParts (initTag name inline : Text) (line : Nat) (following : List Text) : Tag :=
  if isBlockName name then
    ⟨name, [], trim (unlines (inline :: following)), line⟩
  else
    let content := trim inline
    ⟨name, if name = initTag then keyAndLabel content else words content, content, line⟩

/-- Read lines, the first of which has this number, into the lines before the first tag line and
the tags. -/
def readLines (initTag : Text) : Nat → List Text → List Text × List Tag
  | _, [] => ([], [])
  | number, line :: rest =>
    let (following, tags) := readLines initTag (number + 1) rest
    match ofLine? line with
    | some (name, inline) => ([], ofParts initTag name inline number following :: tags)
    | none => (line :: following, tags)

/-- The tags of a comment text whose first line has this number. -/
def ofText (initTag : Text) (firstLine : Nat) (t : Text) : List Tag :=
  (readLines initTag firstLine (lines t)).2

/-- The tags of one comment. -/
def ofFragment (initTag : Text) (f : Comment.Fragment) : List Tag :=
  ofText initTag f.contentLine f.content

end Tag

end Marginalia
