import Marginalia.Datum.OfJson
import Marginalia.Failure
import Marginalia.FileTree.Follow
import Marginalia.Settings.Basic
import Marginalia.Toml.Reader

/-!
# Stored settings

Settings are stored as a record in JSON or TOML, as the extension of the file says. A field that
is missing has its default, and unknown fields are ignored. The opening tag must not be blank.
-/

namespace Marginalia

open Text Comment

/-- Delimiters from data: both marks are needed. -/
def Comment.Delimiters.ofDatum? (longer : Bool) (datum : Datum) : Option Delimiters := do
  match ← datum.record? longer (["start", "end"].map String.toList) with
  | [opening, closing] =>
    return ⟨← Datum.fieldOf Datum.text? opening, ← Datum.fieldOf Datum.text? closing⟩
  | _ => none

/-- A change of style from data. -/
def Comment.StyleChange.ofDatum? (longer : Bool) (datum : Datum) : Option StyleChange := do
  let marks := Datum.fieldOr none (Datum.nullable? (Datum.list? Datum.text?))
  let delimiters := Datum.fieldOr none (Datum.nullable? (Delimiters.ofDatum? longer))
  match ← datum.record? longer (["single", "docSingle", "multi", "docMulti"].map String.toList) with
  | [line, docLine, block, docBlock] =>
    return {
      line := ← marks line
      docLine := ← marks docLine
      block := ← delimiters block
      docBlock := ← delimiters docBlock }
  | _ => none

namespace Settings

/-- A path from data. -/
def path? (datum : Datum) : Option Path :=
  datum.text?.map Path.ofText

/-- The two template directories from data. -/
def directoriesOfDatum? (longer : Bool) (datum : Datum) : Option (Option Path × Option Path) := do
  let directory := Datum.fieldOr none (Datum.nullable? path?)
  match ← datum.record? longer (["entry", "output"].map String.toList) with
  | [entry, output] => return (← directory entry, ← directory output)
  | _ => none

/-- The names of the fields of stored settings. -/
def fieldNames : List Text :=
  ["initTag", "commentPatterns", "languages", "include", "exclude", "disableGitignore",
    "maxFileSize", "canonicalPath", "transform"].map String.toList

/-- The settings that data stands for. Whether a record given as a list may be longer than it has
fields is up to the format. -/
def ofDatum? (longer : Bool) (datum : Datum) : Option Settings := do
  let d : Settings := {}
  let texts := Datum.fieldOr [] (Datum.list? Datum.text?)
  match ← datum.record? longer fieldNames with
  | [initTag, patterns, languages, includes, excludes, disable, size, path, directories] =>
    let (entry, output) ←
      Datum.fieldOr (none, none) (directoriesOfDatum? longer) directories
    return {
      initTag := ← Datum.fieldOr d.initTag Datum.text? initTag
      commentPatterns :=
        ← Datum.fieldOr .empty (Datum.dictionary? (StyleChange.ofDatum? longer)) patterns
      languages := ← Datum.fieldOr .empty (Datum.dictionary? Datum.text?) languages
      includes := ← texts includes
      excludes := ← texts excludes
      disableGitignore := ← Datum.fieldOr d.disableGitignore Datum.bool? disable
      maxFileSize := ← Datum.fieldOr d.maxFileSize Datum.natural? size
      documentPath := ← Datum.fieldOr d.documentPath path? path
      entry := entry
      output := output }
  | _ => none

/-- Whether a settings file is in TOML. -/
def isToml (path : Path) : Bool :=
  path.extensionText?.any fun extension => toAsciiLower extension = "toml".toList

/-- The settings that a text in the format of a file stands for. -/
def ofText? (path : Path) (t : Text) : Option Settings :=
  if isToml path then (Toml.read? t).bind (ofDatum? true)
  else (Json.read? t).bind fun json => ofDatum? false (.ofJson json)

/-- Read the text of a settings file. -/
def read (path : Path) (t : Text) : Except Failure Settings :=
  match ofText? path t with
  | some s =>
    if (trim s.initTag).isEmpty then .error (.settings path.display .blankInitTag) else .ok s
  | none => .error (.settings path.display .malformed)

/-- The settings file of a workspace, if there is one. -/
def find? (tree : FileTree) (root : Path) : Option Path :=
  (candidates.map root.join).find? tree.isFile

/-- Load a settings file. -/
def load (tree : FileTree) (path : Path) : Except Failure Settings := do
  read path (← (tree.readText path).mapError Failure.file)

/-- The settings of a workspace, if it has a settings file. -/
def loadFound? (tree : FileTree) (root : Path) : Except Failure (Option Settings) :=
  match find? tree root with
  | some path => (load tree path).map some
  | none => .ok none

/-- The settings of a workspace: those of its settings file, or the defaults. -/
def loadOrDefault (tree : FileTree) (root : Path) : Except Failure Settings :=
  (loadFound? tree root).map (·.getD {})

end Settings

end Marginalia
