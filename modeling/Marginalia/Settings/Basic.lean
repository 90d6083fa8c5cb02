import Marginalia.Comment.StyleTable
import Marginalia.Path

/-!
# Settings

What a workspace can set: the tag that opens a note, the comment syntax of its languages, which
files are read, where the document is stored and which templates are rendered. Each setting has a
value when nothing is set.
-/

namespace Marginalia

open Text Comment

/-- The settings of a workspace. The two template directories belong together: templates below the
entry are rendered to the same places below the output. -/
structure Settings where
  initTag : Text := "doc".toList
  commentPatterns : Dictionary StyleChange := .empty
  languages : Dictionary Text := .empty
  includes : List Text := []
  excludes : List Text := []
  disableGitignore : Bool := false
  maxFileSize : Nat := 10 * 1024 * 1024
  documentPath : Path := ⟨"doctag.canonical.json".toList⟩
  entry : Option Path := none
  output : Option Path := none
deriving DecidableEq

/-- How the comments of source files are read: the opening tag, without its sign, and the table
of styles. -/
structure Reading where
  initTag : Text
  styles : StyleTable

namespace Settings

/-- The places where settings are looked for below the root of a workspace, the first first. -/
def candidates : List Path :=
  ["doctag.json", ".doctag.json", "doctag.toml", ".config/doctag.toml"].map (⟨·.toList⟩)

/-- The text of a settings file to start from. -/
def sample : String :=
  "\x7b\n  \"initTag\": \"doc\",\n  \"include\": [],\n  \"exclude\": [],\n" ++
    "  \"canonicalPath\": \"doctag.canonical.json\",\n  \"transform\": \x7b\x7d\n\x7d\n"

/-- The directory of templates and the directory of their rendered forms, if both are set. -/
def directories? (s : Settings) : Option (Path × Path) := do
  return (← s.entry, ← s.output)

/-- Where the document of a workspace is stored. -/
def documentPathIn (s : Settings) (root : Path) : Path :=
  root.join s.documentPath

/-- The table of styles: languages are routed first, then styles are changed. -/
def styles (s : Settings) : StyleTable :=
  let routed := s.languages.entries.foldl (fun table e => table.route e.1 e.2) StyleTable.builtin
  routed.change s.commentPatterns

/-- How comments are read under these settings. -/
def reading (s : Settings) : Reading where
  initTag := (trim s.initTag).dropWhile (· == '@')
  styles := s.styles

end Settings

end Marginalia
