import Marginalia.Document.Basic
import Marginalia.Note.Assemble
import Marginalia.Workspace.Sources

/-!
# Scans

A scan reads the sources of a workspace one after another and indexes their notes. A file that
cannot be read is skipped and reported with its cause, and the others are indexed all the same; so
is a directory that cannot be listed, and the directories are reported first. A key that is declared
twice makes the whole scan fail.
-/

namespace Marginalia

open Text

/-- A file or directory that a scan skipped, by its path below the root, and why. -/
structure Diagnostic where
  file : Text
  cause : Failure
deriving DecidableEq

/-- The line at which the cause points, if it points at one. -/
def Diagnostic.line? (d : Diagnostic) : Option Nat :=
  match d.cause with
  | .missingKey _ _ line => some line
  | _ => none

/-- What a scan finds: the indexed notes, the files and directories it skipped, and the number of
files it looked at. -/
structure ScanResult where
  document : Document
  diagnostics : List Diagnostic
  filesScanned : Nat
deriving DecidableEq

/-- Whether nothing was skipped. -/
def ScanResult.isClean (r : ScanResult) : Bool :=
  r.diagnostics.isEmpty

/-- What notes keep of the file at a path. -/
def SourceFile.ofPath (root path : Path) (lastEdit : Text) : SourceFile where
  path := path.relativeTo root
  name := (path.fileName?.getD []).lossy
  extension := (path.extension?.getD []).lossy
  lastEdit := lastEdit

/-- The notes of a text that stands in the file at a path. -/
def Reading.notes (reading : Reading) (root path : Path) (lastEdit t : Text) :
    Except Failure (List Note) :=
  Note.ofText reading.initTag (reading.styles.styleFor path.extensionText? none)
    (.ofPath root path lastEdit) t

namespace Workspace

/-- The notes of the file at a path. -/
def scanFile (tree : FileTree) (root : Path) (maxFileSize : Nat) (reading : Reading)
    (path : Path) : Except Failure (List Note) := do
  let (content, modified) ← (tree.fileAt path).mapError Failure.file
  if maxFileSize < content.size then
    .error (.tooLarge (path.relativeTo root) content.size maxFileSize)
  else
    match content with
    | .text t => reading.notes root path modified.written (normalizeBreaks t)
    | .binary _ => .error (.file .invalidText)
    | .closed _ => .error (.file .denied)

/-- The diagnostic about a path that is skipped. -/
def diagnosticOf (root path : Path) (cause : Failure) : Diagnostic :=
  ⟨path.relativeTo root, cause⟩

/-- The notes and the diagnostic that a file adds to a scan, given what reading it leads to. -/
def outcome (root path : Path) : Except Failure (List Note) → List Note × List Diagnostic
  | .ok notes => (notes, [])
  | .error cause => ([], [diagnosticOf root path cause])

/-- Scan a workspace. -/
def scan (tree : FileTree) (root : Path) (settings : Settings) : Except Failure ScanResult := do
  let found ← sources tree root settings
  let reading := settings.reading
  let outcomes := found.files.map fun path =>
    outcome root path (scanFile tree root settings.maxFileSize reading path)
  let document ← Document.ofNotes (outcomes.flatMap Prod.fst)
  return {
    document := document
    diagnostics := (found.unreadable.map fun (path, cause) => diagnosticOf root path cause) ++
      outcomes.flatMap Prod.snd
    filesScanned := found.files.length }

end Workspace

end Marginalia
