import Marginalia.IgnoreRules
import Marginalia.Settings.Basic
import Marginalia.Workspace.Walk

/-!
# Sources and templates of a workspace

The sources are the files whose extension has a comment style, without markdown, and those that
the settings include. Rules from the ignore file at the root and from the settings hold for both.
The templates below a directory are its markdown files that are not rendered ones themselves.
-/

namespace Marginalia

open Text

namespace Workspace

/-- The rules of the ignore file at the root, if it can be read; lines that are no rules are
skipped. -/
def ignoreFile (tree : FileTree) (root : Path) : IgnoreRules :=
  match tree.fileAt (root.join ⟨".gitignore".toList⟩) with
  | .ok (content, _) => .ofReadable root (IgnoreRules.linesOf content.readable)
  | .error _ => .empty

/-- The pattern of files to include. -/
def includePattern (pattern : Text) : Except Failure (List Glob.Token) :=
  match Glob.parse? false pattern with
  | some tokens => .ok tokens
  | none => .error (.pattern pattern)

/-- Whether a path below the root fits one of some patterns. -/
def isIncluded (root : Path) (patterns : List (List Glob.Token)) (path : Path) : Bool :=
  (path.stripPrefix? root).any fun relative =>
    patterns.any fun pattern => Glob.fits false pattern relative.bytes

/-- Whether a file is a source by its extension. -/
def isSource (table : Comment.StyleTable) (path : Path) : Bool :=
  !path.isMarkdown && path.extensionText?.any table.knowsExtension

/-- What a walk over the sources of a workspace leaves out and takes. -/
def sourceSelection (tree : FileTree) (root : Path) (settings : Settings) :
    Except Failure Selection := do
  let fromFile := if settings.disableGitignore then .empty else ignoreFile tree root
  let excluded ← IgnoreRules.ofLines root settings.excludes
  let included ← settings.includes.mapM includePattern
  let table := settings.styles
  return {
    ignores := fun path isDirectory =>
      fromFile.ignores path isDirectory || excluded.ignores path isDirectory
    takes := fun path => isIncluded root included path || isSource table path }

/-- The sources of a workspace in the order of their paths, and the directories that cannot be
listed. -/
def sources (tree : FileTree) (root : Path) (settings : Settings) :
    Except Failure FileTree.Collected := do
  tree.collect (← sourceSelection tree root settings) root

/-- Whether a markdown file has the name of a rendered one. A name that is no text is none. -/
def isGenerated (path : Path) : Bool :=
  (path.fileName?.bind Bytes.text?).any fun name => contains name ".generated.".toList

/-- What a walk over templates takes. -/
def templateSelection : Selection where
  ignores _ _ := false
  takes path := path.isMarkdown && !isGenerated path

/-- The templates below a directory in the order of their paths, as far as the directories below it
can be listed. -/
def templates (tree : FileTree) (directory : Path) : Except Failure (List Path) :=
  (tree.collect templateSelection directory).map FileTree.Collected.files

end Workspace

end Marginalia
