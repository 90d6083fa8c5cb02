import Marginalia.FileTree.Change
import Marginalia.Template.Render
import Marginalia.Workspace.Sources

/-!
# Transformation of templates

A plan pairs templates with the places of their rendered forms. Every template of a plan is
rendered before the first rendered text is written, and a template that fails does not stop the
others.
-/

namespace Marginalia

open Text

/-- A template and the place of its rendered form. -/
structure Planned where
  source : Path
  destination : Path
deriving DecidableEq

/-- A rendered template that is not yet written. -/
structure Rendered extends Planned where
  content : Text
deriving DecidableEq

/-- The outcome of rendering the templates of a plan: those that can be written, and those that
failed with their causes. -/
structure Report where
  written : List Rendered
  failures : List (Path × Failure)
deriving DecidableEq

/-- Whether no template failed. -/
def Report.isClean (r : Report) : Bool :=
  r.failures.isEmpty

namespace Workspace

/-- The two template directories of a workspace, if both are set. -/
def directories? (root : Path) (settings : Settings) : Option (Path × Path) :=
  settings.directories?.map fun (entry, output) => (root.join entry, root.join output)

/-- The place of a rendered template: the same place below the output directory for a template
below the entry directory, and a name of its own beside it for any other. -/
def destination (directories : Option (Path × Path)) (source : Path) : Path :=
  let below := directories.bind fun (entry, output) => (source.stripPrefix? entry).map output.join
  below.getD source.generated

/-- The templates of a workspace: the given ones or, if there are none, all below the entry
directory, which must be one that can be listed. -/
def planSources (tree : FileTree) (root : Path) (settings : Settings) (inputs : List Path) :
    Except Failure (List Path) :=
  match inputs, directories? root settings with
  | [], some (entry, _) => templates tree entry
  | _, _ => .ok (inputs.map root.join)

/-- The plan for the templates of a workspace. -/
def plan (tree : FileTree) (root : Path) (settings : Settings) (inputs : List Path) :
    Except Failure (List Planned) :=
  (planSources tree root settings inputs).map fun sources => sources.map fun source =>
    ⟨source, destination (directories? root settings) source⟩

/-- The rendered form of the template at a path. -/
def transformFile (tree : FileTree) (d : Document) (path : Path) : Except Failure Text := do
  let t ← (tree.readText path).mapError Failure.file
  Template.render d (normalizeBreaks t)

/-- Add the outcome of a template to the report on those behind it. -/
def reportOn (planned : Planned) (outcome : Except Failure Text) (rest : Report) : Report :=
  match outcome with
  | .ok content => { rest with written := ⟨planned, content⟩ :: rest.written }
  | .error cause => { rest with failures := (planned.source, cause) :: rest.failures }

/-- Render planned templates. -/
def render (tree : FileTree) (d : Document) (planned : List Planned) : Report :=
  planned.foldr (fun planned => reportOn planned (transformFile tree d planned.source)) ⟨[], []⟩

/-- Render the templates of a workspace. -/
def transform (tree : FileTree) (root : Path) (settings : Settings) (d : Document)
    (inputs : List Path) : Except Failure Report :=
  (plan tree root settings inputs).map (render tree d)

/-- Write the rendered templates of a report, up to the first that cannot be written. -/
def writeReport (r : Report) : FileAction FileFault Unit :=
  r.written.forM fun file => FileAction.writeBelow file.destination file.content

end Workspace

end Marginalia
