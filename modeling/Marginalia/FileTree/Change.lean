import Marginalia.FileTree.Follow

/-!
# Changes of a file tree

Making a directory and writing a file either change one place of the tree or fail and change
nothing. Making a directory with those above it may fail half way, so it runs as an action that
keeps what was made up to the failure.
-/

namespace Marginalia

open Bytes

/-- A run over a file tree that keeps its changes when it fails. -/
abbrev FileAction (ε : Type) := ExceptT ε (StateM FileTree)

namespace FileTree

/-- Make a directory. Its last name is taken as it is, even if a link has it. -/
def makeDirectory (tree : FileTree) (path : Path) : Except FileFault FileTree :=
  match (namesOf path.bytes).reverse.dropWhile (·.isEmpty) with
  | [] => .error (if path.bytes = [] then .notFound else .exists)
  | name :: back => do
    let parent ← tree.follow linkLimit (tree.startOf path) (back.reverse ++ [[]])
    if name = [dot] ∨ name = [dot, dot] ∨ (tree.entryAt? (parent ++ [name])).isSome then
      .error .exists
    else
      return tree.put (parent ++ [name]) .directory

/-- Whether a file stands at a place that can be neither read nor written. -/
def closedFileAt (tree : FileTree) (place : Place) : Bool :=
  match tree.entryAt? place with
  | some (.file content _) => content.isClosed
  | _ => false

/-- Write a text to the file to which a path leads, which need not be there yet. -/
def writeText (tree : FileTree) (path : Path) (t : Text) : Except FileFault FileTree := do
  let names := namesOf path.bytes
  if path.bytes = [] then .error .notFound
  else if names.getLast? ∈ [some [], some [dot], some [dot, dot]] then
    let _ ← tree.follow linkLimit (tree.startOf path) (names.dropLast ++ [[]])
    .error .isDirectory
  else
    let place ← tree.follow linkLimit (tree.startOf path) names
    if tree.directoryAt place then .error .isDirectory
    else if tree.closedFileAt place then .error .denied
    else return tree.put place (.file (.text t) tree.now)

end FileTree

namespace FileAction

/-- Make one change. -/
def change (f : FileTree → Except FileFault FileTree) : FileAction FileFault Unit := do
  match f (← get) with
  | .ok tree => set tree
  | .error fault => throw fault

/-- Make a directory, given with the directories above it from the innermost, where those that
are missing are made first. One that is there already is left alone. -/
def makeEach : List Path → FileAction FileFault Unit
  | [] => throw .notFound
  | path :: above => do
    if path.bytes = [] then return
    match (← get).makeDirectory path with
    | .ok tree => set tree
    | .error .notFound =>
      makeEach above
      match (← get).makeDirectory path with
      | .ok tree => set tree
      | .error fault => if (← get).isDirectory path then return else throw fault
    | .error fault => if (← get).isDirectory path then return else throw fault

/-- Make a directory and the directories above it that are missing. -/
def makeDirectories (path : Path) : FileAction FileFault Unit :=
  makeEach path.ancestors

/-- Write a text to a file, making the directories above it. -/
def writeBelow (path : Path) (t : Text) : FileAction FileFault Unit := do
  match path.parent? with
  | some parent => makeDirectories parent
  | none => pure ()
  change fun tree => tree.writeText path t

end FileAction

end Marginalia
