import Marginalia.Failure
import Marginalia.FileTree.Basic
import Marginalia.Path

/-!
# Places of paths

A path leads from the top of the tree, or from the working directory, to a place. Every name but
the last must lead to a directory, two dots lead to the directory above, and a link leads where
its target does. Only a limited number of links is followed, so a circle of links leads nowhere.
-/

namespace Marginalia

open Bytes

namespace FileTree

/-- The number of links that are followed on the way to one place. -/
def linkLimit : Nat :=
  40

/-- The names between the slashes of a written path. -/
def namesOf (path : Bytes) : List Bytes :=
  path.splitOn slash

/-- The place to which names lead from a directory. Nothing needs to stand at the last place. Where
a link is on the way, `onLink` leads on from the directory from which its target is followed, along
the names of the target and those behind it. -/
def followNames (tree : FileTree) (onLink : Place → List Bytes → Except FileFault Place)
    (here : Place) : List Bytes → Except FileFault Place
  | [] => .ok here
  | name :: rest =>
    if !tree.directoryAt here then
      .error (if (tree.entryAt? here).isSome then .notDirectory else .notFound)
    else if name = [] ∨ name = [dot] then tree.followNames onLink here rest
    else if name = [dot, dot] then tree.followNames onLink here.dropLast rest
    else
      match tree.entryAt? (here ++ [name]) with
      | some (.link target) =>
        onLink (if target.head? = some slash then [] else here) (namesOf target ++ rest)
      | _ => tree.followNames onLink (here ++ [name]) rest

/-- The place to which names lead from a directory over a limited number of links. -/
def follow (tree : FileTree) : Nat → Place → List Bytes → Except FileFault Place
  | 0 => tree.followNames fun _ _ => .error .tooManyLinks
  | left + 1 => tree.followNames (tree.follow left)

/-- The place from which a path leads. -/
def startOf (tree : FileTree) (path : Path) : Place :=
  if path.isAbsolute then [] else tree.working

/-- The place to which a path leads, and what stands there. -/
def locate (tree : FileTree) (path : Path) : Except FileFault (Place × Entry) := do
  if path.bytes = [] then .error .notFound
  else
    let place ← tree.follow linkLimit (tree.startOf path) (namesOf path.bytes)
    match tree.entryAt? place with
    | some entry => return (place, entry)
    | none => .error .notFound

/-- The place of the directory to which a path leads. -/
def directory? (tree : FileTree) (path : Path) : Option Place :=
  match tree.locate path with
  | .ok (place, .directory _) => some place
  | _ => none

/-- A path to a directory leads to one of the places of directories. -/
theorem directory?_mem {tree : FileTree} {path : Path} {place : Place}
    (h : tree.directory? path = some place) : place ∈ tree.directories := by
  rw [directory?] at h
  split at h
  · rename_i p listable hl
    obtain rfl := Option.some.inj h
    refine mem_directories_of_directoryAt ?_
    rw [locate] at hl
    split at hl
    · simp at hl
    · cases hf : tree.follow linkLimit (tree.startOf path) (namesOf path.bytes) with
      | error fault => simp [hf, bind, Except.bind] at hl
      | ok q =>
        simp only [hf, bind, Except.bind] at hl
        split at hl
        · rename_i entry he
          obtain ⟨rfl, rfl⟩ := Prod.mk.inj (Except.ok.inj hl)
          simp [directoryAt, he, Entry.isDirectory]
        · simp at hl
  · simp at h

/-- Whether a path leads to a directory. -/
def isDirectory (tree : FileTree) (path : Path) : Bool :=
  (tree.directory? path).isSome

/-- Whether a path leads to a directory that cannot be listed. -/
def isClosed (tree : FileTree) (path : Path) : Bool :=
  (tree.directory? path).any tree.closedAt

/-- Whether a path leads to a file. -/
def isFile (tree : FileTree) (path : Path) : Bool :=
  match tree.locate path with
  | .ok (_, .file ..) => true
  | _ => false

/-- The content of the file to which a path leads, and the time of its last change. -/
def fileAt (tree : FileTree) (path : Path) : Except FileFault (Content × Instant) := do
  match ← tree.locate path with
  | (_, .file content modified) => return (content, modified)
  | _ => .error .isDirectory

/-- The text of the file to which a path leads. -/
def readText (tree : FileTree) (path : Path) : Except FileFault Text := do
  match ← tree.fileAt path with
  | (.text t, _) => return t
  | (.binary _, _) => .error .invalidText
  | (.closed _, _) => .error .denied

end FileTree

end Marginalia
