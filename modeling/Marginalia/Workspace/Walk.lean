import Marginalia.FileTree.Follow

/-!
# Walks

A walk visits a directory and the directories below it and gathers files. Hidden names, the
directories of installed packages and of build output, and what a selection ignores are left out.
A directory that is reached twice, over links, is visited the first time only, so every walk comes
to an end: each visit is one of a directory that was not visited before. A directory that cannot be
listed is reported, and nothing in it is gathered; if it is the first one, the walk fails.
-/

namespace Marginalia

/-- What a walk leaves out, told apart by whether it is a directory, and which files it takes. -/
structure Selection where
  ignores : Path → Bool → Bool
  takes : Path → Bool

namespace Selection

/-- Whether a walk leaves out every entry with this name. A name that is no text is not left out. -/
def isSkippedName (name : Bytes) : Bool :=
  name.text?.any fun t =>
    t.head? == some '.' || t == "node_modules".toList || t == "target".toList

end Selection

namespace FileTree

/-- The paths that a walk finds in a directory and does not leave out. -/
def candidatesIn (tree : FileTree) (selection : Selection) (directory : Path) (place : Place) :
    List Path :=
  (((tree.listed place).filter fun name => !Selection.isSkippedName name).map
    fun name => directory.join ⟨name⟩).filter
      fun path => !selection.ignores path (tree.isDirectory path)

/-- The places of directories that are not visited. -/
def unvisited (tree : FileTree) (visited : List Place) : List Place :=
  tree.directories.filter fun place => !visited.contains place

/-- A visit leaves fewer directories to visit. -/
theorem length_unvisited_lt {tree : FileTree} {visited : List Place} {place : Place}
    (hp : place ∈ tree.directories) (hv : place ∉ visited) :
    (tree.unvisited (place :: visited)).length < (tree.unvisited visited).length := by
  have h : tree.unvisited (place :: visited) =
      (tree.unvisited visited).filter fun p => p ≠ place := by
    simp only [unvisited, List.filter_filter]
    congr 1
    funext p
    simp
  rw [h, List.length_filter_lt_length_iff_exists]
  exact ⟨place, List.mem_filter.2 ⟨hp, by simpa using hv⟩, by simp⟩

/-- The directories that a walk visits, each by the path by which it is reached and its place, given
the places visited so far and the directories still to visit, the next first. -/
def visits (tree : FileTree) (selection : Selection) (visited : List Place) :
    List Path → List (Path × Place)
  | [] => []
  | directory :: pending =>
    match _hd : tree.directory? directory with
    | none => tree.visits selection visited pending
    | some place =>
      if _hv : place ∈ visited then tree.visits selection visited pending
      else
        let below := (tree.candidatesIn selection directory place).filter tree.isDirectory
        (directory, place) :: tree.visits selection (place :: visited) (below ++ pending)
termination_by pending => ((tree.unvisited visited).length, pending.length)
decreasing_by
  · exact Prod.Lex.right _ (Nat.lt_succ_self _)
  · exact Prod.Lex.right _ (Nat.lt_succ_self _)
  · exact Prod.Lex.left _ _ (length_unvisited_lt (directory?_mem _hd) _hv)

/-- The files that a walk takes in a directory. -/
def filesIn (tree : FileTree) (selection : Selection) (directory : Path) (place : Place) :
    List Path :=
  (tree.candidatesIn selection directory place).filter fun path =>
    !tree.isDirectory path && selection.takes path

/-- The files that a walk from a directory takes, in the order of their paths. -/
def gathered (tree : FileTree) (selection : Selection) (directory : Path) : List Path :=
  ((tree.visits selection [] [directory]).flatMap fun (path, place) =>
    tree.filesIn selection path place).mergeSort Path.le

/-- The directories that a walk cannot list, in the order in which it comes to them. -/
def unlisted (tree : FileTree) (selection : Selection) (directory : Path) : List Path :=
  ((tree.visits selection [] [directory]).filter fun v => tree.closedAt v.2).map Prod.fst

/-- The outcome of a walk: the files that it takes, and the directories that it cannot list with the
causes. -/
structure Collected where
  files : List Path
  unreadable : List (Path × Failure)
deriving DecidableEq

/-- Walk from a directory, which must be one that can be listed. -/
def collect (tree : FileTree) (selection : Selection) (directory : Path) :
    Except Failure Collected :=
  if tree.isClosed directory then .error (.file .denied)
  else
    .ok {
      files := tree.gathered selection directory
      unreadable := (tree.unlisted selection directory).map fun path => (path, .file .denied) }

end FileTree

end Marginalia
