import Mathlib.Algebra.Order.Ring.Nat
import Marginalia.Proofs.Workspace.Walk

/-!
# Walks as descents

A descent enters a directory, goes through the names that it lists and enters the directories among
them before it goes on. Nothing in that recursion bounds it, and links may lead it around in
circles. What bounds it are the places that were visited: every directory that is listed becomes one
of them, and none of them is listed again. So every descent comes to an end, and it visits and
gathers what a walk does.
-/

namespace Marginalia

namespace FileTree

/-- What a descent is sent to: one path, or names that a directory lists. -/
inductive Errand
  | to (path : Path)
  | through (directory : Path) (names : List Bytes)

/-- What a descent leaves behind: the directories that it listed, as far as they can be, each by the
path by which it came there and its place, the files that it took, the places that are visited by
then, and how many of the listed names it looked at. -/
structure Trail where
  listed : List (Path × Place)
  files : List Path
  visited : List Place
  looks : Nat

namespace Trail

/-- The trail of a descent that does nothing. -/
def idle (visited : List Place) : Trail :=
  ⟨[], [], visited, 0⟩

/-- The trail of a descent after another one. -/
@[simps] def append (first second : Trail) : Trail :=
  ⟨first.listed ++ second.listed, first.files ++ second.files, second.visited,
    first.looks + second.looks⟩

/-- A trail below a directory that is listed first. -/
@[simps] def below (trail : Trail) (path : Path) (place : Place) : Trail :=
  { trail with listed := (path, place) :: trail.listed }

/-- A trail with one more name that was looked at. -/
@[simps] def look (trail : Trail) : Trail :=
  { trail with looks := trail.looks + 1 }

/-- A trail with files that were taken first. -/
@[simps] def take (trail : Trail) (files : List Path) : Trail :=
  { trail with files := files ++ trail.files }

end Trail

/-- Whether a walk leaves out a name in a directory. -/
def leavesOut (tree : FileTree) (selection : Selection) (directory : Path) (name : Bytes) : Bool :=
  Selection.isSkippedName name ||
    selection.ignores (directory.join ⟨name⟩) (tree.isDirectory (directory.join ⟨name⟩))

/-- Whether an errand leaves a trail, given the places visited before. A path that leads to no
directory or to a visited place leaves none. Any other place is visited before its names are gone
through, so a link back to it is not followed a second time; if it cannot be listed, there are no
names to go through. -/
inductive Descends (tree : FileTree) (selection : Selection) :
    List Place → Errand → Trail → Prop
  | elsewhere {visited : List Place} {path : Path} :
      tree.directory? path = none →
      Descends tree selection visited (.to path) (.idle visited)
  | again {visited : List Place} {path : Path} {place : Place} :
      tree.directory? path = some place → place ∈ visited →
      Descends tree selection visited (.to path) (.idle visited)
  | list {visited : List Place} {path : Path} {place : Place} {trail : Trail} :
      tree.directory? path = some place → place ∉ visited →
      Descends tree selection (place :: visited) (.through path (tree.listed place)) trail →
      Descends tree selection visited (.to path) (trail.below path place)
  | done {visited : List Place} {directory : Path} :
      Descends tree selection visited (.through directory []) (.idle visited)
  | pass {visited : List Place} {directory : Path} {name : Bytes} {names : List Bytes}
      {trail : Trail} :
      tree.leavesOut selection directory name = true →
      Descends tree selection visited (.through directory names) trail →
      Descends tree selection visited (.through directory (name :: names)) trail.look
  | enter {visited : List Place} {directory : Path} {name : Bytes} {names : List Bytes}
      {inner trail : Trail} :
      tree.leavesOut selection directory name = false →
      tree.isDirectory (directory.join ⟨name⟩) = true →
      Descends tree selection visited (.to (directory.join ⟨name⟩)) inner →
      Descends tree selection inner.visited (.through directory names) trail →
      Descends tree selection visited (.through directory (name :: names)) (inner.append trail).look
  | file {visited : List Place} {directory : Path} {name : Bytes} {names : List Bytes}
      {trail : Trail} :
      tree.leavesOut selection directory name = false →
      tree.isDirectory (directory.join ⟨name⟩) = false →
      Descends tree selection visited (.through directory names) trail →
      Descends tree selection visited (.through directory (name :: names))
        (trail.take ([directory.join ⟨name⟩].filter selection.takes)).look

variable {tree : FileTree} {selection : Selection} {visited : List Place} {errand : Errand}
  {trail other : Trail} {directory : Path} {place : Place} {name : Bytes} {names : List Bytes}

/-- The paths of names that a walk does not leave out. -/
def candidates (tree : FileTree) (selection : Selection) (directory : Path) (names : List Bytes) :
    List Path :=
  (names.filter fun name => !tree.leavesOut selection directory name).map
    fun name => directory.join ⟨name⟩

theorem candidates_cons_of_leavesOut (h : tree.leavesOut selection directory name = true) :
    tree.candidates selection directory (name :: names) =
      tree.candidates selection directory names := by
  simp [candidates, h]

theorem candidates_cons (h : tree.leavesOut selection directory name = false) :
    tree.candidates selection directory (name :: names) =
      directory.join ⟨name⟩ :: tree.candidates selection directory names := by
  simp [candidates, h]

/-- What a walk does not leave out in a directory are the candidates among its names. -/
theorem candidatesIn_eq_candidates :
    tree.candidatesIn selection directory place =
      tree.candidates selection directory (tree.listed place) := by
  rw [candidatesIn, candidates, List.filter_map, List.filter_filter]
  refine congrArg _ (List.filter_congr fun name _ => ?_)
  rw [leavesOut, Bool.not_or, Function.comp_apply, Bool.and_comm]

namespace Errand

/-- The paths to directories on which an errand goes on. -/
def ahead (tree : FileTree) (selection : Selection) : Errand → List Path
  | .to path => [path]
  | .through directory names =>
    (tree.candidates selection directory names).filter tree.isDirectory

/-- The files that an errand takes without entering a directory. -/
def here (tree : FileTree) (selection : Selection) : Errand → List Path
  | .to _ => []
  | .through directory names =>
    (tree.candidates selection directory names).filter fun path =>
      !tree.isDirectory path && selection.takes path

/-- Among the files that names take, one that is a file comes first if it is taken. -/
theorem here_cons_of_file (hin : tree.leavesOut selection directory name = false)
    (hfile : tree.isDirectory (directory.join ⟨name⟩) = false) :
    (through directory (name :: names)).here tree selection =
      [directory.join ⟨name⟩].filter selection.takes ++
        (through directory names).here tree selection := by
  rw [here, candidates_cons hin]
  cases htakes : selection.takes (directory.join ⟨name⟩) with
  | true => simp [here, hfile, htakes]
  | false => simp [here, hfile, htakes]

/-- The number of names at which an errand looks without entering a directory. -/
def breadth : Errand → Nat
  | .to _ => 0
  | .through _ names => names.length

end Errand

namespace Descends

/-- What is visited after a descent are the places that it listed and those visited before. -/
theorem visited_eq (h : tree.Descends selection visited errand trail) :
    trail.visited = (trail.listed.map Prod.snd).reverse ++ visited := by
  induction h with
  | elsewhere => rfl
  | again => rfl
  | list _ _ _ ih => simp [ih]
  | done => rfl
  | pass _ _ ih => exact ih
  | enter _ _ _ _ ihInner ih => simp [ih, ihInner]
  | file _ _ _ ih => exact ih

/-- A descent lists the directories that a walk visits, in the same order, and a walk goes on from
what is visited then. -/
theorem visits_ahead_append (h : tree.Descends selection visited errand trail)
    (pending : List Path) :
    tree.visits selection visited (errand.ahead tree selection ++ pending) =
      trail.listed ++ tree.visits selection trail.visited pending := by
  induction h generalizing pending with
  | elsewhere hnone => exact visits_of_directory?_eq_none hnone
  | again hplace hvisited => exact visits_of_mem hplace hvisited
  | list hplace hvisited _ ih =>
    rw [Errand.ahead, List.singleton_append, visits_of_notMem hplace hvisited, directoriesIn,
      candidatesIn_eq_candidates]
    exact congrArg _ (ih pending)
  | done => rfl
  | pass hout _ ih =>
    rw [Errand.ahead, candidates_cons_of_leavesOut hout]
    exact ih pending
  | enter hin hdirectory _ _ ihInner ih =>
    rw [Errand.ahead, candidates_cons hin, List.filter_cons_of_pos hdirectory, List.cons_append]
    refine (ihInner _).trans ?_
    rw [Trail.look_listed, Trail.append_listed, List.append_assoc]
    exact congrArg _ (ih pending)
  | file hin hfile _ ih =>
    rw [Errand.ahead, candidates_cons hin, List.filter_cons_of_neg (by simp [hfile])]
    exact ih pending

/-- A descent takes the files that a walk takes in the directories that are listed. -/
theorem files_perm (h : tree.Descends selection visited errand trail) :
    trail.files.Perm (errand.here tree selection ++
      trail.listed.flatMap fun v => tree.filesIn selection v.1 v.2) := by
  induction h with
  | elsewhere => exact .refl _
  | again => exact .refl _
  | list _ _ _ ih =>
    rwa [Errand.here, List.nil_append, Trail.below_listed, List.flatMap_cons, filesIn,
      candidatesIn_eq_candidates]
  | done => exact .refl _
  | pass hout _ ih =>
    rw [Errand.here, candidates_cons_of_leavesOut hout]
    exact ih
  | enter hin hdirectory _ _ ihInner ih =>
    rw [Errand.here, candidates_cons hin, List.filter_cons_of_neg (by simp [hdirectory]),
      Trail.look_listed, Trail.append_listed, List.flatMap_append]
    refine (ihInner.append ih).trans ?_
    -- the files below the entered directory are taken before those among the names behind it
    rw [Errand.here, List.nil_append, ← List.append_assoc, ← List.append_assoc]
    exact List.perm_append_comm.append_right _
  | file hin hfile _ ih =>
    rw [Errand.here_cons_of_file hin hfile, List.append_assoc]
    exact ih.append_left _

/-- A descent looks at each name that a listed directory has, and at no other. -/
theorem looks_eq (h : tree.Descends selection visited errand trail) :
    trail.looks = errand.breadth + (trail.listed.map fun v => (tree.listed v.2).length).sum := by
  induction h with
  | elsewhere => rfl
  | again => rfl
  | list _ _ _ ih => simpa [Errand.breadth] using ih
  | done => rfl
  | pass _ _ ih =>
    simp only [Trail.look_looks, Trail.look_listed, Errand.breadth, List.length_cons] at ih ⊢
    omega
  | enter _ _ _ _ ihInner ih =>
    simp only [Trail.look_looks, Trail.look_listed, Trail.append_looks, Trail.append_listed,
      Errand.breadth, List.length_cons, List.map_append, List.sum_append] at ihInner ih ⊢
    omega
  | file _ _ _ ih =>
    simp only [Trail.look_looks, Trail.look_listed, Trail.take_looks, Trail.take_listed,
      Errand.breadth, List.length_cons] at ih ⊢
    omega

/-- An errand leaves one trail only. -/
theorem unique (h : tree.Descends selection visited errand trail)
    (hother : tree.Descends selection visited errand other) : other = trail := by
  induction h generalizing other with
  | elsewhere hnone =>
    cases hother with
    | elsewhere => rfl
    | again hplace => simp [hnone] at hplace
    | list hplace => simp [hnone] at hplace
  | again hplace hvisited =>
    cases hother with
    | elsewhere hnone => simp [hnone] at hplace
    | again => rfl
    | list hplace' hnot =>
      obtain rfl := Option.some.inj (hplace.symm.trans hplace')
      exact absurd hvisited hnot
  | list hplace hnot _ ih =>
    cases hother with
    | elsewhere hnone => simp [hnone] at hplace
    | again hplace' hvisited =>
      obtain rfl := Option.some.inj (hplace.symm.trans hplace')
      exact absurd hvisited hnot
    | list hplace' _ hdown =>
      obtain rfl := Option.some.inj (hplace.symm.trans hplace')
      rw [ih hdown]
  | done =>
    cases hother with
    | done => rfl
  | pass hout _ ih =>
    cases hother with
    | pass _ hrest => rw [ih hrest]
    | enter hin => simp [hout] at hin
    | file hin => simp [hout] at hin
  | enter hin hdirectory _ _ ihInner ih =>
    cases hother with
    | pass hout => simp [hin] at hout
    | enter _ _ hinner hrest =>
      obtain rfl := ihInner hinner
      rw [ih hrest]
    | file _ hfile => simp [hdirectory] at hfile
  | file hin hfile _ ih =>
    cases hother with
    | pass hout => simp [hin] at hout
    | enter _ hdirectory => simp [hfile] at hdirectory
    | file _ _ hrest => rw [ih hrest]

/-- A descent leaves no more directories to visit than there were. -/
theorem length_unvisited_le (h : tree.Descends selection visited errand trail) :
    (tree.unvisited trail.visited).length ≤ (tree.unvisited visited).length := by
  refine (List.monotone_filter_right _ fun place hnot => ?_).length_le
  rw [h.visited_eq, List.contains_append, Bool.not_or] at hnot
  exact (Bool.and_eq_true_iff.mp hnot).2

end Descends

/-- If a descent to any path comes to an end while a bounded number of directories is left to visit,
so does one through any names. The number grows at none of them. -/
theorem exists_descends_through {bound : Nat}
    (hpath : ∀ visited, (tree.unvisited visited).length ≤ bound →
      ∀ path, ∃ trail, tree.Descends selection visited (.to path) trail)
    (hvisited : (tree.unvisited visited).length ≤ bound) (directory : Path) (names : List Bytes) :
    ∃ trail, tree.Descends selection visited (.through directory names) trail := by
  induction names generalizing visited with
  | nil => exact ⟨_, .done⟩
  | cons name names ih =>
    cases hout : tree.leavesOut selection directory name with
    | true =>
      obtain ⟨trail, hrest⟩ := ih hvisited
      exact ⟨_, .pass hout hrest⟩
    | false =>
      cases hdirectory : tree.isDirectory (directory.join ⟨name⟩) with
      | true =>
        obtain ⟨inner, hinner⟩ := hpath visited hvisited (directory.join ⟨name⟩)
        obtain ⟨trail, hrest⟩ := ih (hinner.length_unvisited_le.trans hvisited)
        exact ⟨_, .enter hout hdirectory hinner hrest⟩
      | false =>
        obtain ⟨trail, hrest⟩ := ih hvisited
        exact ⟨_, .file hout hdirectory hrest⟩

/-- A descent to a path comes to an end: either it lists nothing, or it goes through names with
fewer directories left to visit. -/
theorem exists_descends_to (tree : FileTree) (selection : Selection) (visited : List Place)
    (path : Path) : ∃ trail, tree.Descends selection visited (.to path) trail := by
  induction hleft : (tree.unvisited visited).length using Nat.strong_induction_on
    generalizing visited path with
  | h left ih =>
    cases hplace : tree.directory? path with
    | none => exact ⟨_, .elsewhere hplace⟩
    | some place =>
      by_cases hvisited : place ∈ visited
      · exact ⟨_, .again hplace hvisited⟩
      · have hless := length_unvisited_lt (directory?_mem hplace) hvisited
        rw [hleft] at hless
        obtain ⟨trail, hdown⟩ := exists_descends_through
          (fun visited' hle path' => ih _ (hle.trans_lt hless) visited' path' rfl) le_rfl path
          (tree.listed place)
        exact ⟨_, .list hplace hvisited hdown⟩

/-- In different directories together a run finds no more names than the tree has entries. -/
theorem sum_length_listed_le (tree : FileTree) {places : List Place} (hnodup : places.Nodup) :
    (places.map fun place => (tree.listed place).length).sum ≤ tree.entries.length := by
  let below := places.flatMap fun place => (tree.listed place).map fun name => place ++ [name]
  have hlength : below.length = (places.map fun place => (tree.listed place).length).sum := by
    simp [below, List.length_flatMap]
  have hbelow : below.Nodup := by
    rw [List.nodup_flatMap]
    refine ⟨fun place _ => (tree.nodup_listed place).map fun m n h => ?_, hnodup.imp ?_⟩
    · simpa using h
    · intro p q hne place hp hq
      obtain ⟨m, -, rfl⟩ := List.mem_map.mp hp
      obtain ⟨n, -, h⟩ := List.mem_map.mp hq
      exact hne (List.append_inj' h rfl).1.symm
  have hsub : below ⊆ tree.entries.map Prod.fst := by
    intro place hplace
    obtain ⟨above, -, hbelow⟩ := List.mem_flatMap.mp hplace
    obtain ⟨name, hname, rfl⟩ := List.mem_map.mp hbelow
    obtain ⟨-, entry, hentry⟩ := mem_listed.mp hname
    exact List.mem_map.mpr ⟨_, entryAt?_eq_some_iff.mp hentry, rfl⟩
  rw [← hlength]
  simpa using (List.subperm_of_subset hbelow hsub).length_le

/-- A descent from any directory, in a tree with links of any shape, with its names in any order and
for any selection, comes to an end and leaves one trail only. It looks at no more names than the
tree has entries and lists no place twice. It lists what a walk visits, and it takes the files that
a walk gathers. -/
theorem descent_ends_listing_no_place_twice (tree : FileTree) (selection : Selection)
    (directory : Path) :
    ∃ trail, tree.Descends selection [] (.to directory) trail ∧
      (∀ other, tree.Descends selection [] (.to directory) other → other = trail) ∧
      trail.looks ≤ tree.entries.length ∧ (trail.listed.map Prod.snd).Nodup ∧
      trail.listed = tree.visits selection [] [directory] ∧
      trail.files.Perm (tree.gathered selection directory) := by
  obtain ⟨trail, htrail⟩ := tree.exists_descends_to selection [] directory
  have hlisted : trail.listed = tree.visits selection [] [directory] := by
    have h := htrail.visits_ahead_append []
    rw [visits, List.append_nil, List.append_nil, Errand.ahead] at h
    exact h.symm
  have hnodup : (trail.listed.map Prod.snd).Nodup := by
    rw [hlisted]
    exact tree.nodup_visits selection [] [directory]
  have hlooks : trail.looks ≤ tree.entries.length := by
    have h := tree.sum_length_listed_le hnodup
    rw [List.map_map] at h
    rw [htrail.looks_eq, Errand.breadth, Nat.zero_add]
    exact h
  refine ⟨trail, htrail, fun other => htrail.unique, hlooks, hnodup, hlisted, ?_⟩
  rw [gathered, ← hlisted]
  exact htrail.files_perm.trans (List.mergeSort_perm _ _).symm

end FileTree

end Marginalia
