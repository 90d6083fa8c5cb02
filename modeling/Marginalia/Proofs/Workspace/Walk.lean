import Mathlib.Data.List.Sort
import Marginalia.Proofs.FileTree.Without
import Marginalia.Proofs.Path
import Marginalia.Workspace.Walk

/-!
# What a walk visits

A walk visits every place once, by a path that leads there. Below a place without links, the paths
that it gathers lead to the files with their names in the directories that it visits, so it gathers
every file once, and taking files away takes their paths away and no others.
-/

namespace Marginalia

universe u

variable {α : Type u}

/-- Where a stable sort puts the first member: behind those that have to stand before it. -/
theorem mergeSort_cons_eq {le : α → α → Bool} (htrans : ∀ a b c, le a b → le b c → le a c)
    (htotal : ∀ a b, le a b || le b a) (a : α) (l : List α) :
    let sorted := l.mergeSort le
    sorted = (sorted.filter fun b => !le a b) ++ sorted.filter (le a) ∧
      (a :: l).mergeSort le = (sorted.filter fun b => !le a b) ++ a :: sorted.filter (le a) := by
  intro sorted
  obtain ⟨before, behind, hcons, hsorted, hbefore⟩ := List.mergeSort_cons htrans htotal a l
  have hpairwise := List.pairwise_mergeSort htrans htotal (a :: l)
  rw [hcons, List.pairwise_append, List.pairwise_cons] at hpairwise
  have hbehind : ∀ b ∈ behind, le a b = true := hpairwise.2.1.1
  have hfirst : (sorted.filter fun b => !le a b) = before := by
    have hnone : (behind.filter fun b => !le a b) = [] :=
      List.filter_eq_nil_iff.mpr fun b hb => by simp [hbehind b hb]
    rw [show sorted = before ++ behind from hsorted, List.filter_append,
      List.filter_eq_self.mpr hbefore, hnone, List.append_nil]
  have hsecond : sorted.filter (le a) = behind := by
    have hnone : before.filter (le a) = [] :=
      List.filter_eq_nil_iff.mpr fun b hb => by simpa using hbefore b hb
    rw [show sorted = before ++ behind from hsorted, List.filter_append, hnone,
      List.filter_eq_self.mpr hbehind, List.nil_append]
  rw [hfirst, hsecond]
  exact ⟨hsorted, hcons⟩

/-- A stable sort of some members of a list leaves them in the order of the sorted list. -/
theorem filter_mergeSort {le : α → α → Bool} (htrans : ∀ a b c, le a b → le b c → le a c)
    (htotal : ∀ a b, le a b || le b a) (keeps : α → Bool) (l : List α) :
    (l.mergeSort le).filter keeps = (l.filter keeps).mergeSort le := by
  induction l with
  | nil => simp
  | cons a l ih =>
    obtain ⟨hsplit, hcons⟩ := mergeSort_cons_eq htrans htotal a l
    rw [hcons, List.filter_append]
    by_cases ha : keeps a = true
    · obtain ⟨-, hkept⟩ := mergeSort_cons_eq htrans htotal a (l.filter keeps)
      rw [List.filter_cons_of_pos ha, List.filter_cons_of_pos ha, hkept, ← ih, List.filter_filter,
        List.filter_filter, List.filter_filter, List.filter_filter]
      simp only [Bool.and_comm]
    · rw [List.filter_cons_of_neg ha, List.filter_cons_of_neg ha, ← List.filter_append, ← hsplit,
        ih]

namespace FileTree

variable {tree : FileTree} {selection : Selection} {visited : List Place} {directory path : Path}
  {pending : List Path} {place : Place}

/-- A path to no directory is not visited. -/
theorem visits_of_directory?_eq_none (h : tree.directory? directory = none) :
    tree.visits selection visited (directory :: pending) =
      tree.visits selection visited pending := by
  rw [visits]
  split
  · rfl
  · rename_i q hq
    rw [h] at hq
    cases hq

/-- A place that was visited is not visited again. -/
theorem visits_of_mem (h : tree.directory? directory = some place) (hvisited : place ∈ visited) :
    tree.visits selection visited (directory :: pending) =
      tree.visits selection visited pending := by
  rw [visits]
  split
  · rfl
  · rename_i q hq
    obtain rfl := Option.some.inj (h.symm.trans hq)
    rw [dif_pos hvisited]

/-- The paths to directories that a walk does not leave out. -/
def directoriesIn (tree : FileTree) (selection : Selection) (directory : Path) (place : Place) :
    List Path :=
  (tree.candidatesIn selection directory place).filter tree.isDirectory

/-- A place that was not visited is, and then the directories in it. -/
theorem visits_of_notMem (h : tree.directory? directory = some place)
    (hvisited : place ∉ visited) :
    tree.visits selection visited (directory :: pending) =
      (directory, place) :: tree.visits selection (place :: visited)
        (tree.directoriesIn selection directory place ++ pending) := by
  rw [visits]
  split
  · rename_i hnone
    rw [h] at hnone
    cases hnone
  · rename_i q hq
    obtain rfl := Option.some.inj (h.symm.trans hq)
    rw [dif_neg hvisited]
    rfl

/-- A walk visits places that it did not visit before, each by a path that leads there. -/
theorem directory?_of_mem_visits {v : Path × Place}
    (h : v ∈ tree.visits selection visited pending) :
    tree.directory? v.1 = some v.2 ∧ v.2 ∉ visited := by
  induction visited, pending using visits.induct tree selection with
  | case1 visited => simp [visits] at h
  | case2 visited directory pending hnone ih =>
    rw [visits_of_directory?_eq_none hnone] at h
    exact ih h
  | case3 visited directory pending place hplace hvisited ih =>
    rw [visits_of_mem hplace hvisited] at h
    exact ih h
  | case4 visited directory pending place hplace hvisited below ih =>
    rw [visits_of_notMem hplace hvisited, List.mem_cons] at h
    rcases h with rfl | h
    · exact ⟨hplace, hvisited⟩
    · exact (ih h).imp_right fun hnot hmem => hnot (List.mem_cons_of_mem place hmem)

/-- A walk visits no place twice. -/
theorem nodup_visits (tree : FileTree) (selection : Selection) (visited : List Place)
    (pending : List Path) : ((tree.visits selection visited pending).map Prod.snd).Nodup := by
  induction visited, pending using visits.induct tree selection with
  | case1 visited => simp [visits]
  | case2 visited directory pending hnone ih => rwa [visits_of_directory?_eq_none hnone]
  | case3 visited directory pending place hplace hvisited ih => rwa [visits_of_mem hplace hvisited]
  | case4 visited directory pending place hplace hvisited below ih =>
    rw [visits_of_notMem hplace hvisited, List.map_cons, List.nodup_cons]
    refine ⟨fun hmem => ?_, ih⟩
    obtain ⟨v, hv, rfl⟩ := List.mem_map.mp hmem
    exact (directory?_of_mem_visits hv).2 List.mem_cons_self

/-- A walk gathers the files that it takes in the directories that it visits. -/
theorem mem_gathered {root : Path} :
    path ∈ tree.gathered selection root ↔
      ∃ v ∈ tree.visits selection [] [root], path ∈ tree.filesIn selection v.1 v.2 := by
  rw [gathered, List.mem_mergeSort, List.mem_flatMap]

/-- A walk that visits anything starts at a directory. -/
theorem exists_directory?_of_mem_visits {root : Path} {v : Path × Place}
    (h : v ∈ tree.visits selection visited [root]) :
    ∃ place, tree.directory? root = some place := by
  cases hdirectory : tree.directory? root with
  | some place => exact ⟨place, rfl⟩
  | none =>
    rw [visits_of_directory?_eq_none hdirectory, visits] at h
    cases h

/-- A walk that gathers anything starts at a directory. -/
theorem exists_directory?_of_mem_gathered (h : path ∈ tree.gathered selection directory) :
    ∃ place, tree.directory? directory = some place := by
  obtain ⟨v, hv, -⟩ := mem_gathered.mp h
  exact exists_directory?_of_mem_visits hv

/-- What a walk cannot list are the paths by which it visits directories that cannot be listed. -/
theorem mem_unlisted {root : Path} :
    path ∈ tree.unlisted selection root ↔
      ∃ place, (path, place) ∈ tree.visits selection [] [root] ∧ tree.closedAt place = true := by
  simp [unlisted]

/-- Whether a path leads to a directory that cannot be listed is decided at the place of the
directory. -/
theorem isClosed_eq_closedAt (h : tree.directory? directory = some place) :
    tree.isClosed directory = tree.closedAt place := by
  rw [isClosed, h, Option.any_some]

/-- A walk comes to a result exactly when it does not start at a directory that cannot be listed.
The result is what it gathers, and what it cannot list. -/
theorem collect_eq_ok_iff {found : Collected} :
    tree.collect selection directory = .ok found ↔
      tree.isClosed directory = false ∧ tree.gathered selection directory = found.files ∧
        ((tree.unlisted selection directory).map fun path => (path, .file .denied)) =
          found.unreadable := by
  rw [collect]
  obtain ⟨files, unreadable⟩ := found
  cases hclosed : tree.isClosed directory with
  | true => simp
  | false => simp

/-- A walk that does not start at a directory that cannot be listed comes to a result. -/
theorem collect_of_isClosed_eq_false (h : tree.isClosed directory = false) :
    tree.collect selection directory = .ok ⟨tree.gathered selection directory,
      (tree.unlisted selection directory).map fun path => (path, .file .denied)⟩ :=
  if_neg (Bool.eq_false_iff.mp h)

/-- A walk that starts at a directory that cannot be listed fails. -/
theorem collect_of_isClosed (h : tree.isClosed directory = true) :
    tree.collect selection directory = .error (.file .denied) :=
  if_pos h

/-- A walk gathers what its selection takes. -/
theorem takes_of_mem_gathered (h : path ∈ tree.gathered selection directory) :
    selection.takes path = true := by
  obtain ⟨v, -, hfile⟩ := mem_gathered.mp h
  exact (Bool.and_eq_true_iff.mp (List.mem_filter.mp hfile).2).2

/-- What a walk does not leave out in a directory. -/
theorem mem_candidatesIn :
    path ∈ tree.candidatesIn selection directory place ↔
      ∃ name ∈ tree.listed place, Selection.isSkippedName name = false ∧
        directory.join ⟨name⟩ = path ∧ selection.ignores path (tree.isDirectory path) = false := by
  simp only [candidatesIn, List.mem_filter, List.mem_map, Bool.not_eq_true', and_assoc]
  tauto

/-- A walk from a directory without directories in it visits no other. -/
theorem visits_of_any_eq_false (hplace : tree.directory? directory = some place)
    (hnone : ((tree.listed place).any fun name => tree.isDirectory (directory.join ⟨name⟩)) = false) :
    tree.visits selection [] [directory] = [(directory, place)] := by
  have hbelow : tree.directoriesIn selection directory place = [] := by
    rw [directoriesIn, List.filter_eq_nil_iff]
    intro path hpath
    obtain ⟨name, hname, -, rfl, -⟩ := mem_candidatesIn.mp hpath
    exact List.any_eq_false.mp hnone name hname
  rw [visits_of_notMem hplace List.not_mem_nil, hbelow, List.nil_append, visits]

/-- A walk from a directory without directories in it gathers what it takes there. -/
theorem gathered_of_any_eq_false (hplace : tree.directory? directory = some place)
    (hnone : ((tree.listed place).any fun name => tree.isDirectory (directory.join ⟨name⟩)) = false) :
    tree.gathered selection directory =
      (tree.filesIn selection directory place).mergeSort Path.le := by
  rw [gathered, visits_of_any_eq_false hplace hnone, List.flatMap_singleton]

/-- A walk from a directory without directories in it comes to a directory that cannot be listed
only if it starts there. -/
theorem unlisted_of_any_eq_false (hplace : tree.directory? directory = some place)
    (hopen : tree.closedAt place = false)
    (hnone : ((tree.listed place).any fun name => tree.isDirectory (directory.join ⟨name⟩)) = false) :
    tree.unlisted selection directory = [] := by
  rw [unlisted, visits_of_any_eq_false hplace hnone]
  simp [hopen]

/-- Whether no link stands at or below a place, and every name below it is one that can be written
in a path. -/
def IsPlainBelow (tree : FileTree) (place : Place) : Prop :=
  ∀ names entry, tree.entryAt? (place ++ names) = some entry →
    (∀ target, entry ≠ .link target) ∧ ∀ name ∈ names, IsName name

/-- Whether a path leads to no directory, or to one below which all is plain. -/
def IsPlainFrom (tree : FileTree) (path : Path) : Prop :=
  ∀ place, tree.directory? path = some place → tree.IsPlainBelow place

/-- In a tree without links all is plain from every path. -/
theorem isPlainFrom_of_forall_mem (hlinks : ∀ e ∈ tree.entries, ∀ target, e.2 ≠ .link target)
    (hnames : ∀ e ∈ tree.entries, ∀ name ∈ e.1, IsName name) (path : Path) :
    tree.IsPlainFrom path := by
  intro place _ names entry hentry
  have hmem := entryAt?_eq_some_iff.mp hentry
  exact ⟨hlinks _ hmem, fun name hname => hnames _ hmem name (List.mem_append_right place hname)⟩

/-- Below a place without links, a path to a directory and a name in it lead to the entry with that
name. -/
theorem locate_of_mem_listed (hplain : tree.IsPlainBelow place)
    (hdirectory : tree.directory? directory = some place) {name : Bytes}
    (hname : name ∈ tree.listed place) :
    ∃ entry, tree.locate (directory.join ⟨name⟩) = .ok (place ++ [name], entry) ∧
      ∀ target, entry ≠ .link target := by
  obtain ⟨-, entry, hentry⟩ := mem_listed.mp hname
  obtain ⟨hlink, hnames⟩ := hplain [name] entry hentry
  refine ⟨entry, (locate_join_eq_ok_iff hdirectory (hnames name (List.mem_singleton_self name))
    fun target htarget => ?_).mpr ⟨rfl, hentry⟩, hlink⟩
  exact hlink target (Option.some.inj (hentry.symm.trans htarget))

/-- Below a place without links, all is plain also below what a walk finds in a directory. -/
theorem isPlainFrom_of_mem_candidatesIn (hplain : tree.IsPlainBelow place)
    (hdirectory : tree.directory? directory = some place)
    (hpath : path ∈ tree.candidatesIn selection directory place) : tree.IsPlainFrom path := by
  obtain ⟨name, hname, -, rfl, -⟩ := mem_candidatesIn.mp hpath
  obtain ⟨entry, hlocate, -⟩ := locate_of_mem_listed hplain hdirectory hname
  intro q hq
  obtain ⟨listable, hq⟩ := directory?_eq_some_iff.mp hq
  have hsame := hlocate.symm.trans hq
  obtain ⟨rfl, -⟩ := Prod.mk.inj (Except.ok.inj hsame)
  intro names found hfound
  rw [List.append_assoc] at hfound
  exact (hplain _ found hfound).imp_right fun hnames n hn =>
    hnames n (List.mem_append_right [name] hn)

/-- Below a place without links, a walk takes files in a directory, by paths that lead to them. -/
theorem locate_of_mem_filesIn (hplain : tree.IsPlainBelow place)
    (hdirectory : tree.directory? directory = some place)
    (hpath : path ∈ tree.filesIn selection directory place) :
    ∃ name content modified, Selection.isSkippedName name = false ∧
      tree.locate path = .ok (place ++ [name], .file content modified) := by
  obtain ⟨hcandidate, htaken⟩ := List.mem_filter.mp hpath
  obtain ⟨name, hname, hskipped, hjoin, -⟩ := mem_candidatesIn.mp hcandidate
  obtain ⟨entry, hlocate, hlink⟩ := locate_of_mem_listed hplain hdirectory hname
  rw [hjoin] at hlocate
  cases entry with
  | file content modified => exact ⟨name, content, modified, hskipped, hlocate⟩
  | directory listable =>
    simp [isDirectory, directory?_eq_some_iff.mpr ⟨listable, hlocate⟩] at htaken
  | link target => exact absurd rfl (hlink target)

/-- A walk that starts where all is plain visits places where all is plain. -/
theorem isPlainBelow_of_mem_visits (hpending : ∀ path ∈ pending, tree.IsPlainFrom path)
    {v : Path × Place} (h : v ∈ tree.visits selection visited pending) :
    tree.IsPlainBelow v.2 := by
  induction visited, pending using visits.induct tree selection with
  | case1 visited => simp [visits] at h
  | case2 visited directory pending hnone ih =>
    rw [visits_of_directory?_eq_none hnone] at h
    exact ih (List.forall_mem_cons.mp hpending).2 h
  | case3 visited directory pending place hplace hvisited ih =>
    rw [visits_of_mem hplace hvisited] at h
    exact ih (List.forall_mem_cons.mp hpending).2 h
  | case4 visited directory pending place hplace hvisited below ih =>
    obtain ⟨hdirectory, hpending⟩ := List.forall_mem_cons.mp hpending
    have hplain := hdirectory place hplace
    rw [visits_of_notMem hplace hvisited, List.mem_cons] at h
    rcases h with rfl | h
    · exact hplain
    · refine ih (List.forall_mem_append.mpr ⟨fun path hpath => ?_, hpending⟩) h
      exact isPlainFrom_of_mem_candidatesIn hplain hplace (List.mem_of_mem_filter hpath)

/-- The place to which a path leads. -/
def place? (tree : FileTree) (path : Path) : Option Place :=
  (tree.locate path).toOption.map Prod.fst

/-- A path that leads to an entry leads to its place. -/
theorem place?_of_locate {entry : Entry} (h : tree.locate path = .ok (place, entry)) :
    tree.place? path = some place := by
  rw [place?, h]
  rfl

/-- What tells all names in the visited directories apart tells apart what a walk gathers. -/
theorem pairwise_gathered_of {leads : Path → Option Place} {root : Path}
    (hleads : ∀ v ∈ tree.visits selection [] [root], ∀ name ∈ tree.listed v.2,
      leads (v.1.join ⟨name⟩) = some (v.2 ++ [name])) :
    (tree.gathered selection root).Pairwise fun p q => leads p ≠ leads q := by
  rw [gathered, (List.mergeSort_perm _ _).pairwise_iff Ne.symm, List.pairwise_flatMap]
  constructor
  · intro v hv
    have hnames : (tree.listed v.2).Pairwise fun m n =>
        leads (v.1.join ⟨m⟩) ≠ leads (v.1.join ⟨n⟩) := by
      refine (tree.nodup_listed v.2).imp_of_mem fun {m n} hm hn hne hplace => hne ?_
      rw [hleads v hv m hm, hleads v hv n hn] at hplace
      exact List.singleton_inj.mp (List.append_inj' (Option.some.inj hplace) rfl).2
    have hpaths : (((tree.listed v.2).filter fun name => !Selection.isSkippedName name).map
        fun name => v.1.join ⟨name⟩).Pairwise fun p q => leads p ≠ leads q :=
      List.pairwise_map.mpr (hnames.filter _)
    exact (hpaths.filter _).filter _
  · refine (List.pairwise_map.mp (tree.nodup_visits selection [] [root])).imp_of_mem ?_
    intro v w hv hw hne p hp q hq hplace
    obtain ⟨m, hm, -, rfl, -⟩ := mem_candidatesIn.mp (List.mem_of_mem_filter hp)
    obtain ⟨n, hn, -, rfl, -⟩ := mem_candidatesIn.mp (List.mem_of_mem_filter hq)
    rw [hleads v hv m hm, hleads w hw n hn] at hplace
    exact hne (List.append_inj' (Option.some.inj hplace) rfl).1

section

variable {root : Path} (hplain : tree.IsPlainFrom root)
include hplain

/-- A walk from where all is plain visits places below which all is plain, by paths that lead
there. -/
theorem isPlainBelow_of_mem_visits_root {v : Path × Place}
    (hv : v ∈ tree.visits selection [] [root]) :
    tree.directory? v.1 = some v.2 ∧ tree.IsPlainBelow v.2 :=
  ⟨(directory?_of_mem_visits hv).1,
    isPlainBelow_of_mem_visits (List.forall_mem_singleton.mpr hplain) hv⟩

/-- What a walk from where all is plain gathers are files by names that it does not skip. -/
theorem locate_of_mem_gathered (hpath : path ∈ tree.gathered selection root) :
    ∃ place name content modified, Selection.isSkippedName name = false ∧
      tree.locate path = .ok (place ++ [name], .file content modified) := by
  obtain ⟨⟨directory, place⟩, hv, hfile⟩ := mem_gathered.mp hpath
  obtain ⟨hdirectory, hbelow⟩ := isPlainBelow_of_mem_visits_root hplain hv
  exact ⟨place, locate_of_mem_filesIn hbelow hdirectory hfile⟩

/-- Files stand where the paths that a walk from where all is plain gathers lead. -/
theorem areFiles_of_gathered {places : List Place}
    (hplaces : ∀ p ∈ places, ∃ path ∈ tree.gathered selection root, tree.place? path = some p) :
    tree.AreFiles places := by
  intro p hp
  obtain ⟨path, hpath, hplace⟩ := hplaces p hp
  obtain ⟨q, name, content, modified, -, hlocate⟩ := locate_of_mem_gathered hplain hpath
  obtain rfl := Option.some.inj ((place?_of_locate hlocate).symm.trans hplace)
  exact ⟨content, modified, (locate_eq_ok_iff.mp hlocate).2.2⟩

/-- A walk from where all is plain gathers every file once, in the order of the paths. -/
theorem pairwise_gathered :
    (tree.gathered selection root).Pairwise fun p q =>
      p.le q = true ∧ tree.place? p ≠ tree.place? q := by
  refine (List.pairwise_mergeSort Path.le_trans Path.le_total _).and
    (pairwise_gathered_of fun v hv name hname => ?_)
  obtain ⟨hdirectory, hbelow⟩ := isPlainBelow_of_mem_visits_root hplain hv
  obtain ⟨entry, hlocate, -⟩ := locate_of_mem_listed hbelow hdirectory hname
  exact place?_of_locate hlocate

end

/-- Whether a path leads to none of some places. -/
def avoids (tree : FileTree) (places : List Place) (path : Path) : Bool :=
  (tree.place? path).all fun place => !places.contains place

/-- A path avoids places exactly when the place to which it leads is none of them. -/
theorem avoids_eq_true_iff {places : List Place} (h : tree.place? path = some place) :
    tree.avoids places path = true ↔ place ∉ places := by
  simp [avoids, h]

/-- Of paths to different places, those avoid the places of some of them that are none of these. -/
theorem filter_avoids {paths : List Path} (drops : Path → Bool)
    (hplaces : ∀ path ∈ paths, ∃ place, tree.place? path = some place)
    (hdistinct : paths.Pairwise fun p q => tree.place? p ≠ tree.place? q) :
    paths.filter (tree.avoids ((paths.filter drops).filterMap tree.place?)) =
      paths.filter fun path => !drops path := by
  apply List.filter_congr
  intro path hpath
  obtain ⟨place, hplace⟩ := hplaces path hpath
  have hdropped : place ∈ (paths.filter drops).filterMap tree.place? ↔ drops path = true := by
    rw [List.mem_filterMap]
    constructor
    · rintro ⟨other, hother, hsame⟩
      obtain ⟨hother, hdrop⟩ := List.mem_filter.mp hother
      have hinj := List.inj_on_of_nodup_map (List.pairwise_map.mpr hdistinct)
      rwa [hinj hpath hother (hplace.trans hsame.symm)]
    · exact fun hdrop => ⟨path, List.mem_filter.mpr ⟨hpath, hdrop⟩, hplace⟩
  rw [Bool.eq_iff_iff, avoids_eq_true_iff hplace, hdropped]
  simp

section

variable {places : List Place} (hfiles : tree.AreFiles places)
include hfiles

/-- Without files, the same paths lead to directories. -/
theorem isDirectory_without : (tree.without places).isDirectory = tree.isDirectory := by
  funext path
  rw [isDirectory, isDirectory, directory?_without hfiles]

/-- A path to a directory does not lead to a file. -/
theorem avoids_of_isDirectory (h : tree.isDirectory path = true) :
    tree.avoids places path = true := by
  obtain ⟨place, hplace⟩ := Option.isSome_iff_exists.mp h
  obtain ⟨listable, hlocate⟩ := directory?_eq_some_iff.mp hplace
  rw [avoids_eq_true_iff (place?_of_locate hlocate)]
  intro hmem
  obtain ⟨content, modified, hfile⟩ := hfiles place hmem
  rw [(locate_eq_ok_iff.mp hlocate).2.2] at hfile
  cases hfile

/-- Without files, a walk finds the same paths in a directory but those of the files. -/
theorem candidatesIn_without (hplain : tree.IsPlainBelow place)
    (hdirectory : tree.directory? directory = some place) :
    (tree.without places).candidatesIn selection directory place =
      (tree.candidatesIn selection directory place).filter (tree.avoids places) := by
  have hnames (names : List Bytes) (hsub : names ⊆ tree.listed place) :
      (names.filter fun name => place ++ [name] ∉ places).map (fun name => directory.join ⟨name⟩) =
        (names.map fun name => directory.join ⟨name⟩).filter (tree.avoids places) := by
    rw [List.filter_map]
    refine congrArg _ (List.filter_congr fun name hname => ?_)
    obtain ⟨entry, hlocate, -⟩ := locate_of_mem_listed hplain hdirectory (hsub hname)
    rw [Function.comp_apply, Bool.eq_iff_iff, decide_eq_true_eq,
      avoids_eq_true_iff (place?_of_locate hlocate)]
  rw [candidatesIn, candidatesIn, isDirectory_without hfiles, listed_without hfiles, List.filter_comm,
    hnames _ List.filter_sublist.subset, List.filter_comm]

/-- Without files, a walk goes on to the same directories. -/
theorem directoriesIn_without (hplain : tree.IsPlainBelow place)
    (hdirectory : tree.directory? directory = some place) :
    (tree.without places).directoriesIn selection directory place =
      tree.directoriesIn selection directory place := by
  rw [directoriesIn, directoriesIn, candidatesIn_without hfiles hplain hdirectory,
    isDirectory_without hfiles, List.filter_filter]
  apply List.filter_congr
  intro path _
  rw [Bool.and_eq_left_iff_imp]
  exact avoids_of_isDirectory hfiles

/-- Without files, a walk visits the same directories. -/
theorem visits_without (hpending : ∀ path ∈ pending, tree.IsPlainFrom path) :
    (tree.without places).visits selection visited pending =
      tree.visits selection visited pending := by
  induction visited, pending using visits.induct tree selection with
  | case1 visited => rw [visits, visits]
  | case2 visited directory pending hnone ih =>
    rw [visits_of_directory?_eq_none hnone,
      visits_of_directory?_eq_none ((directory?_without hfiles directory).trans hnone)]
    exact ih (List.forall_mem_cons.mp hpending).2
  | case3 visited directory pending place hplace hvisited ih =>
    rw [visits_of_mem hplace hvisited,
      visits_of_mem ((directory?_without hfiles directory).trans hplace) hvisited]
    exact ih (List.forall_mem_cons.mp hpending).2
  | case4 visited directory pending place hplace hvisited below ih =>
    obtain ⟨hdirectory, hpending⟩ := List.forall_mem_cons.mp hpending
    have hplain := hdirectory place hplace
    rw [visits_of_notMem hplace hvisited,
      visits_of_notMem ((directory?_without hfiles directory).trans hplace) hvisited,
      directoriesIn_without hfiles hplain hplace]
    refine congrArg _ (ih (List.forall_mem_append.mpr ⟨fun path hpath => ?_, hpending⟩))
    exact isPlainFrom_of_mem_candidatesIn hplain hplace (List.mem_of_mem_filter hpath)

/-- Without files, a walk gathers the same paths but those of the files, in the same order. -/
theorem gathered_without {root : Path} (hplain : tree.IsPlainFrom root) :
    (tree.without places).gathered selection root =
      (tree.gathered selection root).filter (tree.avoids places) := by
  rw [gathered, gathered, visits_without hfiles (List.forall_mem_singleton.mpr hplain),
    filter_mergeSort Path.le_trans Path.le_total, List.filter_flatMap]
  refine congrArg (List.mergeSort · Path.le) (List.flatMap_congr ?_)
  rintro ⟨directory, place⟩ hv
  obtain ⟨hdirectory, hbelow⟩ := isPlainBelow_of_mem_visits_root hplain hv
  change (tree.without places).filesIn selection directory place =
    (tree.filesIn selection directory place).filter (tree.avoids places)
  rw [filesIn, filesIn, candidatesIn_without hfiles hbelow hdirectory, isDirectory_without hfiles,
    List.filter_comm]

/-- Without files, a walk cannot list the same directories. -/
theorem unlisted_without {root : Path} (hplain : tree.IsPlainFrom root) :
    (tree.without places).unlisted selection root = tree.unlisted selection root := by
  have hclosed : (tree.without places).closedAt = tree.closedAt := funext (closedAt_without hfiles)
  rw [unlisted, unlisted, visits_without hfiles (List.forall_mem_singleton.mpr hplain), hclosed]

/-- Without files, a walk comes to a result as before, with the paths of the files left out. -/
theorem collect_without {root : Path} (hplain : tree.IsPlainFrom root) :
    (tree.without places).collect selection root =
      (tree.collect selection root).map fun found =>
        { found with files := found.files.filter (tree.avoids places) } := by
  have hclosed : (tree.without places).isClosed root = tree.isClosed root := by
    rw [isClosed, isClosed, directory?_without hfiles]
    exact congrArg (Option.any · _) (funext (closedAt_without hfiles))
  rw [collect, collect, hclosed, gathered_without hfiles hplain, unlisted_without hfiles hplain]
  split <;> rfl

end

end FileTree

end Marginalia
