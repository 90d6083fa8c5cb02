import Marginalia.Proofs.Path.Below
import Marginalia.Proofs.Workspace.Walk

/-!
# Ways of a walk

A way leads from where a walk starts over directories that the walk does not leave out and reaches
no place twice. Every directory that a walk visits is the end of a way on which the walk visited
everything. Which of several ways to a place it took depends on the order in which directories list
their names; where all of them end with the same path, the walk gathers the files at their ends in
any order.
-/

namespace Marginalia

/-- Whether a walk goes down from a path by some names: it skips none of them and ignores no
directory on the way. -/
structure Selection.Admits (selection : Selection) (root : Path) (names : List Bytes) : Prop where
  isName : ∀ name ∈ names, IsName name
  notSkipped : ∀ name ∈ names, Selection.isSkippedName name = false
  notIgnored : ∀ front, front ≠ [] → front <+: names →
    selection.ignores (root.below front) true = false

/-- A walk that goes down by some names goes on by a name that it neither skips nor ignores. -/
theorem Selection.Admits.concat {selection : Selection} {root : Path} {names : List Bytes}
    {name : Bytes} (h : selection.Admits root names) (hname : IsName name)
    (hskipped : Selection.isSkippedName name = false)
    (hignored : selection.ignores (root.below (names ++ [name])) true = false) :
    selection.Admits root (names ++ [name]) where
  isName := List.forall_mem_append.mpr ⟨h.isName, List.forall_mem_singleton.mpr hname⟩
  notSkipped := List.forall_mem_append.mpr ⟨h.notSkipped, List.forall_mem_singleton.mpr hskipped⟩
  notIgnored := by
    intro front hne hfront
    rcases List.prefix_concat_iff.mp hfront with rfl | hfront
    · exact hignored
    · exact h.notIgnored front hne hfront

/-- A walk that goes down by some names goes down by the first of them. -/
theorem Selection.Admits.of_append {selection : Selection} {root : Path} {front names : List Bytes}
    (h : selection.Admits root (front ++ names)) : selection.Admits root front where
  isName name hname := h.isName name (List.mem_append_left names hname)
  notSkipped name hname := h.notSkipped name (List.mem_append_left names hname)
  notIgnored first hne hfirst := h.notIgnored first hne (hfirst.trans (List.prefix_append _ _))

namespace FileTree

variable {tree : FileTree} {selection : Selection} {root path : Path} {place : Place}
  {v w : Path × Place} {above behind : List (Path × Place)} {visited : List Place}
  {pending : List Path}

/-- What a walk goes on to from a directory. -/
theorem mem_directoriesIn {directory : Path} :
    path ∈ tree.directoriesIn selection directory place ↔
      ∃ name ∈ tree.listed place, Selection.isSkippedName name = false ∧
        directory.join ⟨name⟩ = path ∧ selection.ignores path true = false ∧
          tree.isDirectory path = true := by
  simp only [directoriesIn, List.mem_filter, mem_candidatesIn]
  constructor
  · rintro ⟨⟨name, hname, hskipped, hjoin, hignored⟩, hdirectory⟩
    exact ⟨name, hname, hskipped, hjoin, hdirectory ▸ hignored, hdirectory⟩
  · rintro ⟨name, hname, hskipped, hjoin, hignored, hdirectory⟩
    exact ⟨⟨name, hname, hskipped, hjoin, hdirectory ▸ hignored⟩, hdirectory⟩

/-- What a walk takes in a directory. -/
theorem mem_filesIn {directory : Path} :
    path ∈ tree.filesIn selection directory place ↔
      ∃ name ∈ tree.listed place, Selection.isSkippedName name = false ∧
        directory.join ⟨name⟩ = path ∧ selection.ignores path false = false ∧
          tree.isDirectory path = false ∧ selection.takes path = true := by
  simp only [filesIn, List.mem_filter, mem_candidatesIn, Bool.and_eq_true, Bool.not_eq_true']
  constructor
  · rintro ⟨⟨name, hname, hskipped, hjoin, hignored⟩, hdirectory, htaken⟩
    exact ⟨name, hname, hskipped, hjoin, hdirectory ▸ hignored, hdirectory, htaken⟩
  · rintro ⟨name, hname, hskipped, hjoin, hignored, hdirectory, htaken⟩
    exact ⟨⟨name, hname, hskipped, hjoin, hdirectory ▸ hignored⟩, hdirectory, htaken⟩

/-- The directories on a way, each with its path and its place, the last first. -/
inductive IsWay (tree : FileTree) (selection : Selection) (root : Path) :
    List (Path × Place) → Prop
  | start {place : Place} (hplace : tree.directory? root = some place) :
      IsWay tree selection root [(root, place)]
  | step {v : Path × Place} {above : List (Path × Place)} {path : Path} {place : Place}
      (hway : IsWay tree selection root (v :: above))
      (hpath : path ∈ tree.directoriesIn selection v.1 v.2)
      (hplace : tree.directory? path = some place)
      (hnew : place ∉ (v :: above).map Prod.snd) :
      IsWay tree selection root ((path, place) :: v :: above)

/-- The end of a way is a directory. -/
theorem IsWay.directory? (h : tree.IsWay selection root (v :: above)) :
    tree.directory? v.1 = some v.2 := by
  cases h with
  | start hplace => exact hplace
  | step _ _ hplace _ => exact hplace

/-- Directories at the ends of ways are the same when they have the same path. -/
theorem IsWay.eq_of_fst_eq (hway : tree.IsWay selection root (v :: above))
    (hway' : tree.IsWay selection root (w :: behind)) (h : v.1 = w.1) : v = w := by
  have hplace := hway.directory?
  rw [h, hway'.directory?] at hplace
  exact Prod.ext h (Option.some.inj hplace).symm

/-- A way reaches no place twice. -/
theorem IsWay.nodup {way : List (Path × Place)} (h : tree.IsWay selection root way) :
    (way.map Prod.snd).Nodup := by
  induction h with
  | start hplace => exact List.nodup_singleton _
  | step hway hpath hplace hnew ih => exact List.nodup_cons.mpr ⟨hnew, ih⟩

/-- Every directory on a way is the end of a way. -/
theorem IsWay.of_mem {way : List (Path × Place)} (h : tree.IsWay selection root way)
    (hv : v ∈ way) : ∃ above, tree.IsWay selection root (v :: above) := by
  induction h with
  | start hplace =>
    obtain rfl := List.mem_singleton.mp hv
    exact ⟨[], .start hplace⟩
  | step hway hpath hplace hnew ih =>
    rcases List.mem_cons.mp hv with rfl | hv
    · exact ⟨_, hway.step hpath hplace hnew⟩
    · exact ih hv

/-! ## Visits -/

/-- Every directory that a walk visits behind those that it visited before is the end of a way, and
the walk visited every directory on it. -/
theorem exists_isWay_of_mem_visits_pending {seen : List (Path × Place)}
    (hseen : seen.map Prod.snd = visited)
    (hpending : ∀ path ∈ pending, ∃ v above, tree.IsWay selection root (v :: above) ∧
      v :: above ⊆ seen ∧ path ∈ tree.directoriesIn selection v.1 v.2)
    (hw : w ∈ tree.visits selection visited pending) :
    ∃ above, tree.IsWay selection root (w :: above) ∧
      above ⊆ seen ++ tree.visits selection visited pending := by
  induction visited, pending using visits.induct tree selection generalizing seen with
  | case1 visited => simp [visits] at hw
  | case2 visited directory pending hnone ih =>
    rw [visits_of_directory?_eq_none hnone] at hw ⊢
    exact ih hseen (List.forall_mem_cons.mp hpending).2 hw
  | case3 visited directory pending place hplace hmem ih =>
    rw [visits_of_mem hplace hmem] at hw ⊢
    exact ih hseen (List.forall_mem_cons.mp hpending).2 hw
  | case4 visited directory pending place hplace hnew below =>
    rename_i ih
    obtain ⟨⟨v, above, hway, hsub, hdirectory⟩, hpending⟩ := List.forall_mem_cons.mp hpending
    have hstep : tree.IsWay selection root ((directory, place) :: v :: above) := by
      refine hway.step hdirectory hplace fun hmem => hnew ?_
      rw [← hseen]
      exact List.map_subset Prod.snd hsub hmem
    rw [visits_of_notMem hplace hnew, List.mem_cons] at hw
    rw [visits_of_notMem hplace hnew]
    rcases hw with rfl | hw
    · exact ⟨v :: above, hstep, List.Subset.trans hsub (List.subset_append_left _ _)⟩
    · have hbelow : ∀ path ∈ below ++ pending, ∃ v above,
          tree.IsWay selection root (v :: above) ∧ v :: above ⊆ (directory, place) :: seen ∧
            path ∈ tree.directoriesIn selection v.1 v.2 := by
        refine List.forall_mem_append.mpr ⟨fun path hpath => ?_, fun path hpath => ?_⟩
        · exact ⟨_, _, hstep, List.cons_subset_cons _ hsub, hpath⟩
        · obtain ⟨u, way, huway, husub, hupath⟩ := hpending path hpath
          exact ⟨u, way, huway, List.Subset.trans husub (List.subset_cons_self _ _), hupath⟩
      obtain ⟨way, hway, hsub⟩ := ih (by rw [List.map_cons, hseen]) hbelow hw
      exact ⟨way, hway, List.Subset.trans hsub List.perm_middle.symm.subset⟩

/-- Every directory that a walk visits is the end of a way, and the walk visits every directory on
it. -/
theorem exists_isWay_of_mem_visits (hw : w ∈ tree.visits selection [] [root]) :
    ∃ above, tree.IsWay selection root (w :: above) ∧
      w :: above ⊆ tree.visits selection [] [root] := by
  cases hplace : tree.directory? root with
  | none =>
    rw [visits_of_directory?_eq_none hplace, visits] at hw
    cases hw
  | some place =>
    have hstart : tree.IsWay selection root [(root, place)] := .start hplace
    rw [visits_of_notMem hplace List.not_mem_nil] at hw ⊢
    rcases List.mem_cons.mp hw with rfl | hw
    · exact ⟨[], hstart, List.cons_subset_cons _ (List.nil_subset _)⟩
    · have hpending : ∀ path ∈ tree.directoriesIn selection root place ++ [], ∃ v above,
          tree.IsWay selection root (v :: above) ∧ v :: above ⊆ [(root, place)] ∧
            path ∈ tree.directoriesIn selection v.1 v.2 := by
        intro path hpath
        rw [List.append_nil] at hpath
        exact ⟨_, [], hstart, List.Subset.refl _, hpath⟩
      obtain ⟨above, hway, hsub⟩ := exists_isWay_of_mem_visits_pending rfl hpending hw
      exact ⟨above, hway, List.cons_subset.mpr ⟨List.mem_cons_of_mem _ hw, hsub⟩⟩

/-- A walk visits the place of every directory that is left to visit, if it has not visited it
before. -/
theorem exists_mem_visits_of_mem_pending (hpath : path ∈ pending)
    (hplace : tree.directory? path = some place) :
    place ∈ visited ∨ ∃ v ∈ tree.visits selection visited pending, v.2 = place := by
  induction visited, pending using visits.induct tree selection with
  | case1 visited => cases hpath
  | case2 visited directory pending hnone ih =>
    rw [visits_of_directory?_eq_none hnone]
    rcases List.mem_cons.mp hpath with rfl | hpath
    · rw [hnone] at hplace
      cases hplace
    · exact ih hpath
  | case3 visited directory pending q hq hmem ih =>
    rw [visits_of_mem hq hmem]
    rcases List.mem_cons.mp hpath with rfl | hpath
    · obtain rfl := Option.some.inj (hq.symm.trans hplace)
      exact .inl hmem
    · exact ih hpath
  | case4 visited directory pending q hq hnew below ih =>
    rw [visits_of_notMem hq hnew]
    rcases List.mem_cons.mp hpath with rfl | hpath
    · exact .inr ⟨_, List.mem_cons_self, Option.some.inj (hq.symm.trans hplace)⟩
    · rcases ih (List.mem_append_right below hpath) with hmem | ⟨v, hv, rfl⟩
      · rcases List.mem_cons.mp hmem with rfl | hmem
        · exact .inr ⟨_, List.mem_cons_self, rfl⟩
        · exact .inl hmem
      · exact .inr ⟨v, List.mem_cons_of_mem _ hv, rfl⟩

/-- A walk visits the place of every directory that it goes on to from one that it visits. -/
theorem exists_mem_visits_of_mem_directoriesIn (hv : v ∈ tree.visits selection visited pending)
    (hpath : path ∈ tree.directoriesIn selection v.1 v.2)
    (hplace : tree.directory? path = some place) :
    place ∈ visited ∨ ∃ w ∈ tree.visits selection visited pending, w.2 = place := by
  induction visited, pending using visits.induct tree selection with
  | case1 visited => simp [visits] at hv
  | case2 visited directory pending hnone ih =>
    rw [visits_of_directory?_eq_none hnone] at hv ⊢
    exact ih hv
  | case3 visited directory pending q hq hmem ih =>
    rw [visits_of_mem hq hmem] at hv ⊢
    exact ih hv
  | case4 visited directory pending q hq hnew below ih =>
    have hnext : place ∈ q :: visited ∨
        ∃ w ∈ tree.visits selection (q :: visited) (below ++ pending), w.2 = place := by
      rw [visits_of_notMem hq hnew] at hv
      rcases List.mem_cons.mp hv with rfl | hv
      · exact exists_mem_visits_of_mem_pending (List.mem_append_left pending hpath) hplace
      · exact ih hv
    rw [visits_of_notMem hq hnew]
    rcases hnext with hmem | ⟨w, hw, rfl⟩
    · rcases List.mem_cons.mp hmem with rfl | hmem
      · exact .inr ⟨_, List.mem_cons_self, rfl⟩
      · exact .inl hmem
    · exact .inr ⟨w, List.mem_cons_of_mem _ hw, rfl⟩

/-! ## Ways that no other way crosses -/

/-- Whether all ways to a place on a way end with the path by which that way reaches it. -/
def IsOnlyWay (tree : FileTree) (selection : Selection) (root : Path)
    (way : List (Path × Place)) : Prop :=
  ∀ d ∈ way, ∀ w above, tree.IsWay selection root (w :: above) → w.2 = d.2 → w.1 = d.1

/-- Whether no other way crosses one to a file that a walk takes. -/
def IsUncrossed (tree : FileTree) (selection : Selection) (root : Path) : Prop :=
  ∀ v above, tree.IsWay selection root (v :: above) → tree.filesIn selection v.1 v.2 ≠ [] →
    tree.IsOnlyWay selection root (v :: above)

/-- A walk visits the end of a way that no other way crosses by the path of that way. -/
theorem mem_visits_of_isOnlyWay {way : List (Path × Place)} (h : tree.IsWay selection root way)
    (honly : tree.IsOnlyWay selection root way) : way ⊆ tree.visits selection [] [root] := by
  induction h with
  | start hplace =>
    rw [visits_of_notMem hplace List.not_mem_nil]
    exact List.cons_subset_cons _ (List.nil_subset _)
  | @step v above path place hway hpath hplace hnew ih =>
    obtain ⟨hlast, honly⟩ := List.forall_mem_cons.mp honly
    have hvisited := ih honly
    have hv := hvisited List.mem_cons_self
    obtain hmem | ⟨w, hw, rfl⟩ := exists_mem_visits_of_mem_directoriesIn hv hpath hplace
    · cases hmem
    · obtain ⟨others, hothers, -⟩ := exists_isWay_of_mem_visits hw
      obtain rfl : w.1 = path := hlast w others hothers rfl
      exact List.cons_subset.mpr ⟨hw, hvisited⟩

/-- Where no way crosses one to a file that the walk takes, the walk gathers the files at the ends
of all ways. -/
theorem mem_gathered_iff_of_isUncrossed (honly : tree.IsUncrossed selection root) :
    path ∈ tree.gathered selection root ↔
      ∃ v above, tree.IsWay selection root (v :: above) ∧
        path ∈ tree.filesIn selection v.1 v.2 := by
  rw [mem_gathered]
  constructor
  · rintro ⟨v, hv, hfile⟩
    obtain ⟨above, hway, -⟩ := exists_isWay_of_mem_visits hv
    exact ⟨v, above, hway, hfile⟩
  · rintro ⟨v, above, hway, hfile⟩
    have hvisited := mem_visits_of_isOnlyWay hway (honly v above hway (List.ne_nil_of_mem hfile))
    exact ⟨v, hvisited List.mem_cons_self, hfile⟩

/-! ## Names on ways -/

/-- Names that end before others are other names. -/
theorem ne_concat_of_isPrefix {front names : List Bytes} {name : Bytes} (h : front <+: names) :
    front ≠ names ++ [name] := by
  rintro rfl
  exact absurd h.length_le (by simp)

/-- Whether the directories between a path and the one to which names lead from it can be listed. -/
def IsOpenBefore (tree : FileTree) (root : Path) (names : List Bytes) : Prop :=
  ∀ front, front <+: names → front ≠ names → tree.isClosed (root.below front) = false

/-- Nothing stands between a path and itself. -/
theorem isOpenBefore_nil : tree.IsOpenBefore root [] :=
  fun _ hfront hne => absurd (List.prefix_nil.mp hfront) hne

/-- Before the last name stand what stands before the others and the directory to which they lead.
-/
theorem isOpenBefore_concat {names : List Bytes} {name : Bytes} :
    tree.IsOpenBefore root (names ++ [name]) ↔
      tree.IsOpenBefore root names ∧ tree.isClosed (root.below names) = false := by
  constructor
  · intro h
    exact ⟨fun front hfront _ => h front (hfront.trans (List.prefix_append _ _))
      (ne_concat_of_isPrefix hfront),
      h names (List.prefix_append _ _) (ne_concat_of_isPrefix List.prefix_rfl)⟩
  · rintro ⟨hopen, hlast⟩ front hfront hne
    rcases List.prefix_concat_iff.mp hfront with rfl | hfront
    · exact absurd rfl hne
    · by_cases hall : front = names
      · rwa [hall]
      · exact hopen front hfront hall

/-- Whether every name in a directory to which a walk can come is one that can be written in a
path. -/
def HasNamesFrom (tree : FileTree) (selection : Selection) (root : Path) : Prop :=
  ∀ v above, tree.IsWay selection root (v :: above) → ∀ name ∈ tree.listed v.2, IsName name

section

variable (hnames : tree.HasNamesFrom selection root)
include hnames

/-- The end of a way has the path to which names lead that the walk admits, over directories that
can be listed. -/
theorem exists_names_of_isWay (h : tree.IsWay selection root (v :: above)) :
    ∃ names, selection.Admits root names ∧ tree.IsOpenBefore root names ∧
      v.1 = root.below names := by
  induction above generalizing v with
  | nil =>
    cases h with
    | start hplace =>
      refine ⟨[], ⟨List.forall_mem_nil _, List.forall_mem_nil _, ?_⟩, isOpenBefore_nil, rfl⟩
      exact fun front hne hfront => absurd (List.prefix_nil.mp hfront) hne
  | cons w above ih =>
    cases h with
    | step hway hpath hplace hnew =>
      obtain ⟨names, hadmits, hopen, hw⟩ := ih hway
      obtain ⟨name, hname, hskipped, rfl, hignored, -⟩ := mem_directoriesIn.mp hpath
      have hlisted : tree.isClosed w.1 = false := by
        rw [isClosed_eq_closedAt hway.directory?]
        exact (mem_listed.mp hname).1
      rw [hw] at hlisted
      rw [hw, ← Path.below_concat] at hignored
      exact ⟨names ++ [name], hadmits.concat (hnames _ _ hway name hname) hskipped hignored,
        isOpenBefore_concat.mpr ⟨hopen, hlisted⟩, by rw [hw, Path.below_concat]⟩

/-- A name in the directory at the end of a way leads on from the path of that directory. -/
theorem exists_names_join (hway : tree.IsWay selection root (v :: above)) {name : Bytes}
    (hname : name ∈ tree.listed v.2) :
    ∃ names, (∀ n ∈ names ++ [name], IsName n) ∧ v.1 = root.below names ∧
      v.1.join ⟨name⟩ = root.below (names ++ [name]) := by
  obtain ⟨names, hadmits, -, hv⟩ := exists_names_of_isWay hnames hway
  refine ⟨names, List.forall_mem_append.mpr ⟨hadmits.isName, ?_⟩, hv, ?_⟩
  · exact List.forall_mem_singleton.mpr (hnames _ _ hway name hname)
  · rw [hv, Path.below_concat]

/-- Names in the directories at the ends of ways make different paths, unless both the directories
and the names are the same. -/
theorem eq_of_join_eq (hway : tree.IsWay selection root (v :: above))
    (hway' : tree.IsWay selection root (w :: behind)) {name name' : Bytes}
    (hname : name ∈ tree.listed v.2) (hname' : name' ∈ tree.listed w.2)
    (h : v.1.join ⟨name⟩ = w.1.join ⟨name'⟩) : v = w ∧ name = name' := by
  obtain ⟨names, hall, hv, hjoin⟩ := exists_names_join hnames hway hname
  obtain ⟨names', hall', hw, hjoin'⟩ := exists_names_join hnames hway' hname'
  rw [hjoin, hjoin'] at h
  obtain ⟨hsame, hlast⟩ := List.append_inj'
    (Path.eq_of_components_below hall hall' (congrArg Path.components h)) rfl
  exact ⟨hway.eq_of_fst_eq hway' (by rw [hv, hw, hsame]), List.singleton_inj.mp hlast⟩

/-- Directories at the ends of ways are the same when they hold a file with the same path. -/
theorem eq_of_mem_filesIn (hway : tree.IsWay selection root (v :: above))
    (hway' : tree.IsWay selection root (w :: behind))
    (hpath : path ∈ tree.filesIn selection v.1 v.2)
    (hpath' : path ∈ tree.filesIn selection w.1 w.2) : v = w := by
  obtain ⟨name, hname, -, hjoin, -⟩ := mem_filesIn.mp hpath
  obtain ⟨name', hname', -, hjoin', -⟩ := mem_filesIn.mp hpath'
  exact (eq_of_join_eq hnames hway hway' hname hname' (hjoin.trans hjoin'.symm)).1

/-- A walk takes no path twice at the end of a way. -/
theorem nodup_filesIn (hway : tree.IsWay selection root (v :: above)) :
    (tree.filesIn selection v.1 v.2).Nodup := by
  refine List.Nodup.filter _ (List.Nodup.filter _ ((tree.nodup_listed v.2).filter _ |>.map_on ?_))
  intro m hm n hn heq
  exact (eq_of_join_eq hnames hway hway (List.mem_of_mem_filter hm) (List.mem_of_mem_filter hn)
    heq).2

/-- What a walk gathers are paths to which names lead. -/
theorem exists_below_of_mem_gathered (hpath : path ∈ tree.gathered selection root) :
    ∃ names, (∀ name ∈ names, IsName name) ∧ path = root.below names := by
  obtain ⟨v, hv, hfile⟩ := mem_gathered.mp hpath
  obtain ⟨above, hway, -⟩ := exists_isWay_of_mem_visits hv
  obtain ⟨name, hname, -, hjoin, -⟩ := mem_filesIn.mp hfile
  obtain ⟨names, hall, -, hbelow⟩ := exists_names_join hnames hway hname
  exact ⟨_, hall, hjoin.symm.trans hbelow⟩

/-- A walk gathers paths with different components in their order. -/
theorem pairwise_before_gathered : (tree.gathered selection root).Pairwise Path.Before := by
  have hnodup : (tree.gathered selection root).Nodup := by
    rw [gathered, (List.mergeSort_perm _ _).nodup_iff, List.nodup_flatMap]
    refine ⟨fun v hv => ?_, ?_⟩
    · obtain ⟨above, hway, -⟩ := exists_isWay_of_mem_visits hv
      exact nodup_filesIn hnames hway
    · have hplaces := List.pairwise_map.mp (tree.nodup_visits selection [] [root])
      refine hplaces.imp_of_mem fun {v w} hv hw hne path hpath hpath' => hne ?_
      obtain ⟨above, hway, -⟩ := exists_isWay_of_mem_visits hv
      obtain ⟨behind, hway', -⟩ := exists_isWay_of_mem_visits hw
      rw [eq_of_mem_filesIn hnames hway hway' hpath hpath']
  have hsorted : (tree.gathered selection root).Pairwise fun p q => p.le q = true :=
    List.pairwise_mergeSort Path.le_trans Path.le_total _
  refine (hsorted.and hnodup).imp_of_mem fun {p q} hp hq h => ?_
  refine Path.before_of_le h.1 fun hcomponents => h.2 ?_
  obtain ⟨names, hall, rfl⟩ := exists_below_of_mem_gathered hnames hp
  obtain ⟨names', hall', rfl⟩ := exists_below_of_mem_gathered hnames hq
  rw [Path.eq_of_components_below hall hall' hcomponents]

end

end FileTree

end Marginalia
