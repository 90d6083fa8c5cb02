import Marginalia.Proofs.FileTree.Reordered
import Marginalia.Proofs.Workspace.Scan
import Marginalia.Proofs.Workspace.Way

/-!
# Scans and the order in which directories list their names

In every order a walk has the same ways, and each of them is the first that it takes in some order.
So the files that a walk gathers do not depend on the order exactly when no other way crosses one to
a file that it takes; over links to a directory another one can, and then the order decides by which
path the files below that directory are found. The directories that cannot be listed are reported
as a walk comes to them and are not sorted, so the order decides how two of them stand in a report
unless they are shown alike.
-/

namespace Marginalia

namespace FileTree

variable {tree other : FileTree} {selection : Selection} {root path : Path} {place : Place}
  {v w : Path × Place} {above behind : List (Path × Place)} {way : List (Path × Place)}

/-- Whether all names in a tree are ones that can be written in a path. -/
def HasNames (tree : FileTree) : Prop :=
  ∀ e ∈ tree.entries, ∀ name ∈ e.1, IsName name

instance (tree : FileTree) : Decidable tree.HasNames :=
  inferInstanceAs (Decidable (∀ e ∈ tree.entries, _))

/-- In a tree with names, the names in a directory are ones that can be written in a path. -/
theorem HasNames.isName (h : tree.HasNames) {name : Bytes} (hname : name ∈ tree.listed place) :
    IsName name := by
  obtain ⟨-, entry, hentry⟩ := mem_listed.mp hname
  exact h _ (entryAt?_eq_some_iff.mp hentry) name
    (List.mem_append_right _ (List.mem_singleton_self name))

/-- A walk over a tree with names finds names. -/
theorem HasNames.hasNamesFrom (h : tree.HasNames) (selection : Selection) (root : Path) :
    tree.HasNamesFrom selection root :=
  fun _ _ _ _ hname => h.isName hname

/-- A tree has the same names in every order. -/
theorem HasNames.reorders (h : tree.HasNames) (hother : tree.Reorders other) : other.HasNames :=
  fun e he => h e (hother.entries.mem_iff.mpr he)

namespace Reorders

variable (h : tree.Reorders other)
include h

/-- A walk goes on to the same directories in every order. -/
theorem mem_directoriesIn_iff {directory : Path} :
    path ∈ other.directoriesIn selection directory place ↔
      path ∈ tree.directoriesIn selection directory place := by
  simp only [mem_directoriesIn, h.mem_listed_iff, h.isDirectory_eq]

/-- A walk goes on from a directory as before when that lists its names as before. -/
theorem directoriesIn_eq (hnames : other.listed place = tree.listed place) (directory : Path) :
    other.directoriesIn selection directory place =
      tree.directoriesIn selection directory place := by
  rw [directoriesIn, directoriesIn, candidatesIn, candidatesIn, hnames, h.isDirectory_eq]

/-- A walk takes the same files in every order. -/
theorem mem_filesIn_iff {directory : Path} :
    path ∈ other.filesIn selection directory place ↔
      path ∈ tree.filesIn selection directory place := by
  simp only [mem_filesIn, h.mem_listed_iff, h.isDirectory_eq]

/-- A walk has the same ways in every order. -/
theorem isWay (hway : tree.IsWay selection root way) : other.IsWay selection root way := by
  induction hway with
  | start hplace => exact .start ((h.directory?_eq _).trans hplace)
  | step hway hpath hplace hnew ih =>
    exact ih.step (h.mem_directoriesIn_iff.mpr hpath) ((h.directory?_eq _).trans hplace) hnew

/-- No other way crosses one to a file that a walk takes in any order if none does in one. -/
theorem isUncrossed (huncrossed : tree.IsUncrossed selection root) :
    other.IsUncrossed selection root := by
  intro v above hway hfiles d hd w others hothers
  obtain ⟨path, hpath⟩ := List.exists_mem_of_ne_nil _ hfiles
  have htaken := List.ne_nil_of_mem (h.mem_filesIn_iff.mp hpath)
  exact huncrossed v above (h.symm.isWay hway) htaken d hd w others (h.symm.isWay hothers)

end Reorders

/-! ## Orders in which a walk takes a way first -/

/-- Whether each directory on a way is the first to which the walk goes on from that above it. -/
def IsFirstWay (tree : FileTree) (selection : Selection) : List (Path × Place) → Prop
  | d :: u :: above =>
    (∃ behind, tree.directoriesIn selection u.1 u.2 = d.1 :: behind) ∧
      tree.IsFirstWay selection (u :: above)
  | _ => True

/-- A walk takes a way first that is the first from each directory on it. -/
theorem exists_visits_of_isFirstWay (hway : tree.IsWay selection root (v :: above))
    (hfirst : tree.IsFirstWay selection (v :: above)) :
    ∃ pending, tree.visits selection [] [root] =
      above.reverse ++ v :: tree.visits selection ((v :: above).map Prod.snd)
        (tree.directoriesIn selection v.1 v.2 ++ pending) := by
  induction above generalizing v with
  | nil =>
    cases hway with
    | start hplace => exact ⟨[], visits_of_notMem hplace List.not_mem_nil⟩
  | cons u above ih =>
    obtain ⟨⟨behind, hnext⟩, hfirst⟩ := hfirst
    cases hway with
    | step hway hpath hplace hnew =>
      obtain ⟨pending, hvisits⟩ := ih hway hfirst
      refine ⟨behind ++ pending, ?_⟩
      rw [hvisits, hnext, List.cons_append, visits_of_notMem hplace hnew, List.reverse_cons,
        List.append_assoc]
      rfl

/-- Of two paths to a directory, a walk takes the first. -/
theorem visits_of_same_place {p q : Path} {here : Place} (hroot : tree.directory? root = some here)
    (hbelow : tree.directoriesIn selection root here = [p, q])
    (hp : tree.directory? p = some place) (hq : tree.directory? q = some place)
    (hne : place ≠ here) (hnone : tree.directoriesIn selection p place = []) :
    tree.visits selection [] [root] = [(root, here), (p, place)] := by
  rw [visits_of_notMem hroot List.not_mem_nil, hbelow, List.append_nil,
    visits_of_notMem hp (by simpa using hne), hnone, List.nil_append,
    visits_of_mem hq List.mem_cons_self, visits]

/-- A way stays first when its directories but the last go on as before. -/
theorem IsFirstWay.congr (h : tree.IsFirstWay selection (v :: above))
    (hsame : ∀ u ∈ above,
      other.directoriesIn selection u.1 u.2 = tree.directoriesIn selection u.1 u.2) :
    other.IsFirstWay selection (v :: above) := by
  induction above generalizing v with
  | nil => trivial
  | cons u above ih =>
    obtain ⟨hu, hsame⟩ := List.forall_mem_cons.mp hsame
    exact ⟨hu ▸ h.1, ih h.2 hsame⟩

/-- A walk goes on first to the directory with the first name, unless it skips or ignores it. -/
theorem exists_directoriesIn_cons {directory : Path} {name : Bytes} {names : List Bytes}
    (hnames : tree.listed place = name :: names) (hskipped : Selection.isSkippedName name = false)
    (hignored : selection.ignores (directory.join ⟨name⟩) true = false)
    (hdirectory : tree.isDirectory (directory.join ⟨name⟩) = true) :
    ∃ behind, tree.directoriesIn selection directory place = directory.join ⟨name⟩ :: behind := by
  rw [directoriesIn, candidatesIn, hnames, List.filter_cons_of_pos (by simp [hskipped]),
    List.map_cons, List.filter_cons_of_pos (by simp [hdirectory, hignored]),
    List.filter_cons_of_pos hdirectory]
  exact ⟨_, rfl⟩

/-- Every way is first in some order. -/
theorem exists_reorders_isFirstWay (hway : tree.IsWay selection root way) :
    ∃ other, tree.Reorders other ∧ other.IsFirstWay selection way := by
  induction hway with
  | start hplace => exact ⟨tree, .refl tree, trivial⟩
  | @step v above path place hway hpath hplace hnew ih =>
    obtain ⟨other, hother, hfirst⟩ := ih
    obtain ⟨name, hname, hskipped, rfl, hignored, hdirectory⟩ :=
      mem_directoriesIn.mp (hother.mem_directoriesIn_iff.mpr hpath)
    have hput := other.reorders_putFirst (v.2 ++ [name])
    refine ⟨other.putFirst (v.2 ++ [name]), hother.trans hput, ?_, ?_⟩
    · obtain ⟨behind, hnames⟩ := exists_listed_putFirst hname
      exact exists_directoriesIn_cons hnames hskipped hignored (hput.isDirectory_eq ▸ hdirectory)
    · -- the way does not come back to the directory whose names are listed in another order
      refine hfirst.congr fun u hu => hput.directoriesIn_eq (listed_putFirst_of_ne fun heq => ?_) u.1
      exact (List.nodup_cons.mp hway.nodup).1 (heq ▸ List.mem_map_of_mem hu)

/-- In some order a walk first visits the directories on a way. -/
theorem exists_reorders_visits_eq (hway : tree.IsWay selection root (v :: above)) :
    ∃ other behind, tree.Reorders other ∧
      other.visits selection [] [root] = above.reverse ++ v :: behind := by
  obtain ⟨other, hother, hfirst⟩ := exists_reorders_isFirstWay hway
  obtain ⟨pending, hvisits⟩ := exists_visits_of_isFirstWay (hother.isWay hway) hfirst
  exact ⟨other, _, hother, hvisits⟩

/-- In some order a walk visits the end of a way by the path of that way. -/
theorem exists_reorders_mem_visits (hway : tree.IsWay selection root (v :: above)) :
    ∃ other, tree.Reorders other ∧ v ∈ other.visits selection [] [root] := by
  obtain ⟨other, behind, hother, hvisits⟩ := exists_reorders_visits_eq hway
  exact ⟨other, hother, hvisits ▸ List.mem_append_right _ List.mem_cons_self⟩

/-! ## Ways with the same path -/

section

variable (hnames : tree.HasNamesFrom selection root)
include hnames

/-- A name in the directory at the end of a way does not lead back to the path of the root. -/
theorem join_ne_root (hway : tree.IsWay selection root (v :: above)) {name : Bytes}
    (hname : name ∈ tree.listed v.2) : v.1.join ⟨name⟩ ≠ root := by
  obtain ⟨names, hall, -, hjoin⟩ := exists_names_join hnames hway hname
  rw [hjoin]
  intro heq
  have hnil := Path.eq_of_components_below hall (List.forall_mem_nil _)
    (congrArg Path.components heq)
  exact List.append_ne_nil_of_right_ne_nil _ (List.cons_ne_nil _ _) hnil

/-- There is one way to a path. -/
theorem eq_of_isWay (hway : tree.IsWay selection root (v :: above))
    (hway' : tree.IsWay selection root (v :: behind)) : above = behind := by
  induction above generalizing v behind with
  | nil =>
    cases hway with
    | start _ =>
      cases hway' with
      | start _ => rfl
      | step hu hpath _ _ =>
        obtain ⟨name, hname, -, hjoin, -⟩ := mem_directoriesIn.mp hpath
        exact absurd hjoin (join_ne_root hnames hu hname)
  | cons u above ih =>
    cases hway with
    | step hu hpath _ _ =>
      obtain ⟨name, hname, -, hjoin, -⟩ := mem_directoriesIn.mp hpath
      cases hway' with
      | start _ => exact absurd hjoin (join_ne_root hnames hu hname)
      | step hu' hpath' _ _ =>
        obtain ⟨name', hname', -, hjoin', -⟩ := mem_directoriesIn.mp hpath'
        obtain ⟨rfl, -⟩ :=
          eq_of_join_eq hnames hu hu' hname hname' (hjoin.trans hjoin'.symm)
        rw [ih hu hu']

end

/-! ## Walks in every order -/

/-- No other way crosses one whose end a walk visits in every order. -/
theorem isOnlyWay_of_forall_mem_visits (hnames : tree.HasNamesFrom selection root)
    (hway : tree.IsWay selection root (v :: above))
    (hvisited : ∀ other, tree.Reorders other → v ∈ other.visits selection [] [root]) :
    tree.IsOnlyWay selection root (v :: above) := by
  intro d hd w behind hcrossing hplace
  -- when the crossing way comes first, the walk still comes to the end over the whole way to it
  obtain ⟨other, hother, hw⟩ := exists_reorders_mem_visits hcrossing
  obtain ⟨rest, hrest, hsub⟩ := exists_isWay_of_mem_visits (hvisited other hother)
  obtain rfl := eq_of_isWay hnames (hother.symm.isWay hrest) hway
  -- it visits the place where the ways cross once only
  have hnodup := other.nodup_visits selection [] [root]
  rw [List.inj_on_of_nodup_map hnodup hw (hsub hd) hplace]

section

variable (hnames : tree.HasNames)
include hnames

/-- Where no way crosses one to a file that the walk takes, the walk gathers the same files in every
order. -/
theorem gathered_eq_of_reorders (huncrossed : tree.IsUncrossed selection root)
    (h : tree.Reorders other) : other.gathered selection root = tree.gathered selection root := by
  refine (pairwise_before_gathered ((hnames.reorders h).hasNamesFrom selection root)).eq_of_mem_iff
    (pairwise_before_gathered (hnames.hasNamesFrom selection root)) fun path => ?_
  rw [mem_gathered_iff_of_isUncrossed (h.isUncrossed huncrossed),
    mem_gathered_iff_of_isUncrossed huncrossed]
  constructor
  · rintro ⟨v, above, hway, hpath⟩
    exact ⟨v, above, h.symm.isWay hway, h.mem_filesIn_iff.mp hpath⟩
  · rintro ⟨v, above, hway, hpath⟩
    exact ⟨v, above, h.isWay hway, h.mem_filesIn_iff.mpr hpath⟩

/-- Where the walk gathers the same files in every order, no way crosses one to a file that it
takes. -/
theorem isUncrossed_of_forall_gathered_eq
    (hsame : ∀ other, tree.Reorders other →
      other.gathered selection root = tree.gathered selection root) :
    tree.IsUncrossed selection root := by
  intro v above hway hfiles
  have hfrom := hnames.hasNamesFrom selection root
  obtain ⟨path, hpath⟩ := List.exists_mem_of_ne_nil _ hfiles
  -- in the order in which the way comes first, the file at its end is gathered
  obtain ⟨first, hfirst, hv⟩ := exists_reorders_mem_visits hway
  have hgathered : path ∈ first.gathered selection root :=
    mem_gathered.mpr ⟨v, hv, hfirst.mem_filesIn_iff.mpr hpath⟩
  refine isOnlyWay_of_forall_mem_visits hfrom hway fun other hother => ?_
  rw [hsame first hfirst, ← hsame other hother, mem_gathered] at hgathered
  obtain ⟨u, hu, hpath'⟩ := hgathered
  obtain ⟨rest, hrest, -⟩ := exists_isWay_of_mem_visits hu
  rwa [← eq_of_mem_filesIn hfrom (hother.symm.isWay hrest) hway (hother.mem_filesIn_iff.mp hpath')
    hpath]

end

/-! ## Directories that cannot be listed -/

/-- Whether a directory at the end of a way cannot be listed. -/
def IsClosedEnd (tree : FileTree) (selection : Selection) (root : Path) (v : Path × Place) : Prop :=
  tree.closedAt v.2 = true ∧ ∃ above, tree.IsWay selection root (v :: above)

/-- Whether all directories that cannot be listed are shown alike and a walk comes to as many of
them in every order. -/
structure IsShownAlike (tree : FileTree) (selection : Selection) (root : Path) : Prop where
  relativeTo_eq : ∀ v w, tree.IsClosedEnd selection root v → tree.IsClosedEnd selection root w →
    v.1.relativeTo root = w.1.relativeTo root
  length_eq : ∀ other, tree.Reorders other →
    (other.unlisted selection root).length = (tree.unlisted selection root).length

/-- The directories before the end of a way can be listed. -/
theorem IsWay.closedAt_eq_false (h : tree.IsWay selection root (v :: above)) :
    ∀ d ∈ above, tree.closedAt d.2 = false := by
  induction above generalizing v with
  | nil => exact List.forall_mem_nil _
  | cons u above ih =>
    cases h with
    | step hway hpath hplace hnew =>
      obtain ⟨name, hname, -⟩ := mem_directoriesIn.mp hpath
      exact List.forall_mem_cons.mpr ⟨(mem_listed.mp hname).1, ih hway⟩

/-- What a walk cannot list in any order stands at the end of a way. -/
theorem Reorders.exists_isClosedEnd (h : tree.Reorders other)
    (hpath : path ∈ other.unlisted selection root) :
    ∃ v, tree.IsClosedEnd selection root v ∧ v.1 = path ∧ v ∈ other.visits selection [] [root] := by
  obtain ⟨place, hv, hclosed⟩ := mem_unlisted.mp hpath
  obtain ⟨above, hway, -⟩ := exists_isWay_of_mem_visits hv
  rw [h.closedAt_eq] at hclosed
  exact ⟨(path, place), ⟨hclosed, above, h.symm.isWay hway⟩, rfl, hv⟩

/-- Each directory that cannot be listed is the first of them in some order. -/
theorem exists_reorders_unlisted_eq_cons (h : tree.IsClosedEnd selection root v) :
    ∃ other behind, tree.Reorders other ∧ other.unlisted selection root = v.1 :: behind := by
  obtain ⟨hclosed, above, hway⟩ := h
  obtain ⟨other, behind, hother, hvisits⟩ := exists_reorders_visits_eq hway
  have hopen : (above.reverse.filter fun d => tree.closedAt d.2) = [] := by
    rw [List.filter_eq_nil_iff]
    intro d hd
    rw [hway.closedAt_eq_false d (List.mem_reverse.mp hd)]
    exact Bool.false_ne_true
  refine ⟨other, (behind.filter fun d => tree.closedAt d.2).map Prod.fst, hother, ?_⟩
  rw [unlisted, hvisits, hother.closedAt_eq, List.filter_append, hopen, List.nil_append,
    List.filter_cons_of_pos (by exact hclosed), List.map_cons]

/-- The directories that a walk cannot list are shown the same in every order exactly when all of
them are shown alike and there are as many in every order. -/
theorem forall_unlisted_eq_iff_isShownAlike :
    (∀ other, tree.Reorders other →
      (other.unlisted selection root).map (·.relativeTo root) =
        (tree.unlisted selection root).map (·.relativeTo root)) ↔
      tree.IsShownAlike selection root := by
  constructor
  · intro hsame
    refine ⟨fun v w hv hw => ?_, fun other hother => ?_⟩
    · obtain ⟨first, behind, hfirst, hcons⟩ := exists_reorders_unlisted_eq_cons hv
      obtain ⟨second, behind', hsecond, hcons'⟩ := exists_reorders_unlisted_eq_cons hw
      have heq := (hsame first hfirst).trans (hsame second hsecond).symm
      rw [hcons, hcons'] at heq
      exact (List.cons.inj heq).1
    · simpa using congrArg List.length (hsame other hother)
  · intro halike other hother
    refine List.ext_getElem (by simpa using halike.length_eq other hother) fun i hi hi' => ?_
    rw [List.getElem_map, List.getElem_map]
    obtain ⟨v, hv, hpath, -⟩ := hother.exists_isClosedEnd (List.getElem_mem (by simpa using hi))
    obtain ⟨w, hw, hpath', -⟩ :=
      (Reorders.refl tree).exists_isClosedEnd (List.getElem_mem (by simpa using hi'))
    rw [← hpath, ← hpath', halike.relativeTo_eq v w hv hw]

/-- Where no other way crosses the one to the only directory that cannot be listed, a walk cannot
list this directory alone. -/
theorem unlisted_eq_singleton (hclosed : tree.closedAt v.2 = true)
    (hway : tree.IsWay selection root (v :: above))
    (hone : ∀ w, tree.IsClosedEnd selection root w → w = v)
    (honly : tree.IsOnlyWay selection root (v :: above)) :
    tree.unlisted selection root = [v.1] := by
  have hmem (w : Path × Place) :
      w ∈ (tree.visits selection [] [root]).filter (fun d => tree.closedAt d.2) ↔ w ∈ [v] := by
    rw [List.mem_filter, List.mem_singleton]
    constructor
    · rintro ⟨hvisited, hw⟩
      obtain ⟨rest, hrest, -⟩ := exists_isWay_of_mem_visits hvisited
      exact hone w ⟨hw, rest, hrest⟩
    · rintro rfl
      exact ⟨mem_visits_of_isOnlyWay hway honly List.mem_cons_self, hclosed⟩
  have hnodup : (tree.visits selection [] [root]).Nodup := (tree.nodup_visits _ _ _).of_map _
  have hperm := (List.perm_ext_iff_of_nodup (hnodup.filter _) (List.nodup_singleton v)).mpr hmem
  rw [unlisted, List.perm_singleton.mp hperm]
  rfl

/-- Where the only directory that cannot be listed is reported in every order, no other way crosses
the one there. -/
theorem isOnlyWay_of_forall_length_eq (hnames : tree.HasNames)
    (hway : tree.IsWay selection root (v :: above)) (hclosed : tree.closedAt v.2 = true)
    (hone : ∀ w, tree.IsClosedEnd selection root w → w = v)
    (hlength : ∀ other, tree.Reorders other →
      (other.unlisted selection root).length = (tree.unlisted selection root).length) :
    tree.IsOnlyWay selection root (v :: above) := by
  refine isOnlyWay_of_forall_mem_visits (hnames.hasNamesFrom selection root) hway
    fun other hother => ?_
  -- there is one in the order in which the way comes first, so there is one in every order
  obtain ⟨first, behind, hfirst, hcons⟩ :=
    exists_reorders_unlisted_eq_cons (⟨hclosed, above, hway⟩ : tree.IsClosedEnd selection root v)
  have hpos : 0 < (other.unlisted selection root).length := by
    rw [hlength other hother, ← hlength first hfirst, hcons]
    exact Nat.succ_pos _
  obtain ⟨path, hpath⟩ := List.exists_mem_of_length_pos hpos
  obtain ⟨w, hw, -, hvisited⟩ := hother.exists_isClosedEnd hpath
  rwa [hone w hw] at hvisited

/-- Where there is one directory at most that cannot be listed, and no other way crosses the one
there, it is reported in every order. -/
theorem unlisted_eq_of_reorders
    (hone : ∀ v w, tree.IsClosedEnd selection root v → tree.IsClosedEnd selection root w → v = w)
    (honly : ∀ v above, tree.IsWay selection root (v :: above) → tree.closedAt v.2 = true →
      tree.IsOnlyWay selection root (v :: above)) (h : tree.Reorders other) :
    other.unlisted selection root = tree.unlisted selection root := by
  by_cases hsome : ∃ v, tree.IsClosedEnd selection root v
  · obtain ⟨v, hv⟩ := hsome
    obtain ⟨hclosed, above, hway⟩ := id hv
    have hends (order : FileTree) (horder : tree.Reorders order) :
        order.unlisted selection root = [v.1] := by
      refine unlisted_eq_singleton (horder.closedAt_eq ▸ hclosed) (horder.isWay hway)
        (fun w hw => ?_) fun d hd w rest hrest =>
          honly v above hway hclosed d hd w rest (horder.symm.isWay hrest)
      obtain ⟨hw, rest, hrest⟩ := hw
      exact hone w v ⟨horder.closedAt_eq ▸ hw, rest, horder.symm.isWay hrest⟩ hv
    rw [hends other h, hends tree (.refl tree)]
  · have hnone (order : FileTree) (horder : tree.Reorders order) :
        order.unlisted selection root = [] := by
      refine List.eq_nil_iff_forall_not_mem.mpr fun path hpath => hsome ?_
      obtain ⟨v, hv, -⟩ := horder.exists_isClosedEnd hpath
      exact ⟨v, hv⟩
    rw [hnone other h, hnone tree (.refl tree)]

/-- Where different directories that cannot be listed are shown differently, all are shown alike in
every order exactly when there is one at most and no other way crosses the one there. -/
theorem isShownAlike_iff (hnames : tree.HasNames)
    (hshown : ∀ v w, tree.IsClosedEnd selection root v → tree.IsClosedEnd selection root w →
      v.1.relativeTo root = w.1.relativeTo root → v.1 = w.1) :
    tree.IsShownAlike selection root ↔
      (∀ v w, tree.IsClosedEnd selection root v → tree.IsClosedEnd selection root w → v = w) ∧
        ∀ v above, tree.IsWay selection root (v :: above) → tree.closedAt v.2 = true →
          tree.IsOnlyWay selection root (v :: above) := by
  constructor
  · intro halike
    have hone (v w : Path × Place) (hv : tree.IsClosedEnd selection root v)
        (hw : tree.IsClosedEnd selection root w) : v = w := by
      have hpath := hshown v w hv hw (halike.relativeTo_eq v w hv hw)
      obtain ⟨-, above, hway⟩ := hv
      obtain ⟨-, behind, hway'⟩ := hw
      exact hway.eq_of_fst_eq hway' hpath
    refine ⟨hone, fun v above hway hclosed => ?_⟩
    exact isOnlyWay_of_forall_length_eq hnames hway hclosed
      (fun w hw => hone w v hw ⟨hclosed, above, hway⟩) halike.length_eq
  · rintro ⟨hone, honly⟩
    exact ⟨fun v w hv hw => by rw [hone v w hv hw],
      fun other hother => congrArg List.length (unlisted_eq_of_reorders hone honly hother)⟩

/-- Where every directory can be listed, all that cannot be are shown alike. -/
theorem isShownAlike_of_forall_mem (hnames : tree.HasNames)
    (h : ∀ e ∈ tree.entries, e.2 ≠ .directory false) : tree.IsShownAlike selection root := by
  have hopen (place : Place) : tree.closedAt place ≠ true :=
    Bool.eq_false_iff.mp (closedAt_eq_false_of_forall_mem h place)
  refine (isShownAlike_iff hnames fun v w hv => absurd hv.1 (hopen v.2)).mpr ⟨fun v w hv => ?_, ?_⟩
  · exact absurd hv.1 (hopen v.2)
  · exact fun v above hway hclosed => absurd hclosed (hopen v.2)

/-- From a directory that cannot be listed, a walk gathers nothing. -/
theorem gathered_of_isClosed (h : tree.isClosed root = true) :
    tree.gathered selection root = [] := by
  obtain ⟨place, hplace, hclosed⟩ := (Option.any_eq_true _ _).mp h
  have hlisted : tree.listed place = [] := if_pos hclosed
  rw [gathered_of_any_eq_false hplace (by rw [hlisted, List.any_nil]), filesIn, candidatesIn,
    hlisted, List.filter_nil, List.map_nil, List.filter_nil, List.filter_nil, List.mergeSort_nil]

end FileTree

namespace Workspace

variable {tree other : FileTree} {root : Path} {settings : Settings}
  {found found' : FileTree.Collected}

/-- What a walk over sources leaves out and takes is the same in every order. -/
theorem sourceSelection_eq_of_reorders (h : tree.Reorders other) :
    sourceSelection other root settings = sourceSelection tree root settings := by
  rw [sourceSelection, sourceSelection, ignoreFile, ignoreFile, h.fileAt_eq]

/-- When a scan finds the same files, it finds the same at all exactly when it fails or reports the
directories that cannot be listed in the same way. -/
theorem scan_eq_iff_of_reorders (h : tree.Reorders other)
    (hsources : sources tree root settings = .ok found)
    (hsources' : sources other root settings = .ok found') (hfiles : found'.files = found.files) :
    scan other root settings = scan tree root settings ↔
      ((∃ result, scan tree root settings = .ok result) →
        unreadableDiagnostics root found' = unreadableDiagnostics root found) := by
  have hread : scanFile other = scanFile tree := by
    funext root size reading path
    rw [scanFile, scanFile, h.fileAt_eq]
  rw [scan_eq hsources, scan_eq hsources', hread, hfiles]
  cases Document.ofNotes _ with
  | error failure => simp [Except.map]
  | ok document => simp [Except.map]

/-- The directories that a walk cannot list are reported in the same way when they are shown as the
same. -/
theorem unreadableDiagnostics_eq_iff {files files' : List Path} {paths paths' : List Path} :
    unreadableDiagnostics root ⟨files', paths'.map fun path => (path, .file .denied)⟩ =
        unreadableDiagnostics root ⟨files, paths.map fun path => (path, .file .denied)⟩ ↔
      paths'.map (·.relativeTo root) = paths.map (·.relativeTo root) := by
  have hinjective : Function.Injective fun file : Text => Diagnostic.mk file (.file .denied) :=
    fun _ _ h => congrArg Diagnostic.file h
  have hmap (paths : List Path) (files : List Path) :
      unreadableDiagnostics root ⟨files, paths.map fun path => (path, .file .denied)⟩ =
        (paths.map (·.relativeTo root)).map fun file => ⟨file, .file .denied⟩ := by
    rw [unreadableDiagnostics, List.map_map, List.map_map]
    rfl
  rw [hmap, hmap, (List.map_injective_iff.mpr hinjective).eq_iff]

/-- Without sources, nothing is found in any order. -/
theorem files_and_scan_eq_of_error {failure : Failure}
    (h : sources tree root settings = .error failure)
    (h' : sources other root settings = .error failure) :
    (sources other root settings).map FileTree.Collected.files =
        (sources tree root settings).map FileTree.Collected.files ∧
      scan other root settings = scan tree root settings := by
  rw [scan, scan, h, h']
  exact ⟨rfl, rfl⟩

/-- The sources are what a walk finds in every order. -/
theorem sources_of_reorders {selection : Selection}
    (hselection : sourceSelection tree root settings = .ok selection) (h : tree.Reorders other) :
    sources other root settings = other.collect selection root :=
  sources_of_sourceSelection ((sourceSelection_eq_of_reorders h).trans hselection)

/-- From a root that can be listed, a scan finds the same in every order exactly when no other way
crosses one to a source and, unless the scan fails, all directories that cannot be listed are shown
alike. -/
theorem forall_scan_eq_iff_of_isClosed_eq_false (hnames : tree.HasNames) {selection : Selection}
    (hselection : sourceSelection tree root settings = .ok selection)
    (hopen : tree.isClosed root = false) :
    (∀ other, tree.Reorders other →
        (sources other root settings).map FileTree.Collected.files =
            (sources tree root settings).map FileTree.Collected.files ∧
          scan other root settings = scan tree root settings) ↔
      tree.IsUncrossed selection root ∧
        ((∃ result, scan tree root settings = .ok result) →
          tree.IsShownAlike selection root) := by
  have hfound (order : FileTree) (horder : tree.Reorders order) :=
    (sources_of_reorders hselection horder).trans
      (FileTree.collect_of_isClosed_eq_false ((horder.isClosed_eq root).trans hopen))
  have htree := hfound tree (.refl tree)
  constructor
  · intro hsame
    have hfiles (other : FileTree) (hother : tree.Reorders other) :
        other.gathered selection root = tree.gathered selection root := by
      have hmap := (hsame other hother).1
      rw [hfound other hother, htree] at hmap
      exact Except.ok.inj hmap
    refine ⟨FileTree.isUncrossed_of_forall_gathered_eq hnames hfiles, fun hscan => ?_⟩
    rw [← FileTree.forall_unlisted_eq_iff_isShownAlike]
    intro other hother
    have hscans := scan_eq_iff_of_reorders hother htree (hfound other hother) (hfiles other hother)
    exact unreadableDiagnostics_eq_iff.mp (hscans.mp (hsame other hother).2 hscan)
  · rintro ⟨huncrossed, halike⟩ other hother
    have hfiles := FileTree.gathered_eq_of_reorders hnames huncrossed hother
    refine ⟨?_, (scan_eq_iff_of_reorders hother htree (hfound other hother) hfiles).mpr fun hscan =>
      unreadableDiagnostics_eq_iff.mpr ?_⟩
    · rw [hfound other hother, htree]
      exact congrArg Except.ok hfiles
    · exact FileTree.forall_unlisted_eq_iff_isShownAlike.mpr (halike hscan) other hother

/-- A scan finds the same files and the same at all in every order in which directories list their
names exactly when no other way crosses one to a source, so that every directory on such a way can
be reached by one path only, and, unless the scan fails, all directories that cannot be listed are
shown alike. Where different ones are shown differently, that is to say that there is one at most
and that no other way crosses the one there. -/
theorem scan_eq_in_every_order_iff (hnames : tree.HasNames) :
    ((∀ other, tree.Reorders other →
        (sources other root settings).map FileTree.Collected.files =
            (sources tree root settings).map FileTree.Collected.files ∧
          scan other root settings = scan tree root settings) ↔
      ∀ selection, sourceSelection tree root settings = .ok selection →
        tree.IsUncrossed selection root ∧
          ((∃ result, scan tree root settings = .ok result) →
            tree.IsShownAlike selection root)) ∧
    ∀ selection : Selection,
      (∀ v w, tree.IsClosedEnd selection root v → tree.IsClosedEnd selection root w →
        v.1.relativeTo root = w.1.relativeTo root → v.1 = w.1) →
      (tree.IsShownAlike selection root ↔
        (∀ v w, tree.IsClosedEnd selection root v → tree.IsClosedEnd selection root w → v = w) ∧
          ∀ v above, tree.IsWay selection root (v :: above) → tree.closedAt v.2 = true →
            tree.IsOnlyWay selection root (v :: above)) := by
  refine ⟨?_, fun selection => FileTree.isShownAlike_iff hnames⟩
  cases hselection : sourceSelection tree root settings with
  | error failure =>
    have hfails (order : FileTree) (horder : tree.Reorders order) :
        sources order root settings = .error failure := by
      rw [sources, (sourceSelection_eq_of_reorders horder).trans hselection]
      rfl
    refine iff_of_true (fun other hother => ?_) fun selection hselected => by cases hselected
    exact files_and_scan_eq_of_error (hfails tree (.refl tree)) (hfails other hother)
  | ok selection =>
    simp only [Except.ok.injEq, forall_eq']
    cases hroot : tree.isClosed root with
    | false => exact forall_scan_eq_iff_of_isClosed_eq_false hnames hselection hroot
    | true =>
      have hclosed (order : FileTree) (horder : tree.Reorders order) : order.isClosed root = true :=
        (horder.isClosed_eq root).trans hroot
      have hfails (order : FileTree) (horder : tree.Reorders order) :=
        (sources_of_reorders hselection horder).trans
          (FileTree.collect_of_isClosed (hclosed order horder))
      refine iff_of_true (fun other hother => ?_) ⟨?_, ?_⟩
      · exact files_and_scan_eq_of_error (hfails tree (.refl tree)) (hfails other hother)
      · refine FileTree.isUncrossed_of_forall_gathered_eq hnames fun other hother => ?_
        rw [FileTree.gathered_of_isClosed (hclosed other hother),
          FileTree.gathered_of_isClosed hroot]
      · rintro ⟨result, hresult⟩
        rw [scan, hfails tree (.refl tree)] at hresult
        cases hresult

/-- A workspace with a file and a link to the workspace itself. -/
def linkToItself : FileTree where
  entries := [([], .directory), (["w".toList], .directory),
    (["w".toList, "self".toList], .link ".".toList),
    (["w".toList, "a.rs".toList], .file (.text []) ⟨0, 0⟩)]
  working := []
  now := ⟨0, 0⟩
  nodup := by decide

/-- The link leads back to where the walk starts, so it makes no difference when it is listed. -/
theorem scan_eq_in_every_order_linkToItself :
    let root : Path := ⟨"/w".toList⟩
    let other := linkToItself.putFirst ["w".toList, "a.rs".toList]
    linkToItself.listed ["w".toList] = (["self".toList, "a.rs".toList] : List Bytes) ∧
      other.listed ["w".toList] = (["a.rs".toList, "self".toList] : List Bytes) ∧
      (sources other root {}).map FileTree.Collected.files =
          (sources linkToItself root {}).map FileTree.Collected.files ∧
      scan other root {} = scan linkToItself root {} := by
  have hnames : linkToItself.HasNames := by decide
  have hroot : linkToItself.directory? ⟨"/w".toList⟩ = some (["w".toList] : Place) := by
    decide +kernel
  have hlisted : linkToItself.listed ["w".toList] =
      (["self".toList, "a.rs".toList] : List Bytes) := by decide
  have hways {selection : Selection} {way : List (Path × Place)}
      (hway : linkToItself.IsWay selection ⟨"/w".toList⟩ way) :
      way = [((⟨"/w".toList⟩ : Path), (["w".toList] : Place))] := by
    induction hway with
    | start hplace => rw [Option.some.inj (hplace.symm.trans hroot)]
    | step hway hpath hplace hnew ih =>
      obtain ⟨rfl, rfl⟩ := List.cons.inj ih
      obtain ⟨name, hname, -, rfl, -, hdirectory⟩ := FileTree.mem_directoriesIn.mp hpath
      rw [hlisted, List.mem_pair] at hname
      rcases hname with rfl | rfl
      · have hself : linkToItself.directory? (Path.join ⟨"/w".toList⟩ ⟨"self".toList⟩) =
            some (["w".toList] : Place) := by decide +kernel
        obtain rfl := Option.some.inj (hplace.symm.trans hself)
        exact absurd (List.mem_singleton_self _) hnew
      · have hfile : linkToItself.isDirectory (Path.join ⟨"/w".toList⟩ ⟨"a.rs".toList⟩) = false := by
          decide +kernel
        rw [hfile] at hdirectory
        cases hdirectory
  have huncrossed (selection : Selection) : linkToItself.IsUncrossed selection ⟨"/w".toList⟩ := by
    intro v above hway _ d hd w behind hcrossing _
    rw [hways hway, List.mem_singleton] at hd
    rw [hd, (List.cons.inj (hways hcrossing)).1]
  have halike (selection : Selection) : linkToItself.IsShownAlike selection ⟨"/w".toList⟩ :=
    FileTree.isShownAlike_of_forall_mem hnames (by decide)
  exact ⟨hlisted, by decide, (scan_eq_in_every_order_iff hnames).1.mpr
    (fun selection _ => ⟨huncrossed selection, fun _ => halike selection⟩) _
    (linkToItself.reorders_putFirst _)⟩

/-- A workspace with a directory, a file in it, and a link to the directory that is listed behind
it. -/
def linkLast : FileTree where
  entries := [([], .directory), (["w".toList], .directory), (["w".toList, "a".toList], .directory),
    (["w".toList, "b".toList], .link "a".toList),
    (["w".toList, "a".toList, "f.rs".toList], .file (.text []) ⟨0, 0⟩)]
  working := []
  now := ⟨0, 0⟩
  nodup := by decide

/-- The same workspace with the link listed before the directory. -/
def linkFirst : FileTree :=
  linkLast.putFirst ["w".toList, "b".toList]

/-- The order decides by which of its two paths the file is found. -/
theorem sources_depend_on_order :
    linkLast.Reorders linkFirst ∧
      sources linkLast ⟨"/w".toList⟩ {} = .ok ⟨[⟨"/w/a/f.rs".toList⟩], []⟩ ∧
      sources linkFirst ⟨"/w".toList⟩ {} = .ok ⟨[⟨"/w/b/f.rs".toList⟩], []⟩ := by
  have hsources {tree : FileTree} {selection : Selection} {visits : List (Path × Place)}
      {files : List Path} (hselection : sourceSelection tree ⟨"/w".toList⟩ {} = .ok selection)
      (hopen : tree.isClosed ⟨"/w".toList⟩ = false)
      (hvisits : tree.visits selection [] [⟨"/w".toList⟩] = visits)
      (hnone : (visits.filter fun v => tree.closedAt v.2) = [])
      (hfiles : (visits.flatMap fun v => tree.filesIn selection v.1 v.2).mergeSort Path.le = files) :
      sources tree ⟨"/w".toList⟩ {} = .ok ⟨files, []⟩ := by
    rw [sources_of_sourceSelection hselection, FileTree.collect_of_isClosed_eq_false hopen,
      FileTree.unlisted, FileTree.gathered, hvisits, hnone, ← hfiles]
    rfl
  refine ⟨linkLast.reorders_putFirst _, ?_, ?_⟩
  · have hvisits {selection : Selection}
        (hbelow : linkLast.directoriesIn selection ⟨"/w".toList⟩ ["w".toList] =
          [⟨"/w/a".toList⟩, ⟨"/w/b".toList⟩])
        (hnone : linkLast.directoriesIn selection ⟨"/w/a".toList⟩ ["w".toList, "a".toList] = []) :=
      FileTree.visits_of_same_place (by decide +kernel) hbelow (by decide +kernel)
        (by decide +kernel) (by decide) hnone
    exact hsources rfl (by decide +kernel) (hvisits (by decide +kernel) (by decide +kernel))
      (by decide +kernel) (by decide +kernel)
  · have hvisits {selection : Selection}
        (hbelow : linkFirst.directoriesIn selection ⟨"/w".toList⟩ ["w".toList] =
          [⟨"/w/b".toList⟩, ⟨"/w/a".toList⟩])
        (hnone : linkFirst.directoriesIn selection ⟨"/w/b".toList⟩ ["w".toList, "a".toList] = []) :=
      FileTree.visits_of_same_place (by decide +kernel) hbelow (by decide +kernel)
        (by decide +kernel) (by decide) hnone
    exact hsources rfl (by decide +kernel) (hvisits (by decide +kernel) (by decide +kernel))
      (by decide +kernel) (by decide +kernel)

end Workspace

end Marginalia
