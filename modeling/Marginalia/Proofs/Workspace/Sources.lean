import Mathlib.Data.List.Induction
import Mathlib.Data.List.Infix
import Marginalia.Proofs.Text.Bytes
import Marginalia.Proofs.Workspace.Scan
import Marginalia.Proofs.Workspace.Way

/-!
# The sources below a root

Below a root without links there is one way to each directory, so a walk visits every directory that
it does not leave out and to which it comes over directories that can be listed. What it gathers are
the files with no name that it skips, nothing ignored between the root and them, and an extension or
a pattern for which they are taken. A directory that cannot be listed is reported, and a name that is
no text is not skipped, whatever it begins with.
-/

namespace Marginalia

namespace FileTree

variable {tree : FileTree} {selection : Selection} {root path : Path} {place q : Place}
  {names : List Bytes} {v w : Path × Place} {above : List (Path × Place)}

/-! ## Places below a root without links -/

/-- Names lead from a directory to an entry only if all but the last lead to a directory. -/
theorem exists_directory?_below (hroot : tree.directory? root = some place) {name : Bytes}
    (hnames : ∀ n ∈ names ++ [name], IsName n) {entry : Entry}
    (h : tree.locate (root.below (names ++ [name])) = .ok (q, entry)) :
    ∃ p, tree.directory? (root.below names) = some p := by
  obtain ⟨hnames, hname⟩ := List.forall_mem_append.mp hnames
  have hblank := (directory?_eq_some_iff_follow.mp hroot).1
  rw [Path.below_concat] at h
  exact exists_directory?_of_locate_join (Path.bytes_below_ne_nil hblank hnames)
    (hname name (List.mem_singleton_self name)) h

/-- Below a place without links, names lead to the entry with these names. -/
theorem locate_below (hplain : tree.IsPlainBelow place) (hroot : tree.directory? root = some place)
    (hnames : ∀ name ∈ names, IsName name) {entry : Entry}
    (h : tree.locate (root.below names) = .ok (q, entry)) :
    q = place ++ names ∧ tree.entryAt? q = some entry := by
  induction names using List.reverseRecOn generalizing q entry with
  | nil =>
    obtain ⟨listable, hlocate⟩ := directory?_eq_some_iff.mp hroot
    obtain ⟨rfl, rfl⟩ := Prod.mk.inj (Except.ok.inj (hlocate.symm.trans h))
    exact ⟨(List.append_nil _).symm, (locate_eq_ok_iff.mp h).2.2⟩
  | append_singleton names name ih =>
    obtain ⟨p, hp⟩ := exists_directory?_below hroot hnames h
    obtain ⟨hnames, hname⟩ := List.forall_mem_append.mp hnames
    have hname := hname name (List.mem_singleton_self name)
    obtain ⟨listable, hlocate⟩ := directory?_eq_some_iff.mp hp
    obtain ⟨rfl, -⟩ := ih hnames hlocate
    rw [Path.below_concat] at h
    have hlink : ∀ target, tree.entryAt? (place ++ names ++ [name]) ≠ some (.link target) := by
      intro target htarget
      rw [List.append_assoc] at htarget
      exact (hplain _ _ htarget).1 target rfl
    obtain ⟨hq, hentry⟩ := (locate_join_eq_ok_iff hp hname hlink).mp h
    exact ⟨by rw [hq, List.append_assoc], hentry⟩

/-- Below a place without links, names lead to the directory with these names. -/
theorem directory?_below (hplain : tree.IsPlainBelow place)
    (hroot : tree.directory? root = some place) (hnames : ∀ name ∈ names, IsName name)
    (h : tree.directory? (root.below names) = some q) :
    q = place ++ names ∧ ∃ listable, tree.entryAt? q = some (.directory listable) := by
  obtain ⟨listable, hlocate⟩ := directory?_eq_some_iff.mp h
  exact (locate_below hplain hroot hnames hlocate).imp_right fun hentry => ⟨listable, hentry⟩

/-- Everything below the end of a way from where all is plain is plain. -/
theorem IsWay.isPlainFrom (hplain : tree.IsPlainFrom root)
    (h : tree.IsWay selection root (v :: above)) : tree.IsPlainFrom v.1 := by
  induction above generalizing v with
  | nil =>
    cases h with
    | start hplace => exact hplain
  | cons w above ih =>
    cases h with
    | step hway hpath hplace hnew =>
      exact isPlainFrom_of_mem_candidatesIn (ih hway w.2 hway.directory?) hway.directory?
        (List.mem_of_mem_filter hpath)

/-- A walk from where all is plain finds only names that can be written in a path. -/
theorem hasNamesFrom_of_isPlainFrom (hplain : tree.IsPlainFrom root) :
    tree.HasNamesFrom selection root := by
  intro v above hway name hname
  obtain ⟨-, entry, hentry⟩ := mem_listed.mp hname
  exact (hway.isPlainFrom hplain v.2 hway.directory? [name] entry hentry).2 name
    (List.mem_singleton_self name)

/-- In a tree whose directories can all be listed, no path leads to one that cannot. -/
theorem isClosed_eq_false_of_forall_mem (h : ∀ e ∈ tree.entries, e.2 ≠ .directory false)
    (path : Path) : tree.isClosed path = false := by
  refine Bool.eq_false_iff.mpr fun hclosed => ?_
  obtain ⟨q, -, hq⟩ := (Option.any_eq_true _ _).mp hclosed
  rw [closedAt_eq_false_of_forall_mem h q] at hq
  cases hq

section

variable (hplain : tree.IsPlainFrom root) (hroot : tree.directory? root = some place)
include hplain hroot

/-- From where all is plain, the end of a way is where the names of its path lead. -/
theorem exists_place_of_isWay (h : tree.IsWay selection root (v :: above)) :
    ∃ names, selection.Admits root names ∧ tree.IsOpenBefore root names ∧
      v = (root.below names, place ++ names) := by
  obtain ⟨names, hadmits, hopen, hv⟩ := exists_names_of_isWay (hasNamesFrom_of_isPlainFrom hplain) h
  have hdirectory := h.directory?
  rw [hv] at hdirectory
  exact ⟨names, hadmits, hopen,
    Prod.ext hv (directory?_below (hplain place hroot) hroot hadmits.isName hdirectory).1⟩

/-- From where all is plain, there is one way to each directory. -/
theorem isOnlyWay_of_isPlainFrom {way : List (Path × Place)}
    (h : tree.IsWay selection root way) : tree.IsOnlyWay selection root way := by
  intro d hd w others hothers hplaces
  obtain ⟨above, hway⟩ := h.of_mem hd
  obtain ⟨names, -, -, rfl⟩ := exists_place_of_isWay hplain hroot hway
  obtain ⟨names', -, -, rfl⟩ := exists_place_of_isWay hplain hroot hothers
  rw [List.append_cancel_left hplaces]

/-- From where all is plain, no way crosses another one. -/
theorem isUncrossed_of_isPlainFrom : tree.IsUncrossed selection root :=
  fun _ _ hway _ => isOnlyWay_of_isPlainFrom hplain hroot hway

/-- From where all is plain, there is a way to every directory to which names lead that the walk
admits, over directories that can be listed. -/
theorem exists_isWay_below (hadmits : selection.Admits root names)
    (hopen : tree.IsOpenBefore root names)
    (hdirectory : tree.isDirectory (root.below names) = true) :
    ∃ above, tree.IsWay selection root ((root.below names, place ++ names) :: above) ∧
      ∀ d ∈ above, d.2.length < (place ++ names).length := by
  induction names using List.reverseRecOn with
  | nil =>
    refine ⟨[], ?_, List.forall_mem_nil _⟩
    rw [List.append_nil]
    exact .start hroot
  | append_singleton names name ih =>
    obtain ⟨q, hq⟩ := Option.isSome_iff_exists.mp hdirectory
    obtain ⟨listable, hlocate⟩ := directory?_eq_some_iff.mp hq
    obtain ⟨rfl, hentry⟩ := locate_below (hplain place hroot) hroot hadmits.isName hlocate
    have hfront := exists_directory?_below hroot hadmits.isName hlocate
    obtain ⟨hbefore, hlast⟩ := isOpenBefore_concat.mp hopen
    obtain ⟨above, hway, habove⟩ :=
      ih hadmits.of_append hbefore (Option.isSome_iff_exists.mpr hfront)
    rw [isClosed_eq_closedAt hway.directory?] at hlast
    have hshorter : ∀ d ∈ (root.below names, place ++ names) :: above,
        d.2.length < (place ++ (names ++ [name])).length := by
      have hlength : (place ++ names).length < (place ++ (names ++ [name])).length := by simp
      exact List.forall_mem_cons.mpr ⟨hlength, fun d hd => (habove d hd).trans hlength⟩
    refine ⟨_, hway.step (mem_directoriesIn.mpr
      ⟨name, ?_, ?_, Path.below_concat.symm, ?_, hdirectory⟩) hq ?_, hshorter⟩
    · exact mem_listed.mpr ⟨hlast, .directory listable, by rwa [List.append_assoc]⟩
    · exact hadmits.notSkipped name (List.mem_append_right _ (List.mem_singleton_self name))
    · exact hadmits.notIgnored _ (List.append_ne_nil_of_right_ne_nil _ (List.cons_ne_nil _ _))
        List.prefix_rfl
    · intro hmem
      obtain ⟨d, hd, hplace⟩ := List.mem_map.mp hmem
      exact Nat.lt_irrefl _ (hplace ▸ hshorter d hd)

end

/-! ## Files below a root without links -/

/-- Whether names lead from a path to a file that a walk takes: it skips none of the names and
ignores neither the file nor a directory on the way. -/
structure IsTakenBelow (tree : FileTree) (selection : Selection) (root : Path)
    (names : List Bytes) : Prop where
  isFile : tree.isFile (root.below names) = true
  isName : ∀ name ∈ names, IsName name
  notSkipped : ∀ name ∈ names, Selection.isSkippedName name = false
  notIgnored : ∀ front, front ≠ [] → front <+: names →
    selection.ignores (root.below front) (decide (front ≠ names)) = false
  taken : selection.takes (root.below names) = true

/-- A file that a walk takes stands behind a name in a directory to which the walk goes down. -/
theorem IsTakenBelow.admits {name : Bytes}
    (h : tree.IsTakenBelow selection root (names ++ [name])) : selection.Admits root names where
  isName other hother := h.isName other (List.mem_append_left _ hother)
  notSkipped other hother := h.notSkipped other (List.mem_append_left _ hother)
  notIgnored := by
    intro front hne hfront
    have hignored := h.notIgnored front hne (hfront.trans (List.prefix_append _ _))
    rwa [decide_eq_true (ne_concat_of_isPrefix hfront)] at hignored

/-- A path to a file leads to the place of a file. -/
theorem isFile_iff :
    tree.isFile path = true ↔
      ∃ q content modified, tree.locate path = .ok (q, .file content modified) := by
  rw [isFile]
  split
  · rename_i q content modified hlocate
    exact iff_of_true rfl ⟨q, content, modified, hlocate⟩
  · rename_i hno
    refine iff_of_false Bool.false_ne_true ?_
    rintro ⟨q, content, modified, hlocate⟩
    exact hno q content modified hlocate

/-- A path to a file leads to no directory. -/
theorem isDirectory_of_isFile (h : tree.isFile path = true) : tree.isDirectory path = false := by
  obtain ⟨q, content, modified, hlocate⟩ := isFile_iff.mp h
  rw [isDirectory, directory?, hlocate]
  rfl

section

variable (hplain : tree.IsPlainFrom root) (hroot : tree.directory? root = some place)
include hplain hroot

/-- From where all is plain, a walk takes at the ends of ways only files to which names lead that it
takes, over directories that can be listed. -/
theorem exists_isTakenBelow_of_mem_filesIn (hway : tree.IsWay selection root (v :: above))
    (hpath : path ∈ tree.filesIn selection v.1 v.2) :
    ∃ names, path = root.below names ∧ tree.IsOpenBefore root names ∧
      tree.IsTakenBelow selection root names := by
  have hdirectory := hway.directory?
  obtain ⟨last, content, modified, -, hlocate⟩ :=
    locate_of_mem_filesIn (hway.isPlainFrom hplain v.2 hdirectory) hdirectory hpath
  obtain ⟨names, hadmits, hopen, rfl⟩ := exists_place_of_isWay hplain hroot hway
  obtain ⟨name, hlisted, hskipped, rfl, hignored, -, htaken⟩ := mem_filesIn.mp hpath
  have hname := hasNamesFrom_of_isPlainFrom hplain _ _ hway name hlisted
  have hlast : tree.isClosed (root.below names) = false := by
    rw [isClosed_eq_closedAt hdirectory]
    exact (mem_listed.mp hlisted).1
  rw [← Path.below_concat] at hlocate hignored htaken ⊢
  refine ⟨names ++ [name], rfl, isOpenBefore_concat.mpr ⟨hopen, hlast⟩, ?_, ?_, ?_, ?_, htaken⟩
  · exact isFile_iff.mpr ⟨_, content, modified, hlocate⟩
  · exact List.forall_mem_append.mpr ⟨hadmits.isName, List.forall_mem_singleton.mpr hname⟩
  · exact List.forall_mem_append.mpr ⟨hadmits.notSkipped, List.forall_mem_singleton.mpr hskipped⟩
  · intro front hne hfront
    rcases List.prefix_concat_iff.mp hfront with rfl | hfront
    · simpa using hignored
    · rw [decide_eq_true (ne_concat_of_isPrefix hfront)]
      exact hadmits.notIgnored front hne hfront

/-- From where all is plain, every file to which names lead that the walk takes, over directories
that can be listed, is taken at the end of a way. -/
theorem exists_isWay_of_isTakenBelow (hopen : tree.IsOpenBefore root names)
    (h : tree.IsTakenBelow selection root names) :
    ∃ v above, tree.IsWay selection root (v :: above) ∧
      root.below names ∈ tree.filesIn selection v.1 v.2 := by
  have hfile := isDirectory_of_isFile h.isFile
  rcases List.eq_nil_or_concat names with rfl | ⟨names, name, rfl⟩
  · rw [Path.below_nil, isDirectory, hroot] at hfile
    cases hfile
  · rw [List.concat_eq_append] at h hopen hfile ⊢
    have hname : name ∈ names ++ [name] := List.mem_append_right _ (List.mem_singleton_self name)
    obtain ⟨q, content, modified, hlocate⟩ := isFile_iff.mp h.isFile
    obtain ⟨rfl, hentry⟩ := locate_below (hplain place hroot) hroot h.isName hlocate
    have hfront := exists_directory?_below hroot h.isName hlocate
    obtain ⟨hbefore, hlast⟩ := isOpenBefore_concat.mp hopen
    obtain ⟨above, hway, -⟩ := exists_isWay_below hplain hroot h.admits hbefore
      (Option.isSome_iff_exists.mpr hfront)
    rw [isClosed_eq_closedAt hway.directory?] at hlast
    refine ⟨_, above, hway, mem_filesIn.mpr ⟨name, ?_, h.notSkipped name hname,
      Path.below_concat.symm, ?_, hfile, h.taken⟩⟩
    · exact mem_listed.mpr ⟨hlast, _, by rwa [List.append_assoc]⟩
    · simpa using h.notIgnored _ (List.append_ne_nil_of_right_ne_nil _ (List.cons_ne_nil _ _))
        List.prefix_rfl

end

section

variable (hplain : tree.IsPlainFrom root)
include hplain

/-- From where all is plain, a walk gathers the files to which names lead that it takes, over
directories that can be listed. -/
theorem mem_gathered_iff_of_isPlainFrom :
    path ∈ tree.gathered selection root ↔ tree.isDirectory root = true ∧
      ∃ names, path = root.below names ∧ tree.IsOpenBefore root names ∧
        tree.IsTakenBelow selection root names := by
  constructor
  · intro hpath
    obtain ⟨place, hroot⟩ := exists_directory?_of_mem_gathered hpath
    obtain ⟨v, above, hway, hfile⟩ :=
      (mem_gathered_iff_of_isUncrossed (isUncrossed_of_isPlainFrom hplain hroot)).mp hpath
    exact ⟨Option.isSome_iff_exists.mpr ⟨place, hroot⟩,
      exists_isTakenBelow_of_mem_filesIn hplain hroot hway hfile⟩
  · rintro ⟨hdirectory, names, rfl, hopen, htaken⟩
    obtain ⟨place, hroot⟩ := Option.isSome_iff_exists.mp hdirectory
    exact (mem_gathered_iff_of_isUncrossed (isUncrossed_of_isPlainFrom hplain hroot)).mpr
      (exists_isWay_of_isTakenBelow hplain hroot hopen htaken)

/-- From where all is plain, a walk cannot list the directories that cannot be listed and to which
names lead that it admits, over directories that can be. -/
theorem mem_unlisted_iff_of_isPlainFrom :
    path ∈ tree.unlisted selection root ↔ tree.isDirectory root = true ∧
      ∃ names, path = root.below names ∧ tree.IsOpenBefore root names ∧
        selection.Admits root names ∧ tree.isClosed path = true := by
  rw [mem_unlisted]
  constructor
  · rintro ⟨q, hvisited, hclosed⟩
    obtain ⟨place, hroot⟩ := exists_directory?_of_mem_visits hvisited
    obtain ⟨above, hway, -⟩ := exists_isWay_of_mem_visits hvisited
    rw [← isClosed_eq_closedAt hway.directory?] at hclosed
    obtain ⟨names, hadmits, hopen, hv⟩ := exists_place_of_isWay hplain hroot hway
    exact ⟨Option.isSome_iff_exists.mpr ⟨place, hroot⟩, names, congrArg Prod.fst hv, hopen, hadmits,
      hclosed⟩
  · rintro ⟨hdirectory, names, rfl, hopen, hadmits, hclosed⟩
    obtain ⟨place, hroot⟩ := Option.isSome_iff_exists.mp hdirectory
    obtain ⟨q, hq, -⟩ := (Option.any_eq_true _ _).mp hclosed
    obtain ⟨above, hway, -⟩ := exists_isWay_below hplain hroot hadmits hopen
      (Option.isSome_iff_exists.mpr ⟨q, hq⟩)
    rw [isClosed_eq_closedAt hway.directory?] at hclosed
    exact ⟨_, mem_visits_of_isOnlyWay hway (isOnlyWay_of_isPlainFrom hplain hroot hway)
      List.mem_cons_self, hclosed⟩

/-- From where all is plain, a walk lists all that it comes to, if all directories can be listed. -/
theorem unlisted_eq_nil_of_isPlainFrom
    (hopen : ∀ names, (∀ name ∈ names, IsName name) → tree.isClosed (root.below names) = false) :
    tree.unlisted selection root = [] := by
  refine List.eq_nil_iff_forall_not_mem.mpr fun path hpath => ?_
  obtain ⟨-, names, rfl, -, hadmits, hclosed⟩ := (mem_unlisted_iff_of_isPlainFrom hplain).mp hpath
  rw [hopen names hadmits.isName] at hclosed
  cases hclosed

end

end FileTree

/-- A walk skips hidden names and the names of two directories, all of them texts. -/
theorem Selection.isSkippedName_eq_false_iff {name : Bytes} :
    Selection.isSkippedName name = false ↔ ∀ t : Text, t.utf8 = name →
      t.head? ≠ some '.' ∧ t ≠ "node_modules".toList ∧ t ≠ "target".toList := by
  simp only [isSkippedName, Option.any_eq_false, Bytes.text?_eq_some_iff, Bool.or_eq_false_iff,
    beq_eq_false_iff_ne, ne_eq, and_assoc, @eq_comm _ name]

namespace Workspace

variable {tree : FileTree} {root path : Path} {settings : Settings} {names : List Bytes}
  {fromFile excluded : Path → Bool → Bool} {included : Path → Bool}

/-! ## Sources -/

/-- What a walk over sources leaves out and takes, given what the ignore file and the excluding
patterns leave out and what the including patterns take in, read from the root. -/
def selectionBy (root : Path) (settings : Settings) (fromFile excluded : Path → Bool → Bool)
    (included : Path → Bool) : Selection where
  ignores path isDirectory :=
    (!settings.disableGitignore && fromFile path isDirectory) || excluded path isDirectory
  takes path := (path.stripPrefix? root).any included || isSource settings.styles path

/-- With valid patterns, what a walk over sources leaves out and takes is what the ignore file and
the patterns do. -/
theorem exists_sourceSelection_eq (hpatterns : settings.HasValidPatterns) (tree : FileTree)
    (root : Path) :
    ∃ rules patterns, IgnoreRules.ofLines root settings.excludes = .ok rules ∧
      settings.includes.mapM includePattern = .ok patterns ∧
      sourceSelection tree root settings = .ok (selectionBy root settings
        (ignoreFile tree root).ignores rules.ignores
        fun relative => patterns.any (Glob.fits false · relative.bytes)) := by
  obtain ⟨selection, hselection⟩ := exists_sourceSelection hpatterns tree root
  obtain ⟨rules, hrules, hrest⟩ := bind_eq_ok_iff.mp hselection
  obtain ⟨patterns, hincluded, hrest⟩ := bind_eq_ok_iff.mp hrest
  refine ⟨rules, patterns, hrules, hincluded, hselection.trans (hrest.symm.trans ?_)⟩
  rw [selectionBy]
  cases settings.disableGitignore <;> rfl

/-- Whether names lead from a root to a source: to a file, by names none of which is a text that is
hidden or the name of installed packages or of build output, such that neither the ignore file,
unless it is disabled, nor the excluding patterns leave out the file or a directory between the root
and it, and that the including patterns or its extension take in. -/
structure IsSourceBelow (tree : FileTree) (root : Path) (settings : Settings)
    (fromFile excluded : Path → Bool → Bool) (included : Path → Bool) (names : List Bytes) :
    Prop where
  isFile : tree.isFile (root.below names) = true
  isName : ∀ name ∈ names, IsName name
  notSkipped : ∀ t : Text, t.utf8 ∈ names →
    t.head? ≠ some '.' ∧ t ≠ "node_modules".toList ∧ t ≠ "target".toList
  notFromFile : settings.disableGitignore = false → ∀ front, front ≠ [] → front <+: names →
    fromFile (root.below front) (decide (front ≠ names)) = false
  notExcluded : ∀ front, front ≠ [] → front <+: names →
    excluded (root.below front) (decide (front ≠ names)) = false
  taken : included (Path.ofNames names) = true ∨ isSource settings.styles (root.below names) = true

/-- A walk over sources takes the sources. -/
theorem isTakenBelow_iff_isSourceBelow (hroot : tree.isDirectory root = true) :
    tree.IsTakenBelow (selectionBy root settings fromFile excluded included) root names ↔
      IsSourceBelow tree root settings fromFile excluded included names := by
  obtain ⟨place, hplace⟩ := Option.isSome_iff_exists.mp hroot
  have hblank := (FileTree.directory?_eq_some_iff_follow.mp hplace).1
  have hstrip (hfile : tree.isFile (root.below names) = true)
      (hnames : ∀ name ∈ names, IsName name) :
      (root.below names).stripPrefix? root = some (Path.ofNames names) := by
    refine Path.stripPrefix?_below hblank ?_ hnames
    rintro rfl
    rw [Path.below_nil] at hfile
    rw [FileTree.isDirectory_of_isFile hfile] at hroot
    cases hroot
  constructor
  · intro h
    have htaken := h.taken
    simp only [selectionBy, hstrip h.isFile h.isName, Option.any_some, Bool.or_eq_true] at htaken
    have hignored (front : List Bytes) (hne : front ≠ []) (hfront : front <+: names) :=
      Bool.or_eq_false_iff.mp (h.notIgnored front hne hfront)
    refine ⟨h.isFile, h.isName, fun t hname => ?_, fun hdisabled front hne hfront => ?_,
      fun front hne hfront => (hignored front hne hfront).2, htaken⟩
    · exact Selection.isSkippedName_eq_false_iff.mp (h.notSkipped t.utf8 hname) t rfl
    · simpa [hdisabled] using (hignored front hne hfront).1
  · intro h
    refine ⟨h.isFile, h.isName, fun name hname => ?_, fun front hne hfront => ?_, ?_⟩
    · exact Selection.isSkippedName_eq_false_iff.mpr fun t ht => h.notSkipped t (ht ▸ hname)
    · refine Bool.or_eq_false_iff.mpr ⟨?_, h.notExcluded front hne hfront⟩
      cases hdisabled : settings.disableGitignore with
      | true => rfl
      | false => exact h.notFromFile hdisabled front hne hfront
    · simp only [selectionBy, hstrip h.isFile h.isName, Option.any_some, Bool.or_eq_true]
      exact h.taken

/-- From where all is plain, a walk over sources gathers the sources to which it comes over
directories that can be listed. -/
theorem mem_gathered_iff_isSourceBelow (hplain : tree.IsPlainFrom root) :
    path ∈ tree.gathered (selectionBy root settings fromFile excluded included) root ↔
      tree.isDirectory root = true ∧ ∃ names, path = root.below names ∧
        tree.IsOpenBefore root names ∧
          IsSourceBelow tree root settings fromFile excluded included names := by
  rw [FileTree.mem_gathered_iff_of_isPlainFrom hplain]
  refine and_congr_right fun hroot => exists_congr fun names => and_congr_right fun _ => ?_
  exact and_congr_right fun _ => isTakenBelow_iff_isSourceBelow hroot

/-- What a walk cannot list, it is not permitted to list. -/
theorem mem_map_denied_iff {paths : List Path} {cause : Failure} :
    (path, cause) ∈ (paths.map fun path => (path, Failure.file .denied)) ↔
      cause = .file .denied ∧ path ∈ paths := by
  simp [List.mem_map, and_comm, eq_comm]

/-- A workspace with two files in a directory and one in the directory of build output. -/
def nestedFiles : FileTree where
  entries := [([], .directory), (["w".toList], .directory), (["w".toList, "a".toList], .directory),
    (["w".toList, "target".toList], .directory),
    (["w".toList, "target".toList, "b.rs".toList], .file (.text []) ⟨0, 0⟩),
    (["w".toList, "a".toList, "c.rs".toList], .file (.text []) ⟨0, 0⟩),
    (["w".toList, "a".toList, "b.rs".toList], .file (.text []) ⟨0, 0⟩)]
  working := []
  now := ⟨0, 0⟩
  nodup := by decide

end Workspace

end Marginalia
