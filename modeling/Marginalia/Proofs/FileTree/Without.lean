import Mathlib.Data.List.Nodup
import Marginalia.Proofs.FileTree.Follow

/-!
# A tree without some of its files

Only directories and links stand on the way to a place. So when files are taken away, every path
leads where it led before, unless that was to one of those files.
-/

namespace Marginalia.FileTree

variable {tree : FileTree} {place : Place} {entry : Entry} {name : Bytes}

/-- What stands at a place is the entry with that place. -/
theorem entryAt?_eq_some_iff :
    tree.entryAt? place = some entry ↔ (place, entry) ∈ tree.entries := by
  rw [entryAt?, List.lookup_eq_some_iff]
  constructor
  · rintro ⟨before, behind, hentries, -⟩
    rw [hentries]
    exact List.mem_append_right before List.mem_cons_self
  · intro hmem
    obtain ⟨before, behind, hentries⟩ := List.append_of_mem hmem
    refine ⟨before, behind, hentries, fun e he => bne_iff_ne.mpr ?_⟩
    have hnodup := tree.nodup
    rw [hentries, List.map_append, List.map_cons, List.nodup_append] at hnodup
    exact (hnodup.2.2 e.1 (List.mem_map_of_mem he) place List.mem_cons_self).symm

/-- In a tree whose directories can all be listed, none stands at a place that cannot. -/
theorem closedAt_eq_false_of_forall_mem (h : ∀ e ∈ tree.entries, e.2 ≠ .directory false)
    (place : Place) : tree.closedAt place = false :=
  Bool.eq_false_iff.mpr fun hclosed => h _ (entryAt?_eq_some_iff.mp (beq_iff_eq.mp hclosed)) rfl

/-- A place leads from a directory to a name that is the last on the way to it. -/
theorem getLast?_of_dropLast_eq_some_iff {p : Place} :
    (if p.dropLast = place then p.getLast? else none) = some name ↔ p = place ++ [name] := by
  rw [Option.ite_none_right_eq_some]
  constructor
  · rintro ⟨hplace, hname⟩
    rw [← hplace, List.dropLast_append_getLast? name hname]
  · rintro rfl
    exact ⟨List.dropLast_concat, List.getLast?_concat⟩

/-- A directory lists the names that lead to an entry from it. -/
theorem mem_names :
    name ∈ tree.names place ↔ ∃ entry, tree.entryAt? (place ++ [name]) = some entry := by
  simp only [names, List.mem_filterMap, getLast?_of_dropLast_eq_some_iff, entryAt?_eq_some_iff]
  constructor
  · rintro ⟨e, he, hplace⟩
    exact ⟨e.2, hplace ▸ he⟩
  · rintro ⟨entry, hentry⟩
    exact ⟨_, hentry, rfl⟩

/-- A run finds the names that a directory lists, if it can be listed. -/
theorem mem_listed_iff_names :
    name ∈ tree.listed place ↔ tree.closedAt place = false ∧ name ∈ tree.names place := by
  rw [listed]
  split <;> simp_all

/-- A run finds the names that lead to an entry from a directory that can be listed. -/
theorem mem_listed :
    name ∈ tree.listed place ↔
      tree.closedAt place = false ∧ ∃ entry, tree.entryAt? (place ++ [name]) = some entry := by
  rw [mem_listed_iff_names, mem_names]

/-- A directory lists no name twice. -/
theorem nodup_names (tree : FileTree) (place : Place) : (tree.names place).Nodup := by
  have hnames : tree.names place = (tree.entries.map Prod.fst).filterMap
      fun p => if p.dropLast = place then p.getLast? else none := by
    rw [List.filterMap_map]
    rfl
  rw [hnames]
  apply tree.nodup.filterMap
  intro p q name hp hq
  rw [getLast?_of_dropLast_eq_some_iff.mp hp, getLast?_of_dropLast_eq_some_iff.mp hq]

/-- A run finds no name twice in a directory. -/
theorem nodup_listed (tree : FileTree) (place : Place) : (tree.listed place).Nodup := by
  rw [listed]
  split
  · exact List.nodup_nil
  · exact nodup_names tree place

/-- The tree without what stands at some places. -/
def without (tree : FileTree) (places : List Place) : FileTree :=
  { tree with
    entries := tree.entries.filter fun e => e.1 ∉ places
    nodup := tree.nodup.sublist (List.filter_sublist.map Prod.fst) }

/-- Whether files stand at some places. -/
def AreFiles (tree : FileTree) (places : List Place) : Prop :=
  ∀ place ∈ places, ∃ content modified, tree.entryAt? place = some (.file content modified)

/-- The other places are as before. -/
theorem entryAt?_without_eq_some_iff {places : List Place} :
    (tree.without places).entryAt? place = some entry ↔
      tree.entryAt? place = some entry ∧ place ∉ places := by
  rw [entryAt?_eq_some_iff, entryAt?_eq_some_iff, without, List.mem_filter, decide_eq_true_eq]

/-- Where only the entries at some places stay, a directory lists the names that lead there. -/
theorem filterMap_filter_entries (tree : FileTree) (keeps : Place → Bool) (place : Place) :
    (tree.entries.filter fun e => keeps e.1).filterMap
        (fun e => if e.1.dropLast = place then e.1.getLast? else none) =
      (tree.names place).filter fun name => keeps (place ++ [name]) := by
  rw [names, List.filterMap_filter, List.filter_filterMap]
  apply List.filterMap_congr
  intro e _
  apply Option.ext
  intro name
  rw [Option.ite_none_right_eq_some, Option.filter_eq_some_iff,
    getLast?_of_dropLast_eq_some_iff]
  constructor
  · rintro ⟨hkept, hplace⟩
    exact ⟨hplace, hplace ▸ hkept⟩
  · rintro ⟨hplace, hkept⟩
    exact ⟨hplace ▸ hkept, hplace⟩

/-- A directory lists the names that do not lead to one of the places. -/
theorem names_without (places : List Place) (place : Place) :
    (tree.without places).names place =
      (tree.names place).filter fun name => place ++ [name] ∉ places :=
  tree.filterMap_filter_entries (fun p => p ∉ places) place

section

variable {places : List Place} (hfiles : tree.AreFiles places)
include hfiles

/-- Nothing but files is taken away with files. -/
theorem entryAt?_without_iff_of_ne (hentry : ∀ content modified, entry ≠ .file content modified) :
    (tree.without places).entryAt? place = some entry ↔ tree.entryAt? place = some entry := by
  rw [entryAt?_without_eq_some_iff, and_iff_left_iff_imp]
  intro hstands hplace
  obtain ⟨content, modified, hfile⟩ := hfiles place hplace
  exact hentry content modified (Option.some.inj (hstands.symm.trans hfile))

/-- No directory is taken away with files. -/
theorem directoryAt_without (place : Place) :
    (tree.without places).directoryAt place = tree.directoryAt place := by
  rw [Bool.eq_iff_iff, directoryAt_eq_true_iff, directoryAt_eq_true_iff]
  exact exists_congr fun listable => entryAt?_without_iff_of_ne hfiles (by simp)

/-- The directories that cannot be listed are as before. -/
theorem closedAt_without (place : Place) :
    (tree.without places).closedAt place = tree.closedAt place := by
  rw [Bool.eq_iff_iff, closedAt, closedAt, beq_iff_eq, beq_iff_eq]
  exact entryAt?_without_iff_of_ne hfiles (by simp)

/-- A run finds in a directory the names that do not lead to one of the files. -/
theorem listed_without (place : Place) :
    (tree.without places).listed place =
      (tree.listed place).filter fun name => place ++ [name] ∉ places := by
  rw [listed, listed, closedAt_without hfiles, names_without]
  split <;> rfl

/-- No link is taken away with files. -/
theorem entryAt?_without_eq_link_iff {target : Bytes} :
    (tree.without places).entryAt? place = some (.link target) ↔
      tree.entryAt? place = some (.link target) :=
  entryAt?_without_iff_of_ne hfiles (by simp)

/-- Without files, names lead where they led before. -/
theorem follow_without {budget : Nat} {here : Place} {names : List Bytes} :
    (tree.without places).follow budget here names = .ok place ↔
      tree.follow budget here names = .ok place := by
  induction budget, here, names using follow_induction tree with
  | done budget here => rw [follow_nil, follow_nil]
  | outside budget here name rest hhere =>
    rw [follow_of_not_directoryAt hhere,
      follow_of_not_directoryAt ((directoryAt_without hfiles here).trans hhere)]
    simp
  | stays budget here name rest hhere hname ih =>
    rwa [follow_here hhere hname,
      follow_here ((directoryAt_without hfiles here).trans hhere) hname]
  | above budget here rest hhere ih =>
    rwa [follow_above hhere, follow_above ((directoryAt_without hfiles here).trans hhere)]
  | noLink here name rest target hhere hname hdots htarget =>
    rw [follow_link_zero hhere hname hdots htarget,
      follow_link_zero ((directoryAt_without hfiles here).trans hhere) hname hdots
        ((entryAt?_without_eq_link_iff hfiles).mpr htarget)]
  | link left here name rest target hhere hname hdots htarget ih =>
    rwa [follow_link_succ hhere hname hdots htarget,
      follow_link_succ ((directoryAt_without hfiles here).trans hhere) hname hdots
        ((entryAt?_without_eq_link_iff hfiles).mpr htarget)]
  | entry budget here name rest hhere hname hdots hlink ih =>
    rwa [follow_entry hhere hname hdots hlink,
      follow_entry ((directoryAt_without hfiles here).trans hhere) hname hdots
        fun target htarget => hlink target ((entryAt?_without_eq_link_iff hfiles).mp htarget)]

/-- Without files, a path leads where it led before, unless that was to one of them. -/
theorem locate_without {path : Path} :
    (tree.without places).locate path = .ok (place, entry) ↔
      tree.locate path = .ok (place, entry) ∧ place ∉ places := by
  rw [locate_eq_ok_iff, locate_eq_ok_iff, and_assoc, and_assoc]
  exact and_congr_right fun _ => and_congr (follow_without hfiles) entryAt?_without_eq_some_iff

/-- Without files, a path leads to the directory to which it led before. -/
theorem directory?_without (path : Path) :
    (tree.without places).directory? path = tree.directory? path := by
  apply Option.ext
  intro place
  rw [directory?_eq_some_iff_follow, directory?_eq_some_iff_follow, directoryAt_without hfiles]
  exact and_congr_right fun _ => and_congr_left fun _ => follow_without hfiles

end

end Marginalia.FileTree
