import Mathlib.Data.List.Lattice
import Mathlib.Data.List.Pairwise
import Marginalia.Proofs.Workspace.ListingOrder

/-!
# Sources that are one file

A walk comes to a directory once, whatever links lead there, so every path that it gathers stands
for an entry of its own. A file has no such guard: a link to a file is gathered beside the file. Two
sources are one file only when one of them is a link, and where every key is declared in one file
only, a scan fails exactly when the same key is read by two paths to that file.
-/

namespace Marginalia

open Text

namespace FileTree

variable {tree : FileTree} {selection : Selection} {root directory path : Path} {place : Place}

/-- The place of the entry for which a path stands: a link at the end of the path is not followed.
-/
def ownPlace? (tree : FileTree) (path : Path) : Option Place :=
  (namesOf path.bytes).getLast?.bind fun name =>
    (tree.follow linkLimit (tree.startOf path) (namesOf path.bytes).dropLast).toOption.map
      fun place => place ++ [name]

/-- Whether a path stands for a link. -/
def isLink (tree : FileTree) (path : Path) : Bool :=
  match (tree.ownPlace? path).bind tree.entryAt? with
  | some (.link _) => true
  | _ => false

/-- Whether two paths lead to one file. -/
def LeadToOneFile (tree : FileTree) (p q : Path) : Prop :=
  ∃ place content modified, tree.locate p = .ok (place, .file content modified) ∧
    tree.locate q = .ok (place, .file content modified)

/-- Paths to one file lead to it in either order. -/
theorem LeadToOneFile.symm {p q : Path} (h : tree.LeadToOneFile p q) : tree.LeadToOneFile q p := by
  obtain ⟨place, content, modified, hp, hq⟩ := h
  exact ⟨place, content, modified, hq, hp⟩

/-- A path to a directory, with a name behind it, stands for the entry with that name. -/
theorem ownPlace?_join (hdirectory : tree.directory? directory = some place) {name : Bytes}
    (hname : IsName name) : tree.ownPlace? (directory.join ⟨name⟩) = some (place ++ [name]) := by
  obtain ⟨front, -, hnames, hfront⟩ := exists_follow_namesOf_join hdirectory hname.2.2.2
  rw [ownPlace?, hnames, List.getLast?_concat, List.dropLast_concat, hfront]
  rfl

/-- A path that stands for no link leads to the entry for which it stands. -/
theorem place?_eq_ownPlace? (hdirectory : tree.directory? directory = some place) {name : Bytes}
    (hmem : name ∈ tree.listed place) (hname : IsName name)
    (hlink : tree.isLink (directory.join ⟨name⟩) = false) :
    tree.place? (directory.join ⟨name⟩) = tree.ownPlace? (directory.join ⟨name⟩) := by
  have hown := ownPlace?_join hdirectory hname
  obtain ⟨-, entry, hentry⟩ := mem_listed.mp hmem
  rw [isLink, hown, Option.bind_some, hentry] at hlink
  have hlocate : tree.locate (directory.join ⟨name⟩) = .ok (place ++ [name], entry) := by
    refine (locate_join_eq_ok_iff hdirectory hname fun target htarget => ?_).mpr ⟨rfl, hentry⟩
    rw [Option.some.inj (hentry.symm.trans htarget)] at hlink
    cases hlink
  rw [place?_of_locate hlocate, hown]

section

variable (hnames : tree.HasNames)
include hnames

/-- A walk gathers no two paths that stand for one entry. -/
theorem pairwise_ownPlace?_gathered :
    (tree.gathered selection root).Pairwise fun p q => tree.ownPlace? p ≠ tree.ownPlace? q :=
  pairwise_gathered_of fun _ hv _ hname =>
    ownPlace?_join (directory?_of_mem_visits hv).1 (hnames.isName hname)

/-- What a walk gathers leads to the entry for which it stands, unless it is a link. -/
theorem place?_eq_ownPlace?_of_mem_gathered (hpath : path ∈ tree.gathered selection root)
    (hlink : tree.isLink path = false) : tree.place? path = tree.ownPlace? path := by
  obtain ⟨v, hv, hfile⟩ := mem_gathered.mp hpath
  obtain ⟨name, hname, -, rfl, -⟩ := mem_filesIn.mp hfile
  exact place?_eq_ownPlace? (directory?_of_mem_visits hv).1 hname (hnames.isName hname) hlink

/-- Of two paths that a walk gathers and that lead to one file, one is a link. -/
theorem pairwise_isLink_gathered :
    (tree.gathered selection root).Pairwise fun p q =>
      tree.LeadToOneFile p q → tree.isLink p = true ∨ tree.isLink q = true := by
  refine (pairwise_ownPlace?_gathered hnames).imp_of_mem fun {p q} hp hq hne hone => ?_
  obtain ⟨place, content, modified, hplace, hplace'⟩ := hone
  by_contra hno
  obtain ⟨hnop, hnoq⟩ := not_or.mp hno
  rw [Bool.not_eq_true] at hnop hnoq
  apply hne
  rw [← place?_eq_ownPlace?_of_mem_gathered hnames hp hnop,
    ← place?_eq_ownPlace?_of_mem_gathered hnames hq hnoq, place?_of_locate hplace,
    place?_of_locate hplace']

end

end FileTree

namespace Workspace

variable {tree : FileTree} {root : Path} {settings : Settings} {files : List Path}
  {found : FileTree.Collected}

/-- The keys that the file at a path declares, in their order; those of a file that cannot be read
are none. -/
def declaredKeys (tree : FileTree) (root : Path) (settings : Settings) (path : Path) : List Text :=
  (outcome root path (scanFile tree root settings.maxFileSize settings.reading path)).1.map Note.key

/-- The keys of a file that holds a text are those of the notes of that text. -/
theorem declaredKeys_of_notes {path : Path} {t : Text} {modified : Instant} {notes : List Note}
    (hfile : tree.fileAt path = .ok (.text t, modified))
    (hsize : byteLength t ≤ settings.maxFileSize)
    (hnotes : settings.reading.notes root path modified.written (normalizeBreaks t) = .ok notes) :
    declaredKeys tree root settings path = notes.map Note.key := by
  have hread : scanFile tree root settings.maxFileSize settings.reading path = .ok notes := by
    rw [scanFile, hfile]
    change (if settings.maxFileSize < byteLength t then _ else _) = _
    rw [if_neg (Nat.not_lt.mpr hsize)]
    exact hnotes
  rw [declaredKeys, hread, outcome]

/-- Whether the files at some paths declare every key once: none of them declares a key twice, and
those that declare one key are one file. -/
def DeclareOnce (tree : FileTree) (root : Path) (settings : Settings) (files : List Path) : Prop :=
  ∀ p ∈ files, (declaredKeys tree root settings p).Nodup ∧
    ∀ q ∈ files, ∀ key ∈ declaredKeys tree root settings p,
      key ∈ declaredKeys tree root settings q → tree.LeadToOneFile p q

/-- Paths to one file declare every key once, unless one of them reads a key twice. -/
theorem declareOnce_of_locate {content : Content} {modified : Instant} {place : Place}
    (hlocate : ∀ p ∈ files, tree.locate p = .ok (place, .file content modified))
    (hnodup : ∀ p ∈ files, (declaredKeys tree root settings p).Nodup) :
    DeclareOnce tree root settings files :=
  fun p hp => ⟨hnodup p hp, fun q hq _ _ _ =>
    ⟨place, content, modified, hlocate p hp, hlocate q hq⟩⟩

/-- A scan succeeds exactly when the keys of its sources are different, within each and between any
two of them. -/
theorem exists_scan_eq_ok_iff (h : sources tree root settings = .ok found) :
    (∃ result, scan tree root settings = .ok result) ↔
      (∀ p ∈ found.files, (declaredKeys tree root settings p).Nodup) ∧
        found.files.Pairwise fun p q =>
          (declaredKeys tree root settings p).Disjoint (declaredKeys tree root settings q) := by
  have hkeys : ((found.files.map fun path =>
      outcome root path (scanFile tree root settings.maxFileSize settings.reading path)).flatMap
        Prod.fst).map Note.key = found.files.flatMap (declaredKeys tree root settings) := by
    rw [List.flatMap_map, List.map_flatMap]
    rfl
  rw [← List.nodup_flatMap, ← hkeys, scan_eq h]
  constructor
  · rintro ⟨result, hresult⟩
    obtain ⟨document, hdocument, -⟩ := map_eq_ok_iff.mp hresult
    exact (Document.ofNotes_eq_ok_iff.mp hdocument).1
  · intro hnodup
    exact ⟨_, map_eq_ok_iff.mpr ⟨_, Document.ofNotes_eq_ok_iff.mpr ⟨hnodup, rfl⟩, rfl⟩⟩

/-- A scan of sources fails for a key that is declared twice exactly when it does not succeed. -/
theorem exists_duplicateKey_iff (h : sources tree root settings = .ok found) :
    (∃ key first second, scan tree root settings = .error (.duplicateKey key first second)) ↔
      ¬∃ result, scan tree root settings = .ok result := by
  constructor
  · rintro ⟨key, first, second, hfailure⟩ ⟨result, hresult⟩
    rw [hfailure] at hresult
    cases hresult
  · intro hno
    cases hscan : scan tree root settings with
    | ok result => exact absurd ⟨result, hscan⟩ hno
    | error failure =>
      obtain ⟨key, first, second, rfl⟩ := exists_duplicateKey_of_scan h hscan
      exact ⟨key, first, second, rfl⟩

/-- Where every key is declared once, a scan fails exactly when a key is read by two paths to one
file. -/
theorem exists_duplicateKey_iff_of_declareOnce (h : sources tree root settings = .ok found)
    (hfiles : found.files.Nodup) (honce : DeclareOnce tree root settings found.files) :
    (∃ key first second, scan tree root settings = .error (.duplicateKey key first second)) ↔
      ∃ p ∈ found.files, ∃ q ∈ found.files, p ≠ q ∧ tree.LeadToOneFile p q ∧
        ∃ key ∈ declaredKeys tree root settings p, key ∈ declaredKeys tree root settings q := by
  have : Std.Symm fun p q =>
      (declaredKeys tree root settings p).Disjoint (declaredKeys tree root settings q) :=
    ⟨fun _ _ => List.Disjoint.symm⟩
  rw [exists_duplicateKey_iff h, exists_scan_eq_ok_iff h,
    and_iff_right fun p hp => (honce p hp).1]
  constructor
  · intro hno
    by_contra hnone
    refine hno (hfiles.pairwise_of_forall_ne fun p hp q hq hne key hkey hkey' => hnone ?_)
    exact ⟨p, hp, q, hq, hne, (honce p hp).2 q hq key hkey hkey', key, hkey, hkey'⟩
  · rintro ⟨p, hp, q, hq, hne, -, key, hkey, hkey'⟩ hdisjoint
    exact hdisjoint.forall hp hq hne hkey hkey'

/-- No two sources stand for one entry, and of two that are one file one is a link. So where every
key is declared once, a scan fails exactly when a key is read by two paths to one file, and never
when no source is a link. -/
theorem sources_meet_over_links_only (hnames : tree.HasNames)
    (h : sources tree root settings = .ok found) :
    found.files.Pairwise (fun p q => tree.ownPlace? p ≠ tree.ownPlace? q) ∧
      found.files.Pairwise (fun p q =>
        tree.LeadToOneFile p q → tree.isLink p = true ∨ tree.isLink q = true) ∧
      (DeclareOnce tree root settings found.files →
        ((∃ key first second,
            scan tree root settings = .error (.duplicateKey key first second)) ↔
          ∃ p ∈ found.files, ∃ q ∈ found.files, p ≠ q ∧ tree.LeadToOneFile p q ∧
            ∃ key ∈ declaredKeys tree root settings p,
              key ∈ declaredKeys tree root settings q) ∧
        ((∀ path ∈ found.files, tree.isLink path = false) →
          ∃ result, scan tree root settings = .ok result)) := by
  obtain ⟨selection, -, hfound⟩ := bind_eq_ok_iff.mp h
  obtain ⟨-, hfiles, -⟩ := FileTree.collect_eq_ok_iff.mp hfound
  have hown : found.files.Pairwise fun p q => tree.ownPlace? p ≠ tree.ownPlace? q :=
    hfiles ▸ FileTree.pairwise_ownPlace?_gathered hnames
  have hnodup : found.files.Nodup :=
    hown.imp fun {p q} hne heq => hne (congrArg tree.ownPlace? heq)
  have hlinks : found.files.Pairwise fun p q =>
      tree.LeadToOneFile p q → tree.isLink p = true ∨ tree.isLink q = true :=
    hfiles ▸ FileTree.pairwise_isLink_gathered hnames
  refine ⟨hown, hlinks, fun honce => ?_⟩
  have hfails := exists_duplicateKey_iff_of_declareOnce h hnodup honce
  refine ⟨hfails, fun hnone => ?_⟩
  by_contra hno
  obtain ⟨p, hp, q, hq, hne, hone, -⟩ := hfails.mp ((exists_duplicateKey_iff h).mpr hno)
  have : Std.Symm fun p q =>
      tree.LeadToOneFile p q → tree.isLink p = true ∨ tree.isLink q = true :=
    ⟨fun p q hpq hqp => (hpq hqp.symm).symm⟩
  rcases hlinks.forall hp hq hne hone with hlink | hlink
  · rw [hnone p hp] at hlink
    cases hlink
  · rw [hnone q hq] at hlink
    cases hlink

/-- A text in which two styles read two different lines. -/
def twoMarks : Text :=
  "/// @doc k\n# @doc j".toList

/-- A file with that text, and a link to it with a given name. -/
def linkedEntries (name : Bytes) : List (Place × Entry) :=
  [([], .directory), (["w".toList], .directory),
    (["w".toList, "a.rs".toList], .file (.text twoMarks) ⟨0, 0⟩),
    (["w".toList, name], .link "a.rs".toList)]

/-- The key that is read in that text is the one of the line that the style of a path reads. -/
theorem declaredKeys_twoMarks {path : Path} {place : Place} {extension key : Text} {line : Nat}
    (hlocate : tree.locate path = .ok (place, .file (.text twoMarks) ⟨0, 0⟩))
    (hextension : path.extensionText? = some extension)
    (hnotes : ∀ file, Note.ofText "doc".toList (({} : Settings).styles.styleFor extension none) file
      twoMarks = .ok [⟨key, ⟨file, line, key⟩, .empty⟩]) :
    declaredKeys tree root {} path = [key] := by
  have hsize : byteLength twoMarks ≤ ({} : Settings).maxFileSize := by decide
  have hread : ({} : Settings).reading.notes root path (Instant.written ⟨0, 0⟩)
      (normalizeBreaks twoMarks) =
        .ok [⟨key, ⟨.ofPath root path (Instant.written ⟨0, 0⟩), line, key⟩, .empty⟩] := by
    rw [Reading.notes, hextension]
    exact hnotes _
  exact declaredKeys_of_notes (FileTree.fileAt_eq_ok_iff.mpr ⟨place, hlocate⟩) hsize hread

/-- A workspace with a link whose style is another one. -/
def linkOfOtherStyle : FileTree where
  entries := linkedEntries "b.py".toList
  working := []
  now := ⟨0, 0⟩
  nodup := by decide

/-- The file and the link are one file, but the other line is read over the link. -/
theorem sources_meet_over_links_only_otherStyle :
    let root : Path := ⟨"/w".toList⟩
    let files : List Path := [⟨"/w/a.rs".toList⟩, ⟨"/w/b.py".toList⟩]
    sources linkOfOtherStyle root {} = .ok ⟨files, []⟩ ∧
      linkOfOtherStyle.LeadToOneFile ⟨"/w/a.rs".toList⟩ ⟨"/w/b.py".toList⟩ ∧
      DeclareOnce linkOfOtherStyle root {} files ∧
      ¬∃ key first second,
        scan linkOfOtherStyle root {} = .error (.duplicateKey key first second) := by
  intro root files
  have hnames : linkOfOtherStyle.HasNames := by decide
  have hroot : linkOfOtherStyle.directory? root = some (["w".toList] : Place) := by decide +kernel
  have hsources : sources linkOfOtherStyle root {} = .ok ⟨files, []⟩ :=
    sources_of_filesIn_eq rfl hroot (by decide) (by decide +kernel) (by decide +kernel)
      (List.mergeSort_of_pairwise (by decide +kernel))
  have hfile : linkOfOtherStyle.locate ⟨"/w/a.rs".toList⟩ =
      .ok (["w".toList, "a.rs".toList], .file (.text twoMarks) ⟨0, 0⟩) := by decide +kernel
  have hlink : linkOfOtherStyle.locate ⟨"/w/b.py".toList⟩ =
      .ok (["w".toList, "a.rs".toList], .file (.text twoMarks) ⟨0, 0⟩) := by decide +kernel
  have hrust : (⟨"/w/a.rs".toList⟩ : Path).extensionText? = some "rs".toList := by decide +kernel
  have hpython : (⟨"/w/b.py".toList⟩ : Path).extensionText? = some "py".toList := by decide +kernel
  have hkeys : declaredKeys linkOfOtherStyle root {} ⟨"/w/a.rs".toList⟩ = [['k']] :=
    declaredKeys_twoMarks hfile hrust fun _ => rfl
  have hkeys' : declaredKeys linkOfOtherStyle root {} ⟨"/w/b.py".toList⟩ = [['j']] :=
    declaredKeys_twoMarks hlink hpython fun _ => rfl
  have honce : DeclareOnce linkOfOtherStyle root {} files := by
    apply declareOnce_of_locate
    · rw [List.forall_mem_cons, List.forall_mem_singleton]
      exact ⟨hfile, hlink⟩
    · rw [List.forall_mem_cons, List.forall_mem_singleton, hkeys, hkeys']
      decide
  have hdisjoint : ∀ key ∈ [['k']], key ∉ [['j']] := by decide
  refine ⟨hsources, ⟨_, _, _, hfile, hlink⟩, honce, fun hfailure => ?_⟩
  obtain ⟨p, hp, q, hq, hne, -, key, hkey, hkey'⟩ :=
    ((sources_meet_over_links_only hnames hsources).2.2 honce).1.mp hfailure
  rcases List.mem_pair.mp hp with rfl | rfl <;> rcases List.mem_pair.mp hq with rfl | rfl
  · exact hne rfl
  · exact hdisjoint key (hkeys ▸ hkey) (hkeys' ▸ hkey')
  · exact hdisjoint key (hkeys ▸ hkey') (hkeys' ▸ hkey)
  · exact hne rfl

/-- A workspace with a link whose style is that of the file. -/
def linkOfSameStyle : FileTree where
  entries := linkedEntries "b.rs".toList
  working := []
  now := ⟨0, 0⟩
  nodup := by decide

/-- Over a link of the same style the same line is read again, so the scan fails though the only key
is declared once. -/
theorem linked_source_repeats_key :
    let root : Path := ⟨"/w".toList⟩
    let files : List Path := [⟨"/w/a.rs".toList⟩, ⟨"/w/b.rs".toList⟩]
    linkOfSameStyle.HasNames ∧ sources linkOfSameStyle root {} = .ok ⟨files, []⟩ ∧
      linkOfSameStyle.LeadToOneFile ⟨"/w/a.rs".toList⟩ ⟨"/w/b.rs".toList⟩ ∧
      DeclareOnce linkOfSameStyle root {} files ∧
      ∃ key first second, scan linkOfSameStyle root {} = .error (.duplicateKey key first second) := by
  intro root files
  have hnames : linkOfSameStyle.HasNames := by decide
  have hroot : linkOfSameStyle.directory? root = some (["w".toList] : Place) := by decide +kernel
  have hsources : sources linkOfSameStyle root {} = .ok ⟨files, []⟩ :=
    sources_of_filesIn_eq rfl hroot (by decide) (by decide +kernel) (by decide +kernel)
      (List.mergeSort_of_pairwise (by decide +kernel))
  have hlocate : ∀ p ∈ files, linkOfSameStyle.locate p =
      .ok (["w".toList, "a.rs".toList], .file (.text twoMarks) ⟨0, 0⟩) := by
    rw [List.forall_mem_cons, List.forall_mem_singleton]
    constructor <;> decide +kernel
  have hextension : ∀ p ∈ files, p.extensionText? = some "rs".toList := by
    rw [List.forall_mem_cons, List.forall_mem_singleton]
    constructor <;> decide +kernel
  have hkeys (p : Path) (hp : p ∈ files) : declaredKeys linkOfSameStyle root {} p = [['k']] :=
    declaredKeys_twoMarks (hlocate p hp) (hextension p hp) fun _ => rfl
  have honce : DeclareOnce linkOfSameStyle root {} files :=
    declareOnce_of_locate hlocate fun p hp => hkeys p hp ▸ List.nodup_singleton _
  obtain ⟨hp, hq⟩ : (⟨"/w/a.rs".toList⟩ : Path) ∈ files ∧ (⟨"/w/b.rs".toList⟩ : Path) ∈ files :=
    ⟨List.mem_cons_self, List.mem_cons_of_mem _ (List.mem_singleton_self _)⟩
  have hone : linkOfSameStyle.LeadToOneFile ⟨"/w/a.rs".toList⟩ ⟨"/w/b.rs".toList⟩ :=
    ⟨_, _, _, hlocate _ hp, hlocate _ hq⟩
  refine ⟨hnames, hsources, hone, honce, ?_⟩
  rw [exists_duplicateKey_iff_of_declareOnce hsources (by decide) honce]
  refine ⟨_, hp, _, hq, by decide, hone, ['k'], ?_, ?_⟩
  · rw [hkeys _ hp]
    exact List.mem_singleton_self _
  · rw [hkeys _ hq]
    exact List.mem_singleton_self _

end Workspace

end Marginalia
