import Marginalia.Proofs.Document
import Marginalia.Proofs.Workspace.Walk
import Marginalia.Workspace.Scan

/-!
# Broken files in a scan

A file that cannot be read adds nothing to a scan but its diagnostic. So a scan of a workspace ends
like the scan of the same workspace without its broken files, in the same document or the same
repeated key, and reports each of those files behind the directories that it cannot list.
-/

namespace Marginalia

universe u v

variable {α : Type u} {β : Type v}

/-- Members that give nothing can be left out. -/
theorem flatMap_filter_eq {f : α → List β} (p : α → Bool) {l : List α}
    (h : ∀ a ∈ l, p a = false → f a = []) : (l.filter p).flatMap f = l.flatMap f := by
  induction l with
  | nil => rfl
  | cons a l ih =>
    obtain ⟨ha, hl⟩ := List.forall_mem_cons.mp h
    cases hkept : p a with
    | true => rw [List.filter_cons_of_pos hkept, List.flatMap_cons, List.flatMap_cons, ih hl]
    | false =>
      rw [List.filter_cons_of_neg (by simpa using hkept), List.flatMap_cons, ha hkept, ih hl,
        List.nil_append]

/-- Members that give one value each give them in their order. -/
theorem forall₂_flatMap {f : α → List β} {R : α → β → Prop} {l : List α}
    (h : ∀ a ∈ l, ∃ b, f a = [b] ∧ R a b) : List.Forall₂ R l (l.flatMap f) := by
  induction l with
  | nil => exact .nil
  | cons a l ih =>
    obtain ⟨⟨b, hb, hR⟩, hl⟩ := List.forall_mem_cons.mp h
    rw [List.flatMap_cons, hb]
    exact .cons hR (ih hl)

/-- Whether every pattern of some settings can be read. -/
structure Settings.HasValidPatterns (settings : Settings) : Prop where
  excludes : ∀ line ∈ settings.excludes, ∃ rule, IgnoreRule.parse line = .ok rule
  includes : ∀ pattern ∈ settings.includes, ∃ tokens, Glob.parse? false pattern = some tokens

/-- A diagnostic has a line exactly when its cause is a tag without a key, and then that of the
tag. -/
theorem Diagnostic.line?_eq_some_iff (d : Diagnostic) {line : Nat} :
    d.line? = some line ↔ ∃ tag file, d.cause = .missingKey tag file line := by
  rw [Diagnostic.line?]
  cases d.cause <;> simp

namespace Workspace

variable {tree : FileTree} {root path : Path} {settings : Settings} {found : FileTree.Collected}
  {files : List Path} {place : Place}

/-- A path that leads to none of some files is read without them as it is with them. -/
theorem scanFile_without {entry : Entry} {places : List Place} (hfiles : tree.AreFiles places)
    {size : Nat} {reading : Reading} (hlocate : tree.locate path = .ok (place, entry))
    (havoids : tree.avoids places path = true) :
    scanFile (tree.without places) root size reading path =
      scanFile tree root size reading path := by
  rw [FileTree.avoids_eq_true_iff (FileTree.place?_of_locate hlocate)] at havoids
  have hsame := (FileTree.locate_without hfiles).mpr ⟨hlocate, havoids⟩
  rw [scanFile, scanFile, FileTree.fileAt, FileTree.fileAt, hsame, hlocate]

section

variable {selection : Selection} {places : List Place} (hplain : tree.IsPlainFrom root)
  (hplaces : ∀ p ∈ places, ∃ path ∈ tree.gathered selection root, tree.place? path = some p)
include hplain hplaces

/-- The ignore file is none of the files that a walk gathers, so it stays without those. -/
theorem ignoreFile_without : ignoreFile (tree.without places) root = ignoreFile tree root := by
  have hkept {q : Place} {entry : Entry}
      (hlocate : tree.locate (root.join ⟨".gitignore".toList⟩) = .ok (q, entry)) :
      q ∉ places := by
    intro hq
    obtain ⟨path, hpath, hplace⟩ := hplaces q hq
    obtain ⟨top, hroot⟩ := FileTree.exists_directory?_of_mem_gathered hpath
    obtain ⟨p, name, content, modified, hskipped, hfound⟩ :=
      FileTree.locate_of_mem_gathered hplain hpath
    obtain rfl := Option.some.inj ((FileTree.place?_of_locate hfound).symm.trans hplace)
    rw [FileTree.locate_join_eq_ok_iff hroot (by decide)
      fun target htarget => (hplain top hroot [_] _ htarget).1 target rfl] at hlocate
    obtain rfl := List.singleton_inj.mp (List.append_inj' hlocate.1 rfl).2
    exact absurd hskipped (by decide)
  have hsame (file : Content × Instant) :
      (tree.without places).fileAt (root.join ⟨".gitignore".toList⟩) = .ok file ↔
        tree.fileAt (root.join ⟨".gitignore".toList⟩) = .ok file := by
    rw [FileTree.fileAt_eq_ok_iff, FileTree.fileAt_eq_ok_iff]
    simp only [FileTree.locate_without (FileTree.areFiles_of_gathered hplain hplaces)]
    exact exists_congr fun q => and_iff_left_of_imp hkept
  rw [ignoreFile, ignoreFile]
  cases hfile : tree.fileAt (root.join ⟨".gitignore".toList⟩) with
  | ok file => rw [(hsame file).mpr hfile]
  | error fault =>
    cases hfile' : (tree.without places).fileAt (root.join ⟨".gitignore".toList⟩) with
    | error fault' => rfl
    | ok file =>
      rw [(hsame file).mp hfile'] at hfile
      cases hfile

/-- The selection of sources is the same without files that a walk gathers. -/
theorem sourceSelection_without :
    sourceSelection (tree.without places) root settings = sourceSelection tree root settings := by
  rw [sourceSelection, sourceSelection, ignoreFile_without hplain hplaces]

end

/-- Valid patterns make a selection. -/
theorem exists_sourceSelection (h : settings.HasValidPatterns) (tree : FileTree) (root : Path) :
    ∃ selection, sourceSelection tree root settings = .ok selection := by
  cases hselection : sourceSelection tree root settings with
  | ok selection => exact ⟨selection, rfl⟩
  | error cause =>
    rcases bind_eq_error_iff.mp hselection with hexcluded | ⟨excluded, -, hselection⟩
    · rcases bind_eq_error_iff.mp hexcluded with hrules | ⟨rules, -, hrules⟩
      · obtain ⟨line, hline, hparse⟩ := exists_of_mapM_eq_error hrules
        obtain ⟨rule, hrule⟩ := h.excludes line hline
        rw [hrule] at hparse
        cases hparse
      · cases hrules
    · rcases bind_eq_error_iff.mp hselection with hincluded | ⟨included, -, hincluded⟩
      · obtain ⟨pattern, hpattern, hparse⟩ := exists_of_mapM_eq_error hincluded
        obtain ⟨tokens, htokens⟩ := h.includes pattern hpattern
        rw [includePattern, htokens] at hparse
        cases hparse
      · cases hincluded

/-- The sources are what a walk with their selection finds. -/
theorem sources_of_sourceSelection {selection : Selection}
    (h : sourceSelection tree root settings = .ok selection) :
    sources tree root settings = tree.collect selection root := by
  rw [sources, h]
  rfl

/-- In a directory without directories in it, the sources are what a walk takes there, sorted. -/
theorem sources_of_filesIn_eq {selection : Selection} {taken files : List Path}
    (hselection : sourceSelection tree root settings = .ok selection)
    (hplace : tree.directory? root = some place) (hopen : tree.closedAt place = false)
    (hnone : ((tree.listed place).any fun name => tree.isDirectory (root.join ⟨name⟩)) = false)
    (htaken : tree.filesIn selection root place = taken)
    (hsorted : taken.mergeSort Path.le = files) :
    sources tree root settings = .ok ⟨files, []⟩ := by
  rw [sources_of_sourceSelection hselection,
    FileTree.collect_of_isClosed_eq_false ((FileTree.isClosed_eq_closedAt hplace).trans hopen),
    FileTree.gathered_of_any_eq_false hplace hnone,
    FileTree.unlisted_of_any_eq_false hplace hopen hnone, htaken, hsorted]
  rfl

/-- Why the file at a path cannot be read: it is too large, no text, must not be read, or has an
opening tag without a key. -/
theorem scanFile_eq_error {content : Content} {modified : Instant} {size : Nat} {reading : Reading}
    {cause : Failure} (hlocate : tree.locate path = .ok (place, .file content modified))
    (h : scanFile tree root size reading path = .error cause) :
    (∃ found, cause = .tooLarge (path.relativeTo root) found size) ∨
      cause = .file .invalidText ∨ cause = .file .denied ∨
      ∃ line, cause = .missingKey reading.initTag (path.relativeTo root) line := by
  have hfile := FileTree.fileAt_eq_ok_iff.mpr ⟨place, hlocate⟩
  rw [scanFile, hfile] at h
  change (if size < content.size then _ else _) = _ at h
  split at h
  · exact .inl ⟨_, (Except.error.inj h).symm⟩
  · cases content with
    | binary bytes => exact .inr (.inl (Except.error.inj h).symm)
    | closed size => exact .inr (.inr (.inl (Except.error.inj h).symm))
    | text t =>
      obtain ⟨s, -, hs⟩ := exists_of_mapM_eq_error h
      rw [Section.note] at hs
      split at hs
      · exact .inr (.inr (.inr ⟨_, (Except.error.inj hs).symm⟩))
      · cases hs

/-- The diagnostics about the directories that a walk cannot list. -/
def unreadableDiagnostics (root : Path) (found : FileTree.Collected) : List Diagnostic :=
  found.unreadable.map fun (path, cause) => diagnosticOf root path cause

/-- A scan indexes the notes of the sources one after another. -/
theorem scan_eq (h : sources tree root settings = .ok found) :
    let outcomes := found.files.map fun path =>
      outcome root path (scanFile tree root settings.maxFileSize settings.reading path)
    scan tree root settings = (Document.ofNotes (outcomes.flatMap Prod.fst)).map fun document =>
      ⟨document, unreadableDiagnostics root found ++ outcomes.flatMap Prod.snd,
        found.files.length⟩ := by
  rw [scan, h]
  rfl

/-- Whether the file at a path cannot be read. -/
def isBroken (tree : FileTree) (root : Path) (settings : Settings) (path : Path) : Bool :=
  !(scanFile tree root settings.maxFileSize settings.reading path).isOk

/-- A workspace without its files that cannot be read. -/
def withoutBroken (tree : FileTree) (root : Path) (settings : Settings) (files : List Path) :
    FileTree :=
  tree.without ((files.filter (isBroken tree root settings)).filterMap tree.place?)

/-- What a broken file adds to a scan. -/
theorem outcome_of_isBroken (h : isBroken tree root settings path = true) :
    ∃ cause, scanFile tree root settings.maxFileSize settings.reading path = .error cause ∧
      outcome root path (scanFile tree root settings.maxFileSize settings.reading path) =
        ([], [diagnosticOf root path cause]) := by
  rw [isBroken] at h
  cases hread : scanFile tree root settings.maxFileSize settings.reading path with
  | ok notes => rw [hread] at h; cases h
  | error cause => exact ⟨cause, rfl, rfl⟩

/-- A file that is not broken adds no diagnostic to a scan. -/
theorem snd_outcome_of_not_isBroken (h : isBroken tree root settings path = false) :
    (outcome root path (scanFile tree root settings.maxFileSize settings.reading path)).2 = [] := by
  rw [isBroken] at h
  cases hread : scanFile tree root settings.maxFileSize settings.reading path with
  | ok notes => rfl
  | error cause => rw [hread] at h; cases h

/-- A scan without broken files finds the other files, and reads them as they are. -/
theorem sources_withoutBroken (hplain : tree.IsPlainFrom root)
    (h : sources tree root settings = .ok found) :
    let rest := withoutBroken tree root settings found.files
    sources rest root settings = .ok
        { found with
          files := found.files.filter fun path => !isBroken tree root settings path } ∧
      ∀ path ∈ found.files, isBroken tree root settings path = false → ∀ size reading,
        scanFile rest root size reading path = scanFile tree root size reading path := by
  obtain ⟨selection, hselection, hcollect⟩ := bind_eq_ok_iff.mp h
  have hgathered := (FileTree.collect_eq_ok_iff.mp hcollect).2.1
  rw [← hgathered]
  have hlocated : ∀ path ∈ tree.gathered selection root, ∃ place entry,
      tree.locate path = .ok (place, entry) := by
    intro path hpath
    obtain ⟨q, name, content, modified, -, hlocate⟩ := FileTree.locate_of_mem_gathered hplain hpath
    exact ⟨_, _, hlocate⟩
  have hplaces : ∀ p ∈ ((tree.gathered selection root).filter
      (isBroken tree root settings)).filterMap tree.place?,
      ∃ path ∈ tree.gathered selection root, tree.place? path = some p := by
    intro p hp
    obtain ⟨path, hpath, hplace⟩ := List.mem_filterMap.mp hp
    exact ⟨path, List.mem_of_mem_filter hpath, hplace⟩
  have hfiles := FileTree.areFiles_of_gathered hplain hplaces
  have hkept := FileTree.filter_avoids (isBroken tree root settings)
    (fun path hpath => (hlocated path hpath).imp fun place ⟨entry, hlocate⟩ =>
      FileTree.place?_of_locate hlocate)
    ((FileTree.pairwise_gathered hplain).imp And.right)
  refine ⟨?_, fun path hpath hread size reading => ?_⟩
  · rw [sources, withoutBroken, sourceSelection_without hplain hplaces, hselection, ← hkept]
    refine (FileTree.collect_without hfiles hplain).trans ?_
    rw [hcollect, hgathered]
    rfl
  · obtain ⟨place, entry, hlocate⟩ := hlocated path hpath
    have hmem : path ∈ (tree.gathered selection root).filter
        fun path => !isBroken tree root settings path :=
      List.mem_filter.mpr ⟨hpath, by rw [hread]; rfl⟩
    rw [← hkept] at hmem
    exact scanFile_without hfiles hlocate (List.mem_filter.mp hmem).2

/-- A scan of a workspace without its broken files is the scan of the workspace without the reports
on them. -/
theorem scan_withoutBroken (hplain : tree.IsPlainFrom root)
    (h : sources tree root settings = .ok found) :
    scan (withoutBroken tree root settings found.files) root settings =
      (scan tree root settings).map fun result =>
        { result with
          diagnostics := unreadableDiagnostics root found
          filesScanned :=
            (found.files.filter fun path => !isBroken tree root settings path).length } := by
  obtain ⟨hsources, hread⟩ := sources_withoutBroken hplain h
  let add (path : Path) := outcome root path
    (scanFile tree root settings.maxFileSize settings.reading path)
  have hsame : (found.files.filter fun path => !isBroken tree root settings path).map (fun path =>
      outcome root path (scanFile (withoutBroken tree root settings found.files) root
        settings.maxFileSize settings.reading path)) =
      (found.files.filter fun path => !isBroken tree root settings path).map add := by
    apply List.map_congr_left
    intro path hpath
    obtain ⟨hpath, hkept⟩ := List.mem_filter.mp hpath
    rw [hread path hpath (by simpa using hkept)]
  have hnotes : ((found.files.filter fun path => !isBroken tree root settings path).map
      add).flatMap Prod.fst = (found.files.map add).flatMap Prod.fst := by
    rw [List.flatMap_map, List.flatMap_map]
    apply flatMap_filter_eq
    intro path _ hbroken
    obtain ⟨cause, -, hadd⟩ := outcome_of_isBroken (by simpa using hbroken)
    exact congrArg Prod.fst hadd
  have hdiagnostics : ((found.files.filter fun path => !isBroken tree root settings path).map
      add).flatMap Prod.snd = [] := by
    rw [List.flatMap_map, List.flatMap_eq_nil_iff]
    intro path hpath
    exact snd_outcome_of_not_isBroken (by simpa using (List.mem_filter.mp hpath).2)
  rw [scan_eq hsources, scan_eq h, hsame, hnotes, hdiagnostics, List.append_nil]
  cases Document.ofNotes ((found.files.map add).flatMap Prod.fst) <;> rfl

/-- A scan of sources fails only for a key that is declared twice. -/
theorem exists_duplicateKey_of_scan {failure : Failure} (h : sources tree root settings = .ok found)
    (hscan : scan tree root settings = .error failure) :
    ∃ key first second, failure = .duplicateKey key first second := by
  rw [scan_eq h] at hscan
  obtain ⟨-, n, -, first, -, -, -, -, rfl⟩ := Document.ofNotes_eq_error_iff.mp
    (map_eq_error_iff.mp hscan)
  exact ⟨_, _, _, rfl⟩

/-- Behind the directories that it cannot list, a scan reports the broken files, each with its path
and its cause. -/
theorem diagnostics_of_scan {result : ScanResult} (h : sources tree root settings = .ok found)
    (hscan : scan tree root settings = .ok result) :
    ∃ reports, result.diagnostics = unreadableDiagnostics root found ++ reports ∧
      List.Forall₂ (fun path d => d.file = path.relativeTo root ∧
        scanFile tree root settings.maxFileSize settings.reading path = .error d.cause)
        (found.files.filter (isBroken tree root settings)) reports := by
  rw [scan_eq h] at hscan
  obtain ⟨document, -, rfl⟩ := map_eq_ok_iff.mp hscan
  refine ⟨_, rfl, ?_⟩
  rw [List.flatMap_map, ← flatMap_filter_eq (isBroken tree root settings)]
  · apply forall₂_flatMap
    intro path hpath
    obtain ⟨cause, hread, hadd⟩ := outcome_of_isBroken (List.mem_filter.mp hpath).2
    exact ⟨_, congrArg Prod.snd hadd, rfl, hread⟩
  · exact fun path _ => snd_outcome_of_not_isBroken

/-- Below a root without links and with valid patterns, a scan with its broken files ends like one
without them: in the same document or with the same key that is declared twice. If it ends in a
document, it reports each broken file once, in the order of the paths, with its path below the root,
its cause, and the line if that is a tag without a key, and counts all files. A broken file is too
large, no text, must not be read, or has an opening tag without a key. Before the broken files a
scan reports the directories that it cannot list, with them and without them. A root that cannot be
listed itself makes the scan fail. -/
theorem broken_files_are_isolated (hplain : tree.IsPlainFrom root)
    (hpatterns : settings.HasValidPatterns) :
    (tree.isClosed root = true → scan tree root settings = .error (.file .denied)) ∧
    (tree.isClosed root = false → ∃ found, sources tree root settings = .ok found ∧
      let read := scanFile tree root settings.maxFileSize settings.reading
      let broken := found.files.filter (isBroken tree root settings)
      let rest := withoutBroken tree root settings found.files
      (scan rest root settings).map ScanResult.document =
        (scan tree root settings).map ScanResult.document ∧
      (∀ failure, scan tree root settings = .error failure →
        ∃ key first second, failure = .duplicateKey key first second) ∧
      (∀ result, scan tree root settings = .ok result →
        (∃ reports, result.diagnostics = unreadableDiagnostics root found ++ reports ∧
          List.Forall₂ (fun path d => d.file = path.relativeTo root ∧ read path = .error d.cause ∧
            ∀ line, d.line? = some line ↔ ∃ tag file, d.cause = .missingKey tag file line)
            broken reports) ∧
        result.filesScanned = found.files.length ∧
        ∀ result', scan rest root settings = .ok result' →
          result'.diagnostics = unreadableDiagnostics root found) ∧
      broken.Pairwise (fun p q => p.le q = true ∧ tree.place? p ≠ tree.place? q) ∧
      ∀ path ∈ broken, ∃ cause, read path = .error cause ∧
        ((∃ size, cause = .tooLarge (path.relativeTo root) size settings.maxFileSize) ∨
          cause = .file .invalidText ∨ cause = .file .denied ∨
          ∃ line, cause = .missingKey settings.reading.initTag (path.relativeTo root) line)) := by
  obtain ⟨selection, hselection⟩ := exists_sourceSelection hpatterns tree root
  refine ⟨fun hclosed => ?_, fun hopen => ?_⟩
  · rw [scan, sources_of_sourceSelection hselection, FileTree.collect_of_isClosed hclosed]
    rfl
  have hsources := (sources_of_sourceSelection hselection).trans
    (FileTree.collect_of_isClosed_eq_false hopen)
  refine ⟨_, hsources, ?_, fun failure hfailure => ?_, fun result hresult => ⟨?_, ?_, ?_⟩,
    (FileTree.pairwise_gathered hplain).filter _, fun path hpath => ?_⟩
  · rw [scan_withoutBroken hplain hsources]
    cases scan tree root settings <;> rfl
  · exact exists_duplicateKey_of_scan hsources hfailure
  · obtain ⟨reports, hreports, hall⟩ := diagnostics_of_scan hsources hresult
    exact ⟨reports, hreports, hall.imp fun path d ⟨hfile, hcause⟩ =>
      ⟨hfile, hcause, fun line => d.line?_eq_some_iff⟩⟩
  · rw [scan_eq hsources] at hresult
    obtain ⟨document, -, rfl⟩ := map_eq_ok_iff.mp hresult
    rfl
  · intro result' hresult'
    rw [scan_withoutBroken hplain hsources, hresult] at hresult'
    rw [← Except.ok.inj hresult']
  · obtain ⟨hpath, hbroken⟩ := List.mem_filter.mp hpath
    obtain ⟨q, name, content, modified, -, hlocate⟩ := FileTree.locate_of_mem_gathered hplain hpath
    obtain ⟨cause, hcause, -⟩ := outcome_of_isBroken hbroken
    exact ⟨cause, hcause, scanFile_eq_error hlocate hcause⟩

/-- A workspace with a file that declares a key and one that is no text. -/
def twoFiles : FileTree where
  entries := [([], .directory), (["w".toList], .directory),
    (["w".toList, "b.rs".toList], .file (.binary [255]) ⟨0, 0⟩),
    (["w".toList, "a.rs".toList], .file (.text "// @doc a".toList) ⟨0, 0⟩)]
  working := []
  now := ⟨0, 0⟩
  nodup := by decide

/-- Both files are sources, and the one that is no text is isolated. -/
theorem broken_files_are_isolated_noText :
    let root : Path := ⟨"/w".toList⟩
    let files : List Path := [⟨"/w/a.rs".toList⟩, ⟨"/w/b.rs".toList⟩]
    sources twoFiles root {} = .ok ⟨files, []⟩ ∧ isBroken twoFiles root {} ⟨"/w/b.rs".toList⟩ = true ∧
      (scan (withoutBroken twoFiles root {} files) root {}).map ScanResult.document =
        (scan twoFiles root {}).map ScanResult.document ∧
      ∀ result, scan twoFiles root {} = .ok result → result.filesScanned = 2 := by
  intro root files
  have hroot : twoFiles.directory? root = some (["w".toList] : Place) := by decide +kernel
  have hsorted : ([⟨"/w/b.rs".toList⟩, ⟨"/w/a.rs".toList⟩] : List Path).mergeSort Path.le = files := by
    rw [(mergeSort_cons_eq Path.le_trans Path.le_total _ _).2, List.mergeSort_singleton]
    decide +kernel
  have hsources : sources twoFiles root {} = .ok ⟨files, []⟩ :=
    sources_of_filesIn_eq rfl hroot (by decide) (by decide +kernel) (by decide +kernel) hsorted
  have hplain : twoFiles.IsPlainFrom root :=
    FileTree.isPlainFrom_of_forall_mem (by simp [twoFiles]) (by decide) root
  have hpatterns : ({} : Settings).HasValidPatterns :=
    ⟨List.forall_mem_nil _, List.forall_mem_nil _⟩
  obtain ⟨found, hfound, hsame, -, hok, -⟩ :=
    (broken_files_are_isolated hplain hpatterns).2 (by decide +kernel)
  obtain rfl := Except.ok.inj (hsources.symm.trans hfound)
  have hfile : twoFiles.fileAt ⟨"/w/b.rs".toList⟩ = .ok (.binary [255], ⟨0, 0⟩) := by
    decide +kernel
  have hbroken : isBroken twoFiles root {} ⟨"/w/b.rs".toList⟩ = true := by
    rw [isBroken, scanFile, hfile]
    rfl
  exact ⟨hsources, hbroken, hsame, fun result hresult => (hok result hresult).2.1⟩

end Workspace

end Marginalia
