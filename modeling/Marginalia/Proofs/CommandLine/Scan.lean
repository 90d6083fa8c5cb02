import Marginalia.Proofs.CommandLine.Step
import Marginalia.Proofs.FileTree.Change
import Marginalia.Proofs.Workspace.Stored

/-!
# Runs that scan a workspace

A scan writes its document at the very end. A failure before that leaves the document that is stored
already, and all other files, as they are; a scan that ends well replaces the stored document and
nothing else.
-/

namespace Marginalia.CommandLine

variable {tree : FileTree} {arguments : List Bytes} {options : Options} {out : Option Path}
  {settings : Settings} {result : ScanResult} {cause : Failure}

/-- Whether a scan of a workspace fails: its settings are not loaded, or the scan with them
fails. -/
def ScanFails (tree : FileTree) (root : Path) (cause : Failure) : Prop :=
  Settings.loadOrDefault tree root = .error cause ∨
    ∃ settings, Settings.loadOrDefault tree root = .ok settings ∧
      Workspace.scan tree root settings = .error cause

/-- A run of a scan ends as its command does. -/
theorem run_scan_eq (hrequest : request arguments = .run options (.scan out)) (allowColours : Bool)
    {ended : Except Stop Completion} {files : FileTree}
    (h : Prod.map id Session.files (endOf ((options.setup allowColours tree).runScan out)
      ⟨tree, [], []⟩) = (ended, files)) :
    (run arguments allowColours tree).1 = .of ended ∧
      (run arguments allowColours tree).2.files = files := by
  obtain ⟨hending, hfiles, -⟩ := run_eq_of_request hrequest allowColours tree
  obtain ⟨hended, hsame⟩ := Prod.mk.inj h
  exact ⟨hending.trans (congrArg Ending.of hended), hfiles.trans hsame⟩

/-- A run whose scan fails stops with its cause, and no file is changed. -/
theorem run_of_scanFails (hrequest : request arguments = .run options (.scan out))
    (allowColours : Bool) (h : ScanFails tree (options.setup allowColours tree).root cause) :
    (run arguments allowColours tree).1 = .stopped (.failure cause) ∧
      (run arguments allowColours tree).2.files = tree := by
  have hended : Prod.map id Session.files (endOf ((options.setup allowColours tree).runScan out)
      ⟨tree, [], []⟩) = (.error (.failure cause), tree) := by
    rw [Setup.endOf_runScan]
    rcases h with h | ⟨settings, hsettings, h⟩
    · simp only [h]
    · simp only [hsettings, h]
  exact run_scan_eq hrequest allowColours hended

/-- A run whose scan ends in a document writes it, and ends as that does. -/
theorem run_of_scan (hrequest : request arguments = .run options (.scan out))
    (allowColours : Bool)
    (hsettings : Settings.loadOrDefault tree (options.setup allowColours tree).root = .ok settings)
    (hscan : Workspace.scan tree (options.setup allowColours tree).root settings = .ok result) :
    let setup := options.setup allowColours tree
    let written := endOf
      (FileAction.writeBelow (setup.outputPath settings out) result.document.write) tree
    (run arguments allowColours tree).1 = .of
        ((written.1.mapError fun fault => .failure (.file fault)).map
          fun _ => .ofClean result.isClean) ∧
      (run arguments allowColours tree).2.files = written.2 := by
  refine run_scan_eq hrequest allowColours ?_
  rw [Setup.endOf_runScan]
  simp only [hsettings, hscan]

/-- Whether a scan ends in a document or fails. -/
theorem scan_or_fails (tree : FileTree) (root : Path) :
    (∃ settings result, Settings.loadOrDefault tree root = .ok settings ∧
      Workspace.scan tree root settings = .ok result) ∨ ∃ cause, ScanFails tree root cause := by
  cases hsettings : Settings.loadOrDefault tree root with
  | error cause => exact .inr ⟨cause, .inl hsettings⟩
  | ok settings =>
    cases hscan : Workspace.scan tree root settings with
    | error cause => exact .inr ⟨cause, .inr ⟨settings, hsettings, hscan⟩⟩
    | ok result => exact .inl ⟨settings, result, rfl, hscan⟩

/-- A scan that cannot load its settings, meets a pattern that cannot be read, cannot list the root,
or finds a key that is declared twice ends with that failure and the code two, and no file is
changed. A scan ends with the code zero or one exactly when it gets to a document and can write it.
Then the document of the scan is read back from the output file, every other place is as it was or
has a directory where nothing stood, and the code is zero exactly when the scan had no diagnostics.
-/
theorem scan_replaces_only_its_output (hrooted : tree.IsRooted)
    (hrequest : request arguments = .run options (.scan out)) (allowColours : Bool) :
    let setup := options.setup allowColours tree
    let loaded := Settings.loadOrDefault tree setup.root
    let scanned := Workspace.scan tree setup.root
    let ending := (run arguments allowColours tree).1
    let grown := (run arguments allowColours tree).2.files
    (∀ cause, loaded = .error cause →
      ending = .stopped (.failure cause) ∧ ending.code = 2 ∧ grown = tree) ∧
    (∀ settings cause, loaded = .ok settings → scanned settings = .error cause →
      ((∃ pattern ∈ settings.excludes ++ settings.includes, cause = .pattern pattern) ∨
        (tree.isClosed setup.root = true ∧ cause = .file .denied) ∨
        ∃ key first second, cause = .duplicateKey key first second) ∧
      ending = .stopped (.failure cause) ∧ ending.code = 2 ∧ grown = tree) ∧
    (ending.code = 0 ∨ ending.code = 1 ↔
      ∃ settings result, loaded = .ok settings ∧ scanned settings = .ok result ∧
        (endOf (FileAction.writeBelow (setup.outputPath settings out) result.document.write)
          tree).1 = .ok ()) ∧
    ∀ settings result, loaded = .ok settings → scanned settings = .ok result →
      ending.code = 0 ∨ ending.code = 1 →
      (∃ t, grown.readText (setup.outputPath settings out) = .ok t ∧
        Document.read t = .ok result.document) ∧
      (∀ place, grown.place? (setup.outputPath settings out) ≠ some place →
        tree.KeepsPlace grown place) ∧
      (ending.code = 0 ↔ result.diagnostics = []) := by
  intro setup loaded scanned ending grown
  have hfails (cause : Failure) (h : ScanFails tree setup.root cause) :
      ending = .stopped (.failure cause) ∧ ending.code = 2 ∧ grown = tree := by
    obtain ⟨hending, hgrown⟩ := run_of_scanFails hrequest allowColours h
    exact ⟨hending, congrArg Ending.code hending, hgrown⟩
  refine ⟨fun cause h => hfails cause (.inl h), fun settings cause hsettings hscan =>
    ⟨Workspace.cause_of_scan_eq_error hscan,
      hfails cause (.inr ⟨settings, hsettings, hscan⟩)⟩,
    ⟨fun hcode => ?_, ?_⟩, fun settings result hsettings hscan hcode => ?_⟩
  · rcases scan_or_fails tree setup.root with ⟨settings, result, hsettings, hscan⟩ | ⟨cause, h⟩
    · obtain ⟨hending, -⟩ := run_of_scan hrequest allowColours hsettings hscan
      exact ⟨settings, result, hsettings, hscan, (code_of_written hending).1.mp hcode⟩
    · obtain ⟨-, htwo, -⟩ := hfails cause h
      omega
  · rintro ⟨settings, result, hsettings, hscan, hwritten⟩
    obtain ⟨hending, -⟩ := run_of_scan hrequest allowColours hsettings hscan
    exact (code_of_written hending).1.mpr hwritten
  · obtain ⟨hending, hgrown⟩ := run_of_scan hrequest allowColours hsettings hscan
    have hwritten := (code_of_written hending).1.mp hcode
    have hstorable := Workspace.isStorable_of_scan
      (Settings.maxFileSize_lt_of_loadOrDefault hsettings) hscan
    have hended : endOf (FileAction.writeBelow (setup.outputPath settings out)
        result.document.write) tree = (.ok (), grown) := Prod.ext hwritten hgrown.symm
    obtain ⟨-, place, hlocate, hplaces⟩ := FileAction.locate_of_writeBelow hrooted hended
    refine ⟨⟨_, FileTree.readText_of_locate hlocate, Document.read_write hstorable⟩,
      fun p hp => hplaces p ?_, ?_⟩
    · rintro rfl
      exact hp (FileTree.place?_of_locate hlocate)
    · rw [(code_of_written hending).2.1, and_iff_right hwritten, ScanResult.isClean,
        List.isEmpty_iff]

/-- A workspace with a document and with settings in which a pattern cannot be read. -/
def openBracket : FileTree where
  entries := [([], .directory),
    (["doctag.json".toList],
      .file (.text "\x7b\"include\": [\"[\"]\x7d".toList) ⟨0, 0⟩),
    (["doctag.canonical.json".toList], .file (.text "\x7b\x7d".toList) ⟨0, 0⟩)]
  working := []
  now := ⟨0, 0⟩
  nodup := by decide

/-- A scan with a pattern that cannot be read leaves the document as it is, and a scan of a
workspace without files writes the document without notes. -/
theorem scan_replaces_only_its_output_openBracket :
    ((run ["scan".toList] false openBracket).1.code = 2 ∧
      (run ["scan".toList] false openBracket).2.files = openBracket) ∧
    (run ["scan".toList] false (.empty ⟨0, 0⟩)).1.code = 0 ∧
      ∃ t, (run ["scan".toList] false (.empty ⟨0, 0⟩)).2.files.readText
        ⟨"/doctag.canonical.json".toList⟩ = .ok t ∧ Document.read t = .ok .empty := by
  have hrequest : request ["scan".toList] = .run ⟨none, false, false⟩ (.scan none) := by decide
  constructor
  · have hsettings : Settings.loadOrDefault openBracket ⟨"/".toList⟩ = .ok { includes := [['[']] } := by
      decide +kernel
    have hscan : Workspace.scan openBracket ⟨"/".toList⟩ { includes := [['[']] } =
        .error (.pattern ['[']) := by decide +kernel
    have hrooted : openBracket.IsRooted := FileTree.isRooted_of_forall_mem (by decide)
    obtain ⟨-, hfails, -, -⟩ := scan_replaces_only_its_output hrooted hrequest false
    exact (hfails _ _ hsettings hscan).2.2
  · let tree := FileTree.empty ⟨0, 0⟩
    have hsettings : Settings.loadOrDefault tree ⟨"/".toList⟩ = .ok {} := by decide +kernel
    have hsources : Workspace.sources tree ⟨"/".toList⟩ {} = .ok ⟨[], []⟩ := by
      have hroot : tree.directory? ⟨"/".toList⟩ = some [] := by decide +kernel
      exact Workspace.sources_of_filesIn_eq rfl hroot (by decide) (by decide +kernel)
        (by decide +kernel) List.mergeSort_nil
    have hscan : Workspace.scan tree ⟨"/".toList⟩ {} = .ok ⟨.empty, [], 0⟩ := by
      rw [Workspace.scan_eq hsources]
      rfl
    have hrooted : tree.IsRooted := FileTree.isRooted_of_forall_mem (by decide)
    have hwritten :
        (endOf (FileAction.writeBelow ⟨"/doctag.canonical.json".toList⟩ Document.empty.write)
          tree).1 = .ok () := by decide +kernel
    obtain ⟨-, -, hends, hdocument⟩ := scan_replaces_only_its_output hrooted hrequest false
    have hcode := hends.mpr ⟨{}, ⟨.empty, [], 0⟩, hsettings, hscan, hwritten⟩
    obtain ⟨hread, -, hzero⟩ := hdocument {} ⟨.empty, [], 0⟩ hsettings hscan hcode
    exact ⟨hzero.mpr rfl, hread⟩

end Marginalia.CommandLine
