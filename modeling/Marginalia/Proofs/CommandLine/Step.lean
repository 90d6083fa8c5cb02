import Marginalia.CommandLine.Run
import Marginalia.Proofs.Outcome
import Marginalia.Proofs.Run

/-!
# How the steps of a command end

Printing changes no file, and a failure stops a run with the files as they are. So a run changes
files only where it writes: a scan that fails changes nothing, and neither does one whose settings
cannot be loaded.
-/

namespace Marginalia.CommandLine

open Text

/-- Printed lines. -/
def printed (lines : List Text) : Text :=
  lines.flatMap (· ++ ['\n'])

/-- Lines are printed one after another. -/
theorem printed_append (lines more : List Text) :
    printed (lines ++ more) = printed lines ++ printed more :=
  List.flatMap_append

namespace Session

/-- A session with further lines on its output. -/
def saying (s : Session) (lines : List Text) : Session :=
  { s with out := s.out ++ printed lines }

/-- A session with further lines on its error output. -/
def warning (s : Session) (lines : List Text) : Session :=
  { s with err := s.err ++ printed lines }

variable (s : Session) (lines more : List Text)

@[simp] theorem files_saying : (s.saying lines).files = s.files := rfl

@[simp] theorem out_saying : (s.saying lines).out = s.out ++ printed lines := rfl

@[simp] theorem files_warning : (s.warning lines).files = s.files := rfl

@[simp] theorem saying_nil : s.saying [] = s := by
  simp [saying, printed]

@[simp] theorem warning_nil : s.warning [] = s := by
  simp [warning, printed]

/-- Lines are printed one after another. -/
theorem saying_saying : (s.saying lines).saying more = s.saying (lines ++ more) := by
  simp [saying, printed]

/-- Lines are printed to the error output one after another. -/
theorem warning_warning : (s.warning lines).warning more = s.warning (lines ++ more) := by
  simp [warning, printed]

end Session

variable {α : Type} (s : Session)

@[simp] theorem endOf_say (line : Text) : endOf (say line) s = (.ok (), s.saying [line]) := by
  simp [say, Session.saying, printed]

@[simp] theorem endOf_warn (line : Text) : endOf (warn line) s = (.ok (), s.warning [line]) := by
  simp [warn, Session.warning, printed]

/-- A line is printed for each member of a list. -/
theorem endOf_forM_say (line : α → Text) (xs : List α) :
    endOf (xs.forM fun x => say (line x)) s = (.ok (), s.saying (xs.map line)) := by
  induction xs generalizing s with
  | nil => simp
  | cons x xs ih =>
    rw [endOf_forM_cons, endOf_say]
    simp only [ih, Session.saying_saying, List.map_cons, List.singleton_append]

/-- A line is printed to the error output for each member of a list. -/
theorem endOf_forM_warn (line : α → Text) (xs : List α) :
    endOf (xs.forM fun x => warn (line x)) s = (.ok (), s.warning (xs.map line)) := by
  induction xs generalizing s with
  | nil => simp
  | cons x xs ih =>
    rw [endOf_forM_cons, endOf_warn]
    simp only [ih, Session.warning_warning, List.map_cons, List.singleton_append]

@[simp] theorem endOf_orFail_ok (a : α) : endOf (orFail (.ok a)) s = (.ok a, s) := rfl

@[simp] theorem endOf_orFail_error (cause : Failure) :
    endOf (orFail (.error cause) : Step α) s = (.error (.failure cause), s) := rfl

/-- A change of the files ends with the files that it leads to. -/
theorem endOf_onFiles (stop : FileFault → Stop) (action : FileAction FileFault α) :
    endOf (onFiles stop action) s =
      ((endOf action s.files).1.mapError stop, { s with files := (endOf action s.files).2 }) := by
  rw [onFiles, endOf_bind, endOf_get]
  simp only [endOf]
  rcases Id.run (action.run.run s.files) with ⟨_ | _, files⟩ <;> rfl

/-- The document to work with, a stored one or that of a scan, and the scan if there was one. -/
def workingDocument (tree : FileTree) (root : Path) (settings : Settings) :
    Option Path → Except Failure (Document × Option ScanResult)
  | some path => ((tree.readText (root.join path)).mapError Failure.file).bind fun t =>
    (Document.read t).map fun d => (d, none)
  | none => (Workspace.scan tree root settings).map fun result => (result.document, some result)

/-- The diagnostics of a scan, if there was one. -/
def diagnosticsOf (scan? : Option ScanResult) : List Diagnostic :=
  (scan?.map ScanResult.diagnostics).getD []

namespace Setup

variable (setup : Setup) {settings : Settings}

/-- The line that a scan prints if a run prints more than it needs. -/
def scanLines (result : ScanResult) : List Text :=
  if setup.verbose then
    ["Scanned ".toList ++ ofNat result.filesScanned ++ " file(s), found ".toList ++
      ofNat result.document.notes.size ++ " block(s)".toList]
  else []

/-- The line that a scan prints to the error output about a file that it skipped. -/
def skipLine (d : Diagnostic) : Text :=
  coloured setup.colours .yellow "warning:".toList ++ " skipped ".toList ++ placeOf d ++
    ": ".toList ++ d.cause.message.toList

/-- A scan prints what it skips and changes no file, whether it fails or not. -/
theorem endOf_scanAndPrint (settings : Settings) :
    endOf (setup.scanAndPrint settings) s =
      match Workspace.scan s.files setup.root settings with
      | .ok result => (.ok result, (s.saying (setup.scanLines result)).warning
          (result.diagnostics.map setup.skipLine))
      | .error cause => (.error (.failure cause), s) := by
  simp only [scanAndPrint, endOf_bind, endOf_get]
  cases Workspace.scan s.files setup.root settings with
  | error cause => simp only [endOf_orFail_error]
  | ok result =>
    have hskipped (s : Session) := endOf_forM_warn s setup.skipLine result.diagnostics
    unfold skipLine at hskipped ⊢
    cases hverbose : setup.verbose
    · simp only [endOf_orFail_ok, hskipped, scanLines, hverbose, endOf_bind, endOf_pure,
        Session.saying_nil, Bool.false_eq_true, if_false]
    · simp only [endOf_orFail_ok, hskipped, scanLines, hverbose, endOf_bind, endOf_pure, endOf_say,
        if_true]

/-- The lines that loading a document prints, given the scan that found it, unless it is stored. -/
def loadLines (scan? : Option ScanResult) : List Text :=
  (scan?.map setup.scanLines).getD []

/-- A document is loaded without changing a file, whether that fails or not. -/
theorem endOf_loadDocument (settings : Settings) (stored : Option Path) :
    endOf (setup.loadDocument settings stored) s =
      match workingDocument s.files setup.root settings stored with
      | .ok (d, scan?) => (.ok (d, .ofClean (diagnosticsOf scan?).isEmpty),
          (s.saying (setup.loadLines scan?)).warning ((diagnosticsOf scan?).map setup.skipLine))
      | .error cause => (.error (.failure cause), s) := by
  cases stored with
  | some path =>
    simp only [loadDocument, workingDocument, endOf_bind, endOf_get]
    cases s.files.readText (setup.root.join path) with
    | error fault => rfl
    | ok t =>
      simp only [mapError_ok, Except.bind, endOf_orFail_ok]
      cases Document.read t with
      | error cause => rfl
      | ok d =>
        simp only [endOf_orFail_ok, endOf_pure, Except.map, loadLines, diagnosticsOf,
          Option.map_none, Option.getD_none, List.map_nil, Session.saying_nil,
          Session.warning_nil]
        rfl
  | none =>
    simp only [loadDocument, workingDocument, endOf_bind, endOf_scanAndPrint]
    cases Workspace.scan s.files setup.root settings <;> rfl

/-- The path to which a scan writes its document. -/
def outputPath (settings : Settings) (out : Option Path) : Path :=
  (out.map setup.root.join).getD (settings.documentPathIn setup.root)

/-- A scan changes files only when it writes its document, and that is the last thing that can
fail. -/
theorem endOf_runScan (out : Option Path) :
    Prod.map id Session.files (endOf (setup.runScan out) s) =
      match Settings.loadOrDefault s.files setup.root with
      | .error cause => (.error (.failure cause), s.files)
      | .ok settings =>
        match Workspace.scan s.files setup.root settings with
        | .error cause => (.error (.failure cause), s.files)
        | .ok result =>
          let written := endOf
            (FileAction.writeBelow (setup.outputPath settings out) result.document.write) s.files
          ((written.1.mapError fun fault => .failure (.file fault)).map
            fun _ => .ofClean result.isClean, written.2) := by
  simp only [runScan, endOf_bind, endOf_get]
  cases Settings.loadOrDefault s.files setup.root with
  | error cause => rfl
  | ok settings =>
    simp only [endOf_orFail_ok, endOf_scanAndPrint]
    cases Workspace.scan s.files setup.root settings with
    | error cause => rfl
    | ok result =>
      simp only [endOf_onFiles, Session.files_warning, Session.files_saying, outputPath]
      generalize endOf (FileAction.writeBelow _ _) s.files = written
      obtain ⟨_ | _, files⟩ := written
      · rfl
      · cases hclean : result.isClean <;> rfl

/-- The lines that list what a transformation would write. -/
def dryRunLines (report : Report) : List Text :=
  ("Dry run: would write ".toList ++ ofNat report.written.length ++ " file(s):".toList) ::
    report.written.map fun file =>
      "  ".toList ++ setup.shown file.source ++ " -> ".toList ++ setup.shown file.destination

/-- A dry run lists what would be written. -/
theorem endOf_printDryRun (report : Report) :
    endOf (setup.printDryRun report) s = (.ok (), s.saying (setup.dryRunLines report)) := by
  simp only [printDryRun, endOf_bind, endOf_say, endOf_forM_say, Session.saying_saying]
  rfl

/-- Rendered files are written, and nothing else changes a file. -/
theorem exists_endOf_writeAndPrint (report : Report) :
    let written := endOf (Workspace.writeReport report) s.files
    ∃ session, endOf (setup.writeAndPrint report) s =
        (written.1.mapError fun fault => .failure (.file fault), session) ∧
      session.files = written.2 := by
  simp only [writeAndPrint, endOf_bind, endOf_onFiles]
  obtain ⟨_ | _, files⟩ := endOf (Workspace.writeReport report) s.files
  · exact ⟨_, rfl, rfl⟩
  · simp only [mapError_ok, endOf_say, endOf_ite, endOf_forM_say, endOf_pure]
    split
    · exact ⟨_, rfl, rfl⟩
    · exact ⟨_, rfl, rfl⟩

/-- The lines that a dry run prints once its templates are rendered. -/
def listing (report : Report) : List Text :=
  if report.written.isEmpty && report.isClean then ["No templates to transform.".toList]
  else setup.dryRunLines report

/-- A transformation leaves something out when a template failed or a fresh scan skipped a file. -/
theorem endOf_conclude (s : Session) (clean first : Bool) (line : Text) :
    ∃ session, endOf (if clean = true then pure (Completion.ofClean first)
        else do warn line; pure .partly) s = (.ok (.ofClean (clean && first)), session) ∧
      session.files = s.files ∧ session.out = s.out := by
  cases clean with
  | true => exact ⟨s, rfl, rfl, rfl⟩
  | false =>
    refine ⟨s.warning [line], ?_, rfl, rfl⟩
    simp only [Bool.false_eq_true, if_false, endOf_bind, endOf_warn, endOf_pure]
    rfl

/-- Without settings or without a document, a transformation fails before it changes anything. -/
theorem endOf_runTransform_of_error {files : List Path} {stored : Option Path} {dryRun : Bool}
    {cause : Failure}
    (h : Settings.loadOrDefault s.files setup.root = .error cause ∨
      ∃ settings, Settings.loadOrDefault s.files setup.root = .ok settings ∧
        workingDocument s.files setup.root settings stored = .error cause) :
    endOf (setup.runTransform files stored dryRun) s = (.error (.failure cause), s) := by
  rcases h with h | ⟨settings, hsettings, h⟩
  · simp only [runTransform, endOf_bind, endOf_get, h, endOf_orFail_error]
  · simp only [runTransform, endOf_bind, endOf_get, hsettings, endOf_orFail_ok, endOf_loadDocument,
      h]

/-- Without templates, a transformation fails before it changes anything. -/
theorem exists_endOf_runTransform_of_error {files : List Path} {stored : Option Path} {d : Document}
    {scan? : Option ScanResult} {dryRun : Bool} {cause : Failure}
    (hsettings : Settings.loadOrDefault s.files setup.root = .ok settings)
    (hdocument : workingDocument s.files setup.root settings stored = .ok (d, scan?))
    (hreport : Workspace.transform s.files setup.root settings d files = .error cause) :
    ∃ session, endOf (setup.runTransform files stored dryRun) s =
        (.error (.failure cause), session) ∧ session.files = s.files := by
  simp only [runTransform, endOf_bind, endOf_get, hsettings, endOf_orFail_ok, endOf_loadDocument,
    hdocument]
  obtain ⟨loaded, hloaded, hfiles⟩ : ∃ loaded : Session,
      (s.saying (setup.loadLines scan?)).warning ((diagnosticsOf scan?).map setup.skipLine) =
          loaded ∧ loaded.files = s.files := ⟨_, rfl, rfl⟩
  rw [hloaded]
  rw [← hfiles] at hreport
  simp only [hreport, endOf_orFail_error]
  exact ⟨loaded, rfl, hfiles⟩

/-- With settings, a document and templates, a transformation changes files only when it writes what
is rendered. A dry run changes none and lists what would be written. -/
theorem exists_endOf_runTransform (files : List Path) {stored : Option Path} {d : Document}
    {scan? : Option ScanResult} {report : Report} (dryRun : Bool)
    (hsettings : Settings.loadOrDefault s.files setup.root = .ok settings)
    (hdocument : workingDocument s.files setup.root settings stored = .ok (d, scan?))
    (hreport : Workspace.transform s.files setup.root settings d files = .ok report) :
    let written :=
      if dryRun then (.ok (), s.files) else endOf (Workspace.writeReport report) s.files
    ∃ session, endOf (setup.runTransform files stored dryRun) s =
        ((written.1.mapError fun fault => .failure (.file fault)).map
          fun _ => .ofClean (report.isClean && (diagnosticsOf scan?).isEmpty), session) ∧
      session.files = written.2 ∧
      (dryRun = true →
        session.out = s.out ++ printed (setup.loadLines scan? ++ setup.listing report)) := by
  simp only [runTransform, endOf_bind, endOf_get, hsettings, endOf_orFail_ok, endOf_loadDocument,
    hdocument]
  obtain ⟨loaded, hloaded, hfiles, hout⟩ : ∃ loaded : Session,
      (s.saying (setup.loadLines scan?)).warning ((diagnosticsOf scan?).map setup.skipLine) =
          loaded ∧
        s.files = loaded.files ∧ loaded.out = s.out ++ printed (setup.loadLines scan?) :=
    ⟨_, rfl, rfl, rfl⟩
  rw [hfiles] at hreport
  rw [hloaded, hfiles]
  simp only [hreport, endOf_orFail_ok, endOf_forM_warn]
  obtain ⟨reported, hreported, hfiles, hout'⟩ : ∃ reported : Session,
      loaded.warning (report.failures.map fun x => coloured setup.colours .red "error:".toList ++
        ' ' :: setup.shown x.1 ++ ": ".toList ++ x.2.message.toList) = reported ∧
        loaded.files = reported.files ∧ reported.out = loaded.out := ⟨_, rfl, rfl, rfl⟩
  rw [hreported, hfiles]
  by_cases hnothing : (report.written.isEmpty && report.isClean) = true
  · obtain ⟨hnone, hclean⟩ := Bool.and_eq_true_iff.mp hnothing
    rw [if_pos hnothing, Workspace.writeReport, List.isEmpty_iff.mp hnone, endOf_forM_nil, ite_self,
      hclean, Bool.true_and, endOf_bind, endOf_say]
    refine ⟨_, rfl, rfl, fun _ => ?_⟩
    rw [listing, if_pos hnothing, Session.out_saying, hout', hout, List.append_assoc,
      printed_append]
  · have hconclude (session : Session) := endOf_conclude session report.isClean
      (diagnosticsOf scan?).isEmpty
      (ofNat report.failures.length ++ " template(s) failed to render.".toList)
    rw [if_neg hnothing]
    cases dryRun with
    | true =>
      obtain ⟨session, hsession, hsame, hsaid⟩ :=
        hconclude (reported.saying (setup.dryRunLines report))
      rw [if_pos rfl, endOf_bind, endOf_printDryRun]
      refine ⟨session, hsession, hsame, fun _ => ?_⟩
      rw [listing, if_neg hnothing, hsaid, Session.out_saying, hout', hout, List.append_assoc,
        printed_append]
    | false =>
      obtain ⟨session, hsession, hafter⟩ := setup.exists_endOf_writeAndPrint reported report
      rw [if_neg Bool.false_ne_true, if_neg Bool.false_ne_true, endOf_bind, hsession]
      cases (endOf (Workspace.writeReport report) reported.files).1 with
      | error fault => exact ⟨session, rfl, hafter, by simp⟩
      | ok _ =>
        obtain ⟨final, hfinal, hsame, -⟩ := hconclude session
        exact ⟨final, hfinal, hsame.trans hafter, by simp⟩

end Setup

/-- The circumstances of a run with some options. -/
def Options.setup (options : Options) (allowColours : Bool) (tree : FileTree) : Setup where
  root := options.root.getD (workingPath tree)
  verbose := options.verbose
  colours := allowColours && !options.noColor

/-- How a run ends whose command ends like this. -/
def Ending.of : Except Stop Completion → Ending
  | .ok completion => .completed completion
  | .error stop => .stopped stop

/-- The exit code of a command that writes at its end says whether that succeeds, and whether all
went well. -/
theorem code_of_written {written : Except FileFault Unit} {stop : FileFault → Stop}
    {clean : Bool} {ending : Ending}
    (h : ending = .of ((written.mapError stop).map fun _ => .ofClean clean)) :
    (ending.code = 0 ∨ ending.code = 1 ↔ written = .ok ()) ∧
      (ending.code = 0 ↔ written = .ok () ∧ clean = true) ∧
      (ending.code = 1 ↔ written = .ok () ∧ clean = false) := by
  subst h
  cases written with
  | error fault => simp [Except.map, Ending.of, Ending.code]
  | ok _ =>
    cases clean <;>
      simp [Except.map, Ending.of, Ending.code, Completion.ofClean]

/-- A run ends as its command does, and prints nothing more to the output. -/
theorem run_eq_of_request {arguments : List Bytes} {options : Options} {command : Command}
    (h : request arguments = .run options command) (allowColours : Bool) (tree : FileTree) :
    let ended := endOf ((options.setup allowColours tree).runCommand command) ⟨tree, [], []⟩
    (run arguments allowColours tree).1 = .of ended.1 ∧
      (run arguments allowColours tree).2.files = ended.2.files ∧
      (run arguments allowColours tree).2.out = ended.2.out := by
  rw [run, h]
  rcases hended : endOf ((options.setup allowColours tree).runCommand command) ⟨tree, [], []⟩ with
    ⟨stop | completion, session⟩
  · simp only [endOf, Options.setup] at hended
    simp only [hended, true_and]
    exact ⟨rfl, List.append_nil _⟩
  · simp only [endOf, Options.setup] at hended
    simp only [hended, true_and]
    exact ⟨rfl, List.append_nil _⟩

end Marginalia.CommandLine
