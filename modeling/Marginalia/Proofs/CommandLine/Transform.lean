import Marginalia.Proofs.CommandLine.Step
import Marginalia.Proofs.Workspace.Transform

/-!
# Runs that transform templates

A transformation renders every template of its plan with the files as they were before it, and
writes afterwards. So what one template is rendered to depends on no other one, not even if it is
written where another one is read.
-/

namespace Marginalia.CommandLine

variable {tree : FileTree} {arguments : List Bytes} {options : Options} {files : List Path}
  {stored : Option Path} {dryRun : Bool} {settings : Settings} {d : Document}
  {scan? : Option ScanResult} {report : Report}

/-- Whether the settings of a workspace and the document to work with are loaded. -/
def Loads (tree : FileTree) (root : Path) (stored : Option Path) (settings : Settings)
    (d : Document) (scan? : Option ScanResult) : Prop :=
  Settings.loadOrDefault tree root = .ok settings ∧
    workingDocument tree root settings stored = .ok (d, scan?)

/-- Whether the settings of a workspace and the document to work with are loaded, and its templates
are found and reported on. -/
def Renders (tree : FileTree) (root : Path) (stored : Option Path) (files : List Path)
    (settings : Settings) (d : Document) (scan? : Option ScanResult) (report : Report) : Prop :=
  Loads tree root stored settings d scan? ∧
    Workspace.transform tree root settings d files = .ok report

/-- Either settings and document are loaded, or there is a cause for which they are not. -/
theorem loads_or_fails (tree : FileTree) (root : Path) (stored : Option Path) :
    (∃ settings d scan?, Loads tree root stored settings d scan?) ∨
      ∃ cause, Settings.loadOrDefault tree root = .error cause ∨
        ∃ settings, Settings.loadOrDefault tree root = .ok settings ∧
          workingDocument tree root settings stored = .error cause := by
  cases hsettings : Settings.loadOrDefault tree root with
  | error cause => exact .inr ⟨cause, .inl rfl⟩
  | ok settings =>
    cases hdocument : workingDocument tree root settings stored with
    | error cause => exact .inr ⟨cause, .inr ⟨settings, rfl, hdocument⟩⟩
    | ok found => exact .inl ⟨settings, found.1, found.2, hsettings, hdocument⟩

/-- A run that gets to a report ends with the code one when what is rendered is written, unless the
run is dry, and a template failed or a fresh scan skipped a file. A dry run changes no file and
lists what a run that writes would write. -/
theorem run_of_renders
    (hrequest : request arguments = .run options (.transform files stored dryRun))
    (allowColours : Bool)
    (h : Renders tree (options.setup allowColours tree).root stored files settings d scan? report) :
    let setup := options.setup allowColours tree
    let ended := run arguments allowColours tree
    (ended.1.code = 1 ↔
        (dryRun = true ∨ (endOf (Workspace.writeReport report) tree).1 = .ok ()) ∧
          (report.failures ≠ [] ∨ diagnosticsOf scan? ≠ [])) ∧
      (dryRun = true → ended.2.files = tree ∧
        ended.2.out = printed (setup.loadLines scan? ++ setup.listing report)) ∧
      (dryRun = false → ended.2.files = (endOf (Workspace.writeReport report) tree).2) := by
  intro setup ended
  obtain ⟨⟨hsettings, hdocument⟩, hreport⟩ := h
  let written := if dryRun then (.ok (), tree) else endOf (Workspace.writeReport report) tree
  obtain ⟨session, hended, hsame, hlisted⟩ : ∃ session,
      endOf (setup.runCommand (.transform files stored dryRun)) ⟨tree, [], []⟩ =
        ((written.1.mapError fun fault => .failure (.file fault)).map
          fun _ => .ofClean (report.isClean && (diagnosticsOf scan?).isEmpty), session) ∧
      session.files = written.2 ∧
      (dryRun = true → session.out = printed (setup.loadLines scan? ++ setup.listing report)) :=
    setup.exists_endOf_runTransform ⟨tree, [], []⟩ files dryRun hsettings hdocument hreport
  obtain ⟨hending, hfiles, hout⟩ := run_eq_of_request hrequest allowColours tree
  rw [hended] at hending hfiles hout
  have hwritten : written.1 = .ok () ↔
      dryRun = true ∨ (endOf (Workspace.writeReport report) tree).1 = .ok () := by
    cases dryRun <;> simp [written]
  refine ⟨?_, fun hdry => ⟨?_, hout.trans (hlisted hdry)⟩, fun hdry => ?_⟩
  · rw [(code_of_written hending).2.2, hwritten, Bool.and_eq_false_iff, Report.isClean,
      List.isEmpty_eq_false_iff, List.isEmpty_eq_false_iff]
  · exact hfiles.trans (hsame.trans (by rw [show written = _ from if_pos hdry]))
  · exact hfiles.trans (hsame.trans (by rw [show written = _ from if_neg (by simp [hdry])]))

/-- A run that does not get to a report changes no file and does not end with the code one. -/
theorem run_of_not_renders
    (hrequest : request arguments = .run options (.transform files stored dryRun))
    (allowColours : Bool)
    (h : ∀ settings d scan? report,
      ¬Renders tree (options.setup allowColours tree).root stored files settings d scan? report) :
    (run arguments allowColours tree).1.code ≠ 1 ∧
      (run arguments allowColours tree).2.files = tree := by
  obtain ⟨cause, session, hended, hsame⟩ : ∃ cause session,
      endOf ((options.setup allowColours tree).runCommand (.transform files stored dryRun))
        ⟨tree, [], []⟩ = (.error (.failure cause), session) ∧ session.files = tree := by
    rcases loads_or_fails tree (options.setup allowColours tree).root stored with
      ⟨settings, d, scan?, hloads⟩ | ⟨cause, hcause⟩
    · cases hreport : Workspace.transform tree (options.setup allowColours tree).root settings d
        files with
      | ok report => exact absurd ⟨hloads, hreport⟩ (h settings d scan? report)
      | error cause =>
        obtain ⟨session, hended, hsame⟩ := Setup.exists_endOf_runTransform_of_error
          ⟨tree, [], []⟩ _ hloads.1 hloads.2 hreport
        exact ⟨cause, session, hended, hsame⟩
    · exact ⟨cause, _, Setup.endOf_runTransform_of_error ⟨tree, [], []⟩ _ hcause, rfl⟩
  obtain ⟨hending, hfiles, -⟩ := run_eq_of_request hrequest allowColours tree
  rw [hended] at hending hfiles
  exact ⟨by simp [hending, Ending.of, Ending.code], hfiles.trans hsame⟩

/-- Every template of a plan has one outcome, that of rendering it alone with the files as they were
before the run, and the outcomes stand in the order of the plan. If what is rendered is written and
no two templates lead to one file, each of these files holds its rendered text, and every other
place is as it was or has a directory where nothing stood; so a template that fails changes nothing.
A transformation ends with the code one exactly when it writes, or need not, and a template failed
or a fresh scan skipped a file; a dry run changes no file and lists the pairs of source and
destination that a run that writes would write. -/
theorem transform_is_isolated (hrooted : tree.IsRooted) :
    (∀ root settings d inputs plan, Workspace.plan tree root settings inputs = .ok plan →
      let outcome (planned : Planned) := Workspace.transformFile tree d planned.source
      ∃ report, Workspace.transform tree root settings d inputs = .ok report ∧
        report.written = (plan.filterMap fun planned => planned.rendered? (outcome planned)) ∧
        report.failures = (plan.filterMap fun planned => planned.failed? (outcome planned)) ∧
        report.written.length + report.failures.length = plan.length ∧
        ∀ grown, endOf (Workspace.writeReport report) tree = (.ok (), grown) →
          report.LeadsApart grown →
          (∀ file ∈ report.written, grown.readText file.destination = .ok file.content) ∧
          ∀ place, (∀ file ∈ report.written, grown.place? file.destination ≠ some place) →
            tree.KeepsPlace grown place) ∧
    ∀ arguments allowColours options files stored dryRun,
      request arguments = .run options (.transform files stored dryRun) →
      let setup := options.setup allowColours tree
      let ended := run arguments allowColours tree
      (ended.1.code = 1 ↔ ∃ settings d scan? report,
        Renders tree setup.root stored files settings d scan? report ∧
        (dryRun = true ∨ (endOf (Workspace.writeReport report) tree).1 = .ok ()) ∧
        (report.failures ≠ [] ∨ diagnosticsOf scan? ≠ [])) ∧
      (dryRun = true → ended.2.files = tree) ∧
      ∀ settings d scan? report, Renders tree setup.root stored files settings d scan? report →
        (dryRun = true →
          ended.2.out = printed (setup.loadLines scan? ++ setup.listing report)) ∧
        (dryRun = false → ended.2.files = (endOf (Workspace.writeReport report) tree).2) := by
  refine ⟨fun root settings d inputs plan hplan => ?_, fun arguments allowColours options files
    stored dryRun hrequest => ⟨⟨fun hcode => ?_, ?_⟩, fun hdry => ?_,
      fun settings d scan? report h => ?_⟩⟩
  · have hreport : Workspace.transform tree root settings d inputs =
        .ok (Workspace.render tree d plan) := by
      rw [Workspace.transform, hplan]
      rfl
    obtain ⟨hwritten, hfailures, hlength⟩ := Workspace.foldr_reportOn
      (fun planned => Workspace.transformFile tree d planned.source) plan
    refine ⟨_, hreport, hwritten, hfailures, hlength, fun grown hgrown hapart => ?_⟩
    obtain ⟨hfiles, hplaces⟩ := Workspace.locate_of_forM_writeBelow hrooted hgrown hapart
    refine ⟨fun file hfile => ?_, hplaces⟩
    obtain ⟨place, modified, hlocate⟩ := hfiles file hfile
    exact FileTree.readText_of_locate hlocate
  · by_contra hnone
    refine (run_of_not_renders hrequest allowColours fun settings d scan? report h =>
      hnone ?_).1 hcode
    exact ⟨settings, d, scan?, report, h, (run_of_renders hrequest allowColours h).1.mp hcode⟩
  · rintro ⟨settings, d, scan?, report, h, hended⟩
    exact (run_of_renders hrequest allowColours h).1.mpr hended
  · by_cases hrenders : ∃ settings d scan? report,
        Renders tree (options.setup allowColours tree).root stored files settings d scan? report
    · obtain ⟨settings, d, scan?, report, h⟩ := hrenders
      exact ((run_of_renders hrequest allowColours h).2.1 hdry).1
    · simp only [not_exists] at hrenders
      exact (run_of_not_renders hrequest allowColours hrenders).2
  · obtain ⟨-, hdry, hwritten⟩ := run_of_renders hrequest allowColours h
    exact ⟨fun hdryRun => (hdry hdryRun).2, hwritten⟩

/-- A workspace with a template, another one where its rendered form is written, and a document. -/
def chained : FileTree where
  entries := [([], .directory),
    (["a.md".toList], .file (.text ['1']) ⟨0, 0⟩),
    (["a.generated.md".toList], .file (.text ['2']) ⟨0, 0⟩),
    (["d.json".toList], .file (.text "\x7b\x7d".toList) ⟨0, 0⟩)]
  working := []
  now := ⟨0, 0⟩
  nodup := by decide

/-- The second template is rendered as it was before the first was written in its place, a template
that is not there fails, and a dry run lists the two that are rendered. -/
theorem transform_is_isolated_chained :
    let inputs : List Path := ["a.md", "a.generated.md", "b.md"].map fun s => ⟨s.toList⟩
    let options : List Bytes := ["transform", "--doc", "d.json"].map fun s => s.toList
    let dry := run (options ++ Text.utf8 "--dry-run".toList :: inputs.map Path.bytes) false chained
    (∃ report grown, Workspace.transform chained ⟨"/".toList⟩ {} .empty inputs = .ok report ∧
      endOf (Workspace.writeReport report) chained = (.ok (), grown) ∧
      grown.readText ⟨"/a.generated.md".toList⟩ = .ok ['1'] ∧
      grown.readText ⟨"/a.generated.generated.md".toList⟩ = .ok ['2']) ∧
    (run (options ++ inputs.map Path.bytes) false chained).1.code = 1 ∧
    dry.2.files = chained ∧
    dry.2.out = printed ["Dry run: would write 2 file(s):".toList,
      "  a.md -> a.generated.md".toList,
      "  a.generated.md -> a.generated.generated.md".toList] := by
  intro inputs options dry
  let written : List Rendered := [⟨⟨⟨"/a.md".toList⟩, ⟨"/a.generated.md".toList⟩⟩, ['1']⟩,
    ⟨⟨⟨"/a.generated.md".toList⟩, ⟨"/a.generated.generated.md".toList⟩⟩, ['2']⟩]
  let failed : Planned := ⟨⟨"/b.md".toList⟩, ⟨"/b.generated.md".toList⟩⟩
  let report : Report := ⟨written, [(failed.source, .file .notFound)]⟩
  let grown := (chained.put ["a.generated.md".toList] (.file (.text ['1']) ⟨0, 0⟩)).put
    ["a.generated.generated.md".toList] (.file (.text ['2']) ⟨0, 0⟩)
  have hplan : Workspace.plan chained ⟨"/".toList⟩ {} inputs =
      .ok (written.map Rendered.toPlanned ++ [failed]) := by decide +kernel
  have hreport : Workspace.transform chained ⟨"/".toList⟩ {} .empty inputs = .ok report := by
    decide +kernel
  have hgrown : endOf (Workspace.writeReport report) chained = (.ok (), grown) := by decide +kernel
  have hfirst : grown.place? ⟨"/a.generated.md".toList⟩ =
      some (["a.generated.md".toList] : Place) := by decide +kernel
  have hsecond : grown.place? ⟨"/a.generated.generated.md".toList⟩ =
      some (["a.generated.generated.md".toList] : Place) := by decide +kernel
  have hapart : report.LeadsApart grown := by
    refine List.pairwise_pair.mpr ?_
    rw [hfirst, hsecond]
    decide
  have hrenders : Renders chained ⟨"/".toList⟩ (some ⟨"d.json".toList⟩) inputs {} .empty none
      report := ⟨⟨by decide +kernel, by decide +kernel⟩, hreport⟩
  have hrooted : chained.IsRooted := FileTree.isRooted_of_forall_mem (by decide)
  obtain ⟨hrender, hrun⟩ := transform_is_isolated hrooted
  obtain ⟨report', hreport', -, -, -, hwrites⟩ := hrender ⟨"/".toList⟩ {} .empty inputs _ hplan
  obtain rfl := Except.ok.inj (hreport.symm.trans hreport')
  obtain ⟨hone, hmore⟩ := List.forall_mem_cons.mp (hwrites grown hgrown hapart).1
  obtain ⟨htwo, -⟩ := List.forall_mem_cons.mp hmore
  obtain ⟨hcode, -, -⟩ := hrun (options ++ inputs.map Path.bytes) false ⟨none, false, false⟩ inputs
    (some ⟨"d.json".toList⟩) false (by decide)
  obtain ⟨-, hsame, hlisted⟩ := hrun
    (options ++ Text.utf8 "--dry-run".toList :: inputs.map Path.bytes) false
    ⟨none, false, false⟩ inputs (some ⟨"d.json".toList⟩) true (by decide)
  refine ⟨⟨report, grown, hreport, hgrown, hone, htwo⟩,
    hcode.mpr ⟨{}, .empty, none, report, hrenders, .inr ?_, .inl (List.cons_ne_nil _ _)⟩,
    hsame rfl, ?_⟩
  · rw [hgrown]
  · refine ((hlisted {} .empty none report hrenders).1 rfl).trans (congrArg printed ?_)
    decide +kernel

/-- A workspace with two templates, one of which is reached from the directory of templates. -/
def besideEntry : FileTree where
  entries := [([], .directory), (["docs".toList], .directory), (["out".toList], .directory),
    (["a.md".toList], .file (.text ['1']) ⟨0, 0⟩),
    (["a.generated.md".toList], .file (.text ['2']) ⟨0, 0⟩)]
  working := []
  now := ⟨0, 0⟩
  nodup := by decide

/-- Destinations that are different paths may lead to one file: the text of the first template is
lost when the second is written. -/
theorem different_destinations_overwrite :
    let settings : Settings := { entry := some ⟨"docs".toList⟩, output := some ⟨"out".toList⟩ }
    let inputs : List Path := [⟨"a.md".toList⟩, ⟨"docs/../a.generated.md".toList⟩]
    besideEntry.IsRooted ∧ ∃ plan report grown,
      Workspace.plan besideEntry ⟨"/".toList⟩ settings inputs = .ok plan ∧
      (plan.map Planned.destination).Nodup ∧
      Workspace.transform besideEntry ⟨"/".toList⟩ settings .empty inputs = .ok report ∧
      endOf (Workspace.writeReport report) besideEntry = (.ok (), grown) ∧
      ∃ file ∈ report.written, file.content = ['1'] ∧
        grown.readText file.destination = .ok ['2'] := by
  intro settings inputs
  let first : Rendered := ⟨⟨⟨"/a.md".toList⟩, ⟨"/a.generated.md".toList⟩⟩, ['1']⟩
  let second : Rendered :=
    ⟨⟨⟨"/docs/../a.generated.md".toList⟩, ⟨"/out/../a.generated.md".toList⟩⟩, ['2']⟩
  let grown := besideEntry.put ["a.generated.md".toList] (.file (.text ['2']) ⟨0, 0⟩)
  have hplan : Workspace.plan besideEntry ⟨"/".toList⟩ settings inputs =
      .ok [first.toPlanned, second.toPlanned] := by decide +kernel
  have hreport : Workspace.transform besideEntry ⟨"/".toList⟩ settings .empty inputs =
      .ok ⟨[first, second], []⟩ := by decide +kernel
  have hgrown : endOf (Workspace.writeReport ⟨[first, second], []⟩) besideEntry =
      (.ok (), grown) := by decide +kernel
  have hread : grown.readText first.destination = .ok ['2'] := by decide +kernel
  exact ⟨FileTree.isRooted_of_forall_mem (by decide), _, _, grown, hplan, by decide, hreport,
    hgrown, first, List.mem_cons_self, rfl, hread⟩

end Marginalia.CommandLine
