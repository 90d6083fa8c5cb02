import Marginalia.CommandLine.Arguments
import Marginalia.Document.Stored
import Marginalia.Settings.Stored
import Marginalia.Workspace.Scan
import Marginalia.Workspace.Transform

/-!
# Runs of a command

A run reads and changes a file tree and prints lines to its output and to its error output. It
ends with success, with a success that left files out, or with a failure, and its exit code says
which. What was printed and changed up to a failure stays.
-/

namespace Marginalia.CommandLine

open Text Bytes

/-- The state of a run: the files, and what is printed so far. -/
structure Session where
  files : FileTree
  out : Text
  err : Text

/-- Why a run stops early: a failure, which is reported with its code, or a refusal of the file
system, which is reported as it is. -/
inductive Stop
  | failure (cause : Failure)
  | refusal (fault : FileFault)
deriving DecidableEq

/-- A step of a run. -/
abbrev Step := ExceptT Stop (StateM Session)

/-- How a run that does not stop early ends: all was done, or some files were left out. -/
inductive Completion
  | full
  | partly
deriving DecidableEq

/-- Whether everything went well decides on the completion. -/
def Completion.ofClean (clean : Bool) : Completion :=
  if clean then .full else .partly

/-- Print a line to the output. -/
def say (line : Text) : Step Unit :=
  modify fun s => { s with out := s.out ++ line ++ ['\n'] }

/-- Print a line to the error output. -/
def warn (line : Text) : Step Unit :=
  modify fun s => { s with err := s.err ++ line ++ ['\n'] }

/-- Go on with the result of a reading, or stop with its failure. -/
def orFail {α : Type} (result : Except Failure α) : Step α :=
  match result with
  | .ok a => pure a
  | .error cause => throw (.failure cause)

/-- Change the files, or stop for a reason made of the refusal. -/
def onFiles {α : Type} (stop : FileFault → Stop) (action : FileAction FileFault α) : Step α := do
  let session ← get
  let (result, files) := Id.run (action.run.run session.files)
  set { session with files := files }
  match result with
  | .ok a => pure a
  | .error fault => throw (stop fault)

/-- The colours of printed text, by their codes for a terminal. -/
inductive Colour
  | red
  | green
  | yellow
  | bold

/-- The codes that switch a colour on and off. -/
def Colour.codes : Colour → String × String
  | .red => ("31", "39")
  | .green => ("32", "39")
  | .yellow => ("33", "39")
  | .bold => ("1", "0")

/-- A code for a terminal. -/
def terminalCode (code : String) : Text :=
  '\x1b' :: '[' :: code.toList ++ ['m']

/-- A text in a colour, if colours are on. -/
def coloured (colours : Bool) (colour : Colour) (t : Text) : Text :=
  if colours then terminalCode colour.codes.1 ++ t ++ terminalCode colour.codes.2 else t

/-- The circumstances of a run: the root of the workspace, whether it prints more than it needs,
and whether colours are on. -/
structure Setup where
  root : Path
  verbose : Bool
  colours : Bool

namespace Setup

/-- A path as it is shown, read from the root. -/
def shown (setup : Setup) (path : Path) : Text :=
  path.shownFrom setup.root

/-- The lines about what to do with new settings. -/
def nextSteps : List String := [
  "",
  "Next steps:",
  "  1. Annotate your source comments:",
  "     /// @doc add Add",
  "     /// @param a i32 First number",
  "  2. Run `doctag scan` to write the canonical document",
  "  3. Reference it from markdown:",
  "     \x7b\x7b @doc.add:get('param', 0, 0, 1) \x7d\x7d",
  "  4. Run `doctag transform README.md` to render it"]

/-- Write a settings file to start from, unless there is one. -/
def runInit (setup : Setup) : Step Completion := do
  match Settings.find? (← get).files setup.root with
  | some path =>
    say ("Config file already exists: ".toList ++ path.display)
    return .full
  | none =>
    let path := setup.root.join ⟨"doctag.json".toList⟩
    onFiles .refusal (.change fun tree => tree.writeText path Settings.sample.toList)
    say ("Created config file: ".toList ++ path.display)
    nextSteps.forM fun line => say line.toList
    return .full

/-- The place of a diagnostic as it is printed. -/
def placeOf (d : Diagnostic) : Text :=
  match d.line? with
  | some line => d.file ++ ':' :: ofNat line
  | none => d.file

/-- Scan the workspace and print every file that was skipped. -/
def scanAndPrint (setup : Setup) (settings : Settings) : Step ScanResult := do
  let result ← orFail (Workspace.scan (← get).files setup.root settings)
  if setup.verbose then
    say ("Scanned ".toList ++ ofNat result.filesScanned ++ " file(s), found ".toList ++
      ofNat result.document.notes.size ++ " block(s)".toList)
  result.diagnostics.forM fun d =>
    warn (coloured setup.colours .yellow "warning:".toList ++ " skipped ".toList ++ placeOf d ++
      ": ".toList ++ d.cause.message.toList)
  return result

/-- The document to work with: a stored one, or that of a scan. -/
def loadDocument (setup : Setup) (settings : Settings) (stored : Option Path) :
    Step (Document × Completion) := do
  match stored with
  | some path =>
    let t ← orFail (((← get).files.readText (setup.root.join path)).mapError Failure.file)
    return (← orFail (Document.read t), .full)
  | none =>
    let result ← setup.scanAndPrint settings
    return (result.document, .ofClean result.isClean)

/-- Scan the workspace and store its document. -/
def runScan (setup : Setup) (out : Option Path) : Step Completion := do
  let settings ← orFail (Settings.loadOrDefault (← get).files setup.root)
  let result ← setup.scanAndPrint settings
  let path := (out.map setup.root.join).getD (settings.documentPathIn setup.root)
  onFiles (fun fault => .failure (.file fault)) (.writeBelow path result.document.write)
  say (coloured setup.colours .green "Wrote".toList ++ ' ' ::
    ofNat result.document.notes.size ++ " block(s) from ".toList ++ ofNat result.filesScanned ++
    " file(s) to ".toList ++ setup.shown path)
  if !result.isClean then
    warn (ofNat result.diagnostics.length ++
      " file(s) skipped. Fix the errors above and scan again.".toList)
  return .ofClean result.isClean

/-- Print which files would be written. -/
def printDryRun (setup : Setup) (report : Report) : Step Unit := do
  say ("Dry run: would write ".toList ++ ofNat report.written.length ++ " file(s):".toList)
  report.written.forM fun file =>
    say ("  ".toList ++ setup.shown file.source ++ " -> ".toList ++ setup.shown file.destination)

/-- Write the rendered files and print their number. -/
def writeAndPrint (setup : Setup) (report : Report) : Step Unit := do
  onFiles (fun fault => .failure (.file fault)) (Workspace.writeReport report)
  say ("Transformed ".toList ++ ofNat report.written.length ++ " file(s).".toList)
  if setup.verbose then
    report.written.forM fun file => say ("  ".toList ++ setup.shown file.destination)

/-- Render templates and write them, or print what would be written. -/
def runTransform (setup : Setup) (files : List Path) (stored : Option Path) (dryRun : Bool) :
    Step Completion := do
  let settings ← orFail (Settings.loadOrDefault (← get).files setup.root)
  let (d, completion) ← setup.loadDocument settings stored
  let report ← orFail (Workspace.transform (← get).files setup.root settings d files)
  report.failures.forM fun (source, cause) =>
    warn (coloured setup.colours .red "error:".toList ++ ' ' :: setup.shown source ++
      ": ".toList ++ cause.message.toList)
  if report.written.isEmpty && report.isClean then
    say "No templates to transform.".toList
    return completion
  if dryRun then setup.printDryRun report else setup.writeAndPrint report
  if report.isClean then return completion
  warn (ofNat report.failures.length ++ " template(s) failed to render.".toList)
  return .partly

/-- The listed form of a note in JSON. -/
def noteToJson (key : Text) (n : Note) : Json :=
  .object [
    ("key".toList, .ofText key),
    ("label".toList, .ofText n.label),
    ("line".toList, .ofNat n.origin.line),
    ("path".toList, .ofText n.origin.path),
    ("tags".toList, .array (n.tags.keys.map .ofText))]

/-- The listed form of a note as a line. -/
def noteToLine (key : Text) (n : Note) : Text :=
  "  ".toList ++ key ++ " \"".toList ++ n.label ++ "\" ".toList ++ n.origin.location ++
    " [".toList ++ List.intercalate ", ".toList n.tags.keys ++ [']']

/-- List the notes. -/
def runList (setup : Setup) (stored : Option Path) (format : ListFormat) : Step Completion := do
  let settings ← orFail (Settings.loadOrDefault (← get).files setup.root)
  let (d, completion) ← setup.loadDocument settings stored
  match format with
  | .json => say (Json.array (d.notes.entries.map fun (key, n) => noteToJson key n)).compact
  | .text =>
    if d.notes.isEmpty then
      say "No documented blocks found.".toList
    else
      say (coloured setup.colours .bold "Blocks:".toList)
      d.notes.entries.forM fun (key, n) => say (noteToLine key n)
      say ('\n' :: ofNat d.notes.size ++ " block(s)".toList)
  return completion

/-- Run a command. -/
def runCommand (setup : Setup) : Command → Step Completion
  | .init => setup.runInit
  | .scan out => setup.runScan out
  | .transform files document dryRun => setup.runTransform files document dryRun
  | .list document format => setup.runList document format

end Setup

/-- How a run ends. -/
inductive Ending
  | completed (completion : Completion)
  | stopped (stop : Stop)
  | noCommand
  | help
  | version
  | invalid
deriving DecidableEq

/-- The exit code: zero for a full success, one if files were left out, two for every failure. -/
def Ending.code : Ending → Nat
  | .completed .full => 0
  | .completed .partly => 1
  | .stopped _ => 2
  | .noCommand => 2
  | .help => 0
  | .version => 0
  | .invalid => 2

/-- How a command line is written. -/
def usage : List String := [
  "Usage: doctag [OPTIONS] [COMMAND]",
  "",
  "Commands:",
  "  init                     Write a settings file to start from",
  "  scan                     Store the document of the workspace",
  "  transform [FILES]...     Render markdown templates",
  "  list                     List the documented keys",
  "",
  "Options:",
  "  -p, --path <PATH>        The root of the workspace",
  "  -v, --verbose            Print more",
  "      --no-color           Print without colours",
  "  -o, --out <OUT>          Where scan stores the document",
  "      --doc <DOC>          The stored document that transform and list read",
  "      --dry-run            Let transform only print what it would write",
  "      --format <FORMAT>    Whether list prints text or json"]

/-- The lines about how a command line is written. -/
def usageText : Text :=
  usage.flatMap fun line => line.toList ++ ['\n']

/-- What is printed to the output about the end of a run. -/
def Ending.notice : Ending → Text
  | .help => usageText
  | .version => "doctag\n".toList
  | _ => []

/-- What is printed to the error output about the end of a run. The code of a failure stands on
the first line. -/
def Ending.report (colours : Bool) : Ending → Text
  | .completed _ => []
  | .stopped (.failure cause) =>
    let code := if colours then terminalCode "31" ++ cause.code.toList ++ terminalCode "0"
      else cause.code.toList
    let advice := cause.help?.map fun text => "  help: ".toList ++ text.toList ++ ['\n']
    code ++ "\n\n  ".toList ++ cause.message.toList ++ ['\n'] ++ advice.getD []
  | .stopped (.refusal fault) =>
    coloured colours .red "error:".toList ++ ' ' :: fault.message.toList ++ ['\n']
  | .noCommand => "No subcommand specified. Run `doctag --help` for usage.\n".toList
  | .help => []
  | .version => []
  | .invalid => "error: the arguments are not valid\n\n".toList ++ usageText

/-- The path of the working directory. -/
def workingPath (tree : FileTree) : Path :=
  ⟨if tree.working = [] then [slash] else tree.working.flatMap (slash :: ·)⟩

/-- Run what a command line asks for. Colours are on unless the command line or the surroundings
switch them off. -/
def run (arguments : List Bytes) (allowColours : Bool) (tree : FileTree) : Ending × Session :=
  let finish (colours : Bool) (ending : Ending) (session : Session) : Ending × Session :=
    (ending, {
      session with
      out := session.out ++ ending.notice
      err := session.err ++ ending.report colours })
  let fresh : Session := ⟨tree, [], []⟩
  match request arguments with
  | .run options command =>
    let setup : Setup := {
      root := options.root.getD (workingPath tree)
      verbose := options.verbose
      colours := allowColours && !options.noColor }
    match Id.run ((setup.runCommand command).run.run fresh) with
    | (.ok completion, session) => finish setup.colours (.completed completion) session
    | (.error stop, session) => finish setup.colours (.stopped stop) session
  | .noCommand => finish false .noCommand fresh
  | .help => finish false .help fresh
  | .version => finish false .version fresh
  | .invalid => finish false .invalid fresh

end Marginalia.CommandLine
