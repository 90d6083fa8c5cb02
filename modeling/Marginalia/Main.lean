import Marginalia.CommandLine.Run

/-!
# The program

The outer layer: it loads what a command can read from disk into a file tree, runs the command on
the tree, writes back what the run changed, and prints. A link is loaded with the place to which
it leads in the end, so that all places between are directories. A directory that cannot be listed
and a file that cannot be read are loaded as what they are, so that the command reports them. The
disk is asked for names that are texts.
-/

namespace Marginalia.Disk

open CommandLine

/-- Work on a file tree with access to the disk. -/
abbrev Loading := StateT FileTree IO

/-- Bytes as a string of the disk. -/
def shown (bytes : Bytes) : String :=
  String.ofList bytes.lossy

/-- The bytes of a string of the disk. -/
def bytesOf (s : String) : Bytes :=
  s.toList

/-- The written form of a place. -/
def written (place : Place) : Bytes :=
  if place = [] then [Bytes.slash] else place.flatMap (Bytes.slash :: ·)

/-- The place of a written path from the top. -/
def placeOf (path : Bytes) : Place :=
  (FileTree.namesOf path).filter (!·.isEmpty)

/-- What stands at a place on disk. -/
def onDisk (place : Place) : IO.FS.DirEntry where
  root := shown (written place.dropLast)
  fileName := shown (place.getLast?.getD [])

/-- Load a directory, unless it is loaded. -/
def loadDirectory (place : Place) : Loading Unit :=
  modify fun tree => if tree.directoryAt place then tree else tree.put place .directory

/-- Load the directories above a place that is free of links. -/
def loadAbove (place : Place) : Loading Unit :=
  (List.range place.length).forM fun n => loadDirectory (place.take n)

/-- What the file at a place holds, given its size. -/
def contentAt (place : Place) (size : Nat) : IO Content := do
  try
    return .ofBytes (← IO.FS.readBinFile (shown (written place))).toList
  catch _ => return .closed size

/-- Load the file or directory at a place that is free of links. -/
def loadPlain (place : Place) (info : IO.FS.Metadata) : Loading Unit := do
  match info.type with
  | .dir => loadDirectory place
  | .file =>
    let content ← contentAt place info.byteSize.toNat
    modify (·.put place (.file content ⟨info.modified.sec, info.modified.nsec.toNat⟩))
  | _ => pure ()

/-- The path of a name that no file on disk can have. -/
def nowhere : Text :=
  ['/', '\x00']

/-- Load the link at a place. One that leads nowhere is loaded as a link to a name that no file
can have. -/
def loadLink (place : Place) : Loading Place := do
  try
    let target := placeOf (bytesOf (← IO.FS.realPath (shown (written place))).toString)
    modify (·.put place (.link (written target)))
    loadAbove target
    loadPlain target (← (onDisk target).path.metadata)
    return target
  catch _ =>
    modify (·.put place (.link nowhere))
    return place

/-- Load what stands at a place in a directory that is free of links, and return the place to
which it leads. What cannot be reached is left out. -/
def load (place : Place) : Loading Place := do
  match (← get).entryAt? place with
  | some (.link target) => return placeOf target
  | some _ => return place
  | none =>
    try
      let info ← (onDisk place).path.symlinkMetadata
      match info.type with
      | .symlink => loadLink place
      | _ =>
        loadPlain place info
        return place
    catch _ => return place

/-- Load what stands on the way of names from a place. -/
def loadNames (here : Place) : List Bytes → Loading Place
  | [] => return here
  | name :: rest => do
    if name = [] ∨ name = [Bytes.dot] then loadNames here rest
    else if name = [Bytes.dot, Bytes.dot] then loadNames here.dropLast rest
    else loadNames (← load (here ++ [name])) rest

/-- Load what stands on the way of a path, and return the place to which it leads. -/
def loadPath (path : Path) : Loading Place := do
  loadNames ((← get).startOf path) (FileTree.namesOf path.bytes)

/-- The names in the directory at a place, if it can be listed. -/
def namesAt? (place : Place) : IO (Option (List Bytes)) := do
  try
    return some ((← (onDisk place).path.readDir).toList.map fun entry => bytesOf entry.fileName)
  catch _ => return none

/-- Load what a walk from a place can visit. -/
def loadBelow (place : Place) : Loading Unit := do
  let mut pending := [place]
  let mut seen : List Place := []
  while !pending.isEmpty do
    let here := pending.headD []
    pending := pending.tail
    if !seen.contains here && (← get).directoryAt here then
      seen := here :: seen
      match ← namesAt? here with
      | none => modify (·.put here (.directory false))
      | some names =>
        for name in names do
          if !Selection.isSkippedName name then
            pending := (← load (here ++ [name])) :: pending

/-- The paths that a command names. -/
def pathsOf (root : Path) : Command → List Path
  | .init => []
  | .scan out => out.toList.map root.join
  | .transform files document _ => files.map root.join ++ document.toList.map root.join
  | .list document _ => document.toList.map root.join

/-- Load what the settings of a workspace name, and the places of rendered templates. -/
def loadNamed (root : Path) (command : Command) : Loading Unit := do
  match Settings.loadOrDefault (← get) root with
  | .error _ => pure ()
  | .ok settings =>
    let _ ← loadPath (settings.documentPathIn root)
    if let some (entry, _) := Workspace.directories? root settings then
      loadBelow (← loadPath entry)
    if let .transform files _ _ := command then
      if let .ok planned := Workspace.plan (← get) root settings files then
        planned.forM fun file => do
          let _ ← loadPath file.destination

/-- Load what a request can read. -/
def loadRequest (request : Request) : Loading Unit := do
  if let .run options command := request then
    let root := options.root.getD (workingPath (← get))
    loadBelow (← loadPath root)
    let fixed := (⟨".gitignore".toList⟩ :: Settings.candidates).map root.join
    (fixed ++ pathsOf root command).forM fun path => do
      let _ ← loadPath path
    loadNamed root command

/-- Write what differs from the tree that was loaded. -/
def writeBack (before after : FileTree) : IO Unit :=
  after.entries.forM fun (place, entry) => do
    if before.entryAt? place ≠ some entry then
      match entry with
      | .directory _ => IO.FS.createDirAll (shown (written place))
      | .file (.text t) _ => IO.FS.writeFile (shown (written place)) (String.ofList t)
      | _ => pure ()

/-- Run a command line on the disk. -/
def run (arguments : List String) : IO UInt32 := do
  let words := arguments.map bytesOf
  let working := placeOf (bytesOf (← IO.FS.realPath (← IO.currentDir)).toString)
  let start : FileTree := { FileTree.empty ⟨0, 0⟩ with working := working }
  let (_, before) ← ((do loadAbove working; loadRequest (request words)) : Loading Unit).run
    (start.put working .directory)
  let (ending, session) := CommandLine.run words (← IO.getEnv "NO_COLOR").isNone before
  writeBack before session.files
  IO.print (String.ofList session.out)
  IO.eprint (String.ofList session.err)
  return ending.code.toUInt32

end Marginalia.Disk

/-- Run the program. -/
def main (arguments : List String) : IO UInt32 :=
  Marginalia.Disk.run arguments
