import Marginalia.Instant
import Marginalia.Text.Bytes

/-!
# File trees

A file tree is what a run finds and leaves on disk: files, directories and links at places, where
a place is the list of names from the top. No two entries have the same place. The order of the
entries is the order in which a directory lists its names, and nothing else depends on it. A run may
lack the permission to list a directory, or to read and write a file. The tree also knows the
directory in which the run works and the time at which it writes.
-/

namespace Marginalia

/-- The names that lead from the top of the tree to an entry. A name is bytes. -/
abbrev Place := List Bytes

/-- What a file holds: a text, bytes that are the form of no text, or something that can be neither
read nor written, of which the number of bytes is known. -/
inductive Content
  | text (t : Text)
  | binary (bytes : Bytes)
  | closed (size : Nat)
deriving DecidableEq

/-- What stands at a place. The target of a link is a path as written. -/
inductive Entry
  | file (content : Content) (modified : Instant)
  | directory (listable : Bool := true)
  | link (target : Bytes)
deriving DecidableEq

namespace Content

/-- The content that bytes stand for. -/
def ofBytes (bytes : Bytes) : Content :=
  match String.fromUTF8? ⟨bytes.toArray⟩ with
  | some s => .text s.toList
  | none => .binary bytes

/-- The number of bytes. -/
def size : Content → Nat
  | text t => t.byteLength
  | binary bytes => bytes.length
  | closed size => size

/-- The lines up to the first that is the form of no text, each with its line feed. -/
def readable : Content → Text
  | text t => t
  | binary bytes =>
    let read? (line : Bytes) := (String.fromUTF8? ⟨line.toArray⟩).map String.toList
    (((bytes.splitOn 10).map read?).takeWhile Option.isSome).flatMap fun line =>
      line.getD [] ++ ['\n']
  | closed _ => []

/-- Whether the content can be neither read nor written. -/
def isClosed : Content → Bool
  | closed _ => true
  | _ => false

end Content

/-- Whether an entry is a directory. -/
def Entry.isDirectory : Entry → Bool
  | directory _ => true
  | _ => false

/-- Put an entry at a place, where another one may stand. -/
def setEntry (place : Place) (entry : Entry) : List (Place × Entry) → List (Place × Entry)
  | [] => [(place, entry)]
  | (p, old) :: rest =>
    if p = place then (place, entry) :: rest else (p, old) :: setEntry place entry rest

/-- The places after putting an entry are its place and the places from before. -/
theorem fst_mem_setEntry {place p : Place} {entry : Entry} {entries : List (Place × Entry)} :
    p ∈ (setEntry place entry entries).map Prod.fst ↔
      p = place ∨ p ∈ entries.map Prod.fst := by
  induction entries with
  | nil => simp [setEntry]
  | cons e rest ih =>
    obtain ⟨q, old⟩ := e
    by_cases h : q = place
    · simp [setEntry, h]
    · simp only [setEntry, if_neg h, List.map_cons, List.mem_cons, ih]
      exact or_left_comm

/-- Putting an entry repeats no place. -/
theorem nodup_setEntry {place : Place} {entry : Entry} {entries : List (Place × Entry)}
    (h : (entries.map Prod.fst).Nodup) : ((setEntry place entry entries).map Prod.fst).Nodup := by
  induction entries with
  | nil => simp [setEntry]
  | cons e rest ih =>
    obtain ⟨q, old⟩ := e
    obtain ⟨hq, hrest⟩ := List.nodup_cons.1 h
    by_cases hp : q = place
    · subst hp
      simpa [setEntry] using ⟨by simpa using hq, hrest⟩
    · rw [setEntry, if_neg hp]
      refine List.nodup_cons.2 ⟨fun hm => ?_, ih hrest⟩
      rcases fst_mem_setEntry.1 hm with hm | hm
      · exact hp hm
      · exact hq hm

/-- Entries at different places, the directory of the run and the time at which it writes. -/
structure FileTree where
  entries : List (Place × Entry)
  working : Place
  now : Instant
  nodup : (entries.map Prod.fst).Nodup
deriving DecidableEq

namespace FileTree

/-- The tree with a directory at the top and nothing else. -/
def empty (now : Instant) : FileTree where
  entries := [([], .directory)]
  working := []
  now := now
  nodup := by simp

/-- What stands at a place. -/
def entryAt? (tree : FileTree) (place : Place) : Option Entry :=
  tree.entries.lookup place

/-- Whether a directory stands at a place. -/
def directoryAt (tree : FileTree) (place : Place) : Bool :=
  (tree.entryAt? place).any Entry.isDirectory

/-- Whether a directory stands at a place and cannot be listed. -/
def closedAt (tree : FileTree) (place : Place) : Bool :=
  tree.entryAt? place == some (.directory false)

/-- The places of directories. -/
def directories (tree : FileTree) : List Place :=
  (tree.entries.filter fun e => e.2.isDirectory).map Prod.fst

/-- Put an entry at a place. -/
def put (tree : FileTree) (place : Place) (entry : Entry) : FileTree :=
  { tree with
    entries := setEntry place entry tree.entries
    nodup := nodup_setEntry tree.nodup }

/-- Take away what stands at a place and below it. -/
def remove (tree : FileTree) (place : Place) : FileTree :=
  { tree with
    entries := tree.entries.filter fun e => !place.isPrefixOf e.1
    nodup := tree.nodup.sublist (List.filter_sublist.map Prod.fst) }

/-- The names in a directory, in the order in which it lists them. -/
def names (tree : FileTree) (place : Place) : List Bytes :=
  tree.entries.filterMap fun e => if e.1.dropLast = place then e.1.getLast? else none

/-- The names that a run finds in a directory: none if it cannot be listed. -/
def listed (tree : FileTree) (place : Place) : List Bytes :=
  if tree.closedAt place then [] else tree.names place

/-- Looking an entry up behind putting one. -/
theorem lookup_setEntry {place p : Place} {entry : Entry} {entries : List (Place × Entry)} :
    (setEntry place entry entries).lookup p =
      if p = place then some entry else entries.lookup p := by
  induction entries with
  | nil =>
    by_cases h : p = place
    · simp [setEntry, h]
    · simp [setEntry, List.lookup_cons, beq_false_of_ne h, h]
  | cons e rest ih =>
    obtain ⟨q, old⟩ := e
    by_cases hq : q = place
    · subst hq
      by_cases h : p = q
      · simp [setEntry, h]
      · simp [setEntry, List.lookup_cons, beq_false_of_ne h, h]
    · by_cases h : p = place
      · subst h
        simp [setEntry, List.lookup_cons, hq, beq_false_of_ne (Ne.symm hq), ih]
      · simp [setEntry, hq, List.lookup_cons, ih, h]

/-- A place with a directory is among the places of directories. -/
theorem mem_directories_of_directoryAt {tree : FileTree} {place : Place}
    (h : tree.directoryAt place = true) : place ∈ tree.directories := by
  obtain ⟨entry, hentry, hdirectory⟩ := (Option.any_eq_true _ _).1 h
  obtain ⟨before, behind, he, _⟩ := List.lookup_eq_some_iff.1 hentry
  exact List.mem_map.2 ⟨(place, entry), List.mem_filter.2 ⟨by simp [he], hdirectory⟩, rfl⟩

/-- After putting an entry it stands at its place, and every other place is as before. -/
theorem entryAt?_put {tree : FileTree} {place p : Place} {entry : Entry} :
    (tree.put place entry).entryAt? p = if p = place then some entry else tree.entryAt? p :=
  lookup_setEntry

end FileTree

end Marginalia
