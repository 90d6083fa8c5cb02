import Marginalia.Text.Bytes
import Marginalia.Text.Order

/-!
# Paths

A path is kept as written, in bytes, and read as a sequence of components. Slashes that repeat or
end a path and single dots inside it make no component, so paths that differ only there have the
same components; a dot at the start of a relative path does make one. Cutting a path keeps the
written form of what is left, up to such slashes and dots at the place of the cut.

Where a path is shown, and in the name of a rendered form, bytes that are the form of no text are
replaced.
-/

namespace Marginalia

open Text Bytes

/-- A component of a path. -/
inductive Component
  | root
  | current
  | parent
  | name (name : Bytes)
deriving DecidableEq

/-- A path as written. -/
structure Path where
  bytes : Bytes
deriving DecidableEq, Inhabited

namespace Component

/-- The place of a kind of component in the order of components. -/
def rank : Component → Nat
  | root => 0
  | current => 1
  | parent => 2
  | name _ => 3

/-- The bytes that decide between components of one kind. -/
def label : Component → Bytes
  | name n => n
  | _ => []

/-- Whether a component comes before another: by kind, and names in the order of their bytes. -/
def before (a b : Component) : Bool :=
  a.rank < b.rank || (a.rank == b.rank && comesBefore UInt8.toNat a.label b.label)

end Component

namespace Path

/-- The path that a text writes. -/
def ofText (t : Text) : Path :=
  ⟨t.utf8⟩

/-- A path as it is shown. -/
def display (p : Path) : Text :=
  p.bytes.lossy

/-- Whether a path starts at the root of the file system. -/
def isAbsolute (p : Path) : Bool :=
  p.bytes.head? == some slash

/-- A name between slashes as a component, if it makes one inside a path. -/
def innerComponent? (part : Bytes) : Option Component :=
  if part = [] ∨ part = [dot] then none
  else if part = [dot, dot] then some .parent
  else some (.name part)

/-- The components of a written path behind its start, each with what is written behind it. -/
def innerSteps (t : Bytes) : List (Component × Bytes) :=
  let found := (innerComponent? (t.takeWhile (· ≠ slash))).toList
  match _h : t.dropWhile (· ≠ slash) with
  | [] => found.map fun c => (c, [])
  | b :: rest => found.map (fun c => (c, b :: rest)) ++ innerSteps rest
termination_by t.length
decreasing_by
  have h := (List.dropWhile_sublist (l := t) fun b => decide (b ≠ slash)).length_le
  rw [_h] at h
  exact h

/-- Whether a byte in front of others adds no name: a slash, or a dot before a slash or at the
end. -/
def isBare (b : UInt8) (rest : Bytes) : Bool :=
  b == slash || b == dot && (rest.isEmpty || rest.head? == some slash)

/-- The start of a written path that no cut at its end reaches, and the rest. -/
def splitStart (p : Path) : Bytes × Bytes :=
  match p.bytes with
  | [] => ([], [])
  | b :: rest => if isBare b rest then ([b], rest) else ([], b :: rest)

/-- The component of the start of a path. -/
def startComponent? (start : Bytes) : Option Component :=
  if start = [slash] then some .root
  else if start = [dot] then some .current
  else none

/-- The components of a path, each with what is written behind it. -/
def steps (p : Path) : List (Component × Bytes) :=
  let (start, rest) := p.splitStart
  ((startComponent? start).toList.map fun c => (c, rest)) ++ innerSteps rest

/-- The components of a path. -/
def components (p : Path) : List Component :=
  p.steps.map Prod.fst

/-- The order of paths: component by component, a shorter path before its extensions. -/
def leComponents : List Component → List Component → Bool
  | [], _ => true
  | _ :: _, [] => false
  | a :: p, b :: q => a.before b || (a == b && leComponents p q)

/-- Whether a path comes before another or has the same components. -/
def le (p q : Path) : Bool :=
  leComponents p.components q.components

/-- Bytes without slashes and dots at their front. -/
def trimFront : Bytes → Bytes
  | [] => []
  | b :: rest => if isBare b rest then trimFront rest else b :: rest

/-- Bytes without slashes and dots at their end. -/
def trimBack (t : Bytes) : Bytes :=
  (trimFront t.reverse).reverse

/-- The path without slashes and dots at its end. -/
def trimmed (p : Path) : Path :=
  ⟨p.splitStart.1 ++ trimBack p.splitStart.2⟩

/-- What is left of a path behind another one whose components it starts with. -/
def stripPrefix? (p base : Path) : Option Path :=
  let count := base.components.length
  if p.components.take count = base.components then
    match count with
    | 0 => some p.trimmed
    | n + 1 => (p.steps[n]?).map fun step => ⟨trimBack (trimFront step.2)⟩
  else none

/-- The last component of a path, if it is a name. -/
def fileName? (p : Path) : Option Bytes :=
  match p.components.getLast? with
  | some (.name n) => some n
  | _ => none

/-- The path without its last component, unless that is the root. -/
def parent? (p : Path) : Option Path :=
  let (start, rest) := p.splitStart
  match trimFront rest.reverse with
  | [] => if start = [dot] then some ⟨[]⟩ else none
  | back => some ⟨start ++ (trimFront ((back.dropWhile (· ≠ slash)).drop 1)).reverse⟩

/-- A path and the paths above it, as many as there are up to a number. -/
def ancestorsUpTo : Nat → Path → List Path
  | 0, p => [p]
  | n + 1, p => p :: ((p.parent?.map (ancestorsUpTo n)).getD [])

/-- A path and the paths above it, from the innermost. -/
def ancestors (p : Path) : List Path :=
  ancestorsUpTo p.bytes.length p

/-- The part of a file name before its last dot, and the part behind it. A name with no dot but
perhaps one at its front has no part behind. -/
def splitName (name : Bytes) : Bytes × Option Bytes :=
  let extension := (name.reverse.takeWhile (· ≠ dot)).reverse
  let stem := (((name.reverse.dropWhile (· ≠ dot)).drop 1)).reverse
  if stem.isEmpty then (name, none) else (stem, some extension)

/-- The extension of the file name, without its dot. -/
def extension? (p : Path) : Option Bytes :=
  p.fileName?.bind fun name => (splitName name).2

/-- The extension of the file name as a text, if it is the form of one. -/
def extensionText? (p : Path) : Option Text :=
  p.extension?.bind Bytes.text?

/-- The file name without its extension. -/
def stem? (p : Path) : Option Bytes :=
  p.fileName?.map fun name => (splitName name).1

/-- A path read from the place of another. An absolute path stands for itself. -/
def join (p q : Path) : Path :=
  if q.isAbsolute ∨ p.bytes = [] then q
  else if p.bytes.getLast? = some slash then ⟨p.bytes ++ q.bytes⟩
  else ⟨p.bytes ++ slash :: q.bytes⟩

/-- The path with another file name in the place of its own, or with one added if it has none. -/
def withFileName (p : Path) (name : Bytes) : Path :=
  (if p.fileName?.isSome then p.parent?.getD p else p).join ⟨name⟩

/-- A path as it is shown when it is read from a root, as a whole if it is not below it. -/
def shownFrom (p root : Path) : Text :=
  ((p.stripPrefix? root).getD p).display

/-- A path as it is shown from a root, with slashes for backslashes. -/
def relativeTo (p root : Path) : Text :=
  replaceChar '\\' '/' (p.shownFrom root)

/-- Whether the extension, in any case, is one of markdown. -/
def isMarkdown (p : Path) : Bool :=
  match p.extensionText? with
  | some e => ["md".toList, "mdx".toList, "markdown".toList].contains (toAsciiLower e)
  | none => false

/-- The path of the rendered form of a template that has no other place: the word `generated`
before the extension, in a name that is a text. -/
def generated (p : Path) : Path :=
  let stem := (p.stem?.getD []).lossy ++ ".generated".toList
  p.withFileName ((p.extension?.map fun e => stem ++ '.' :: e.lossy).getD stem).utf8

end Path

end Marginalia
