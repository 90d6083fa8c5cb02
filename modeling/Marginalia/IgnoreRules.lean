import Marginalia.Failure
import Marginalia.Glob.Match
import Marginalia.Path
import Marginalia.Text.Blank

/-!
# Ignore rules

An ignore rule is a line with a glob pattern: an exclamation mark in front of it keeps what it
fits, a slash at its end limits it to directories, and a pattern without any other slash fits at
every depth. Of the rules that fit a path the last one decides. Paths are read from the directory
to which the rules belong.
-/

namespace Marginalia

open Text Bytes

/-- A rule about the paths that a pattern fits: they are kept or ignored. -/
structure IgnoreRule where
  keeps : Bool
  directoriesOnly : Bool
  pattern : List Glob.Token

namespace IgnoreRule

/-- A line without blanks at its end, unless the last of them is escaped. -/
def trimLine (line : Text) : Text :=
  if "\\ ".toList <:+ line then line else trimEnd line

/-- What a line says before its pattern is read: whether it keeps, whether the pattern starts at
the directory of the rules, and the pattern. -/
def openLine : Text → Bool × Bool × Text
  | '\\' :: '!' :: rest => (false, false, '!' :: rest)
  | '\\' :: '#' :: rest => (false, false, '#' :: rest)
  | '!' :: '/' :: rest => (true, true, rest)
  | '!' :: rest => (true, false, rest)
  | '/' :: rest => (false, true, rest)
  | line => (false, false, line)

/-- Whether a pattern is limited to directories by a slash at its end, and the pattern without
that slash and without a backslash that escapes it. -/
def closeLine (pattern : Text) : Bool × Text :=
  if pattern.getLast? = some '/' then
    let body := pattern.dropLast
    (true, if body.getLast? = some '\\' then body.dropLast else body)
  else (false, pattern)

/-- Two stars and a slash: any number of directories. -/
def anyDirectories : Text :=
  "**/".toList

/-- The pattern of a whole path: one without a slash may stand at any depth, and one for
everything below a directory does not fit the directory. -/
def wholePattern (anchored : Bool) (pattern : Text) : Text :=
  let placed :=
    if anchored ∨ '/' ∈ pattern ∨ pattern = "**".toList then pattern
    else anyDirectories ++ pattern
  if "/**".toList <:+ placed then placed ++ "/*".toList else placed

/-- The rule of a line, if it has one: comments and blank lines have none. -/
def parse (line : Text) : Except Failure (Option IgnoreRule) :=
  let trimmed := trimLine line
  if line.head? = some '#' ∨ trimmed = [] then .ok none
  else
    let (keeps, anchored, body) := openLine trimmed
    let (directoriesOnly, pattern) := closeLine body
    match Glob.parse? true (wholePattern anchored pattern) with
    | some tokens => .ok (some ⟨keeps, directoriesOnly, tokens⟩)
    | none => .error (.pattern line)

/-- Whether a rule is about a path. -/
def appliesTo (rule : IgnoreRule) (path : Bytes) (isDirectory : Bool) : Bool :=
  (isDirectory || !rule.directoriesOnly) && Glob.fits true rule.pattern path

end IgnoreRule

/-- Rules and the written form of the directory to which they belong. -/
structure IgnoreRules where
  base : Bytes
  rules : List IgnoreRule

namespace IgnoreRules

/-- A written path without a dot and a slash in front. -/
def withoutDot (path : Bytes) : Bytes :=
  (after? [dot, slash] path).getD path

/-- No rules. -/
def empty : IgnoreRules :=
  ⟨[], []⟩

/-- The rules of some lines for a directory; the first line that is no rule makes them fail. -/
def ofLines (base : Path) (lines : List Text) : Except Failure IgnoreRules := do
  return ⟨withoutDot base.bytes, (← lines.mapM IgnoreRule.parse).filterMap id⟩

/-- The rules of those lines that can be read. -/
def ofReadable (base : Path) (lines : List Text) : IgnoreRules :=
  ⟨withoutDot base.bytes, lines.filterMap fun line => ((IgnoreRule.parse line).toOption).join⟩

/-- The lines of a file of rules. A carriage return before a line feed ends a line too, and marks
of the byte order in front of the first line are no part of it. -/
def linesOf (t : Text) : List Text :=
  let body := t.dropWhile (· == '\uFEFF')
  (lines body).dropLast.map chomp ++ (lines body).getLast?.toList

/-- A path read from the directory of the rules. A bare file name is not cut. -/
def placeOf (rules : IgnoreRules) (path : Path) : Bytes :=
  let place := withoutDot path.bytes
  if Path.components ⟨rules.base⟩ = [.current] ∨ slash ∉ place then place
  else
    match after? rules.base place with
    | some rest => (after? [slash] rest).getD rest
    | none => place

/-- Whether the rules ignore a path. -/
def ignores (rules : IgnoreRules) (path : Path) (isDirectory : Bool) : Bool :=
  let place := rules.placeOf path
  match rules.rules.reverse.find? (·.appliesTo place isDirectory) with
  | some rule => !rule.keeps
  | none => false

end IgnoreRules

end Marginalia
