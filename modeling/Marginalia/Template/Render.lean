import Marginalia.Template.LineRange
import Marginalia.Template.Method
import Marginalia.Template.Piece

/-!
# Rendering

A template is rendered in two steps. First the marks of conditional sections are matched like
brackets and lines are taken out: the lines between the marks of a false guard with the marks, and
the lines of all other marks. Then each call that is left is replaced by its value, in which
nothing is looked for again. Each step works from the end of the template, so of several failures
the last one in the template is reported.
-/

namespace Marginalia.Template

open Text

/-- A conditional section: its guard and the offsets of its two marks. -/
structure Conditional where
  guard : Call
  start : Nat
  stop : Nat
deriving DecidableEq

/-- The marks of a template: the sections in the order of their ends, and the offsets of the marks
that belong to no section. -/
structure Marks where
  sections : List Conditional
  loose : List Nat
deriving DecidableEq

/-- Match marks like brackets, given the guards that are open with their offsets, the innermost
first. -/
def matchMarks : List (Call × Nat) → List Placed → Marks
  | pending, [] => ⟨[], pending.map Prod.snd⟩
  | pending, placed :: rest =>
    match placed.expression, pending with
    | .value _, _ => matchMarks pending rest
    | .sectionStart guard, _ => matchMarks ((guard, placed.start) :: pending) rest
    | .sectionEnd, (guard, start) :: outer =>
      let marks := matchMarks outer rest
      { marks with sections := ⟨guard, start, placed.start⟩ :: marks.sections }
    | .sectionEnd, [] =>
      let marks := matchMarks [] rest
      { marks with loose := placed.start :: marks.loose }

/-- The marks of a template. -/
def marks (t : Text) : Marks :=
  matchMarks [] (expressions t)

/-- The values of a false guard. -/
def falseValues : List Text :=
  [[], "false".toList, "0".toList]

/-- Whether a section is kept. A guard about an unknown key is false, and so is one whose value
is empty, zero or the word for false. -/
def holds (d : Document) (guard : Call) : Except Failure Bool :=
  match d.note? guard.key with
  | none => .ok false
  | some _ => do
    let value ← guard.evaluate d
    return !falseValues.contains (trim value)

/-- The lines that sections lose, by the table of line starts. -/
def sectionRanges (d : Document) (starts : List Nat) :
    List Conditional → Except Failure (List LineRange)
  | [] => .ok []
  | s :: later => do
    let ranges ← sectionRanges d starts later
    let first := lineOf starts s.start
    let last := lineOf starts s.stop
    if ← holds d s.guard then return .single first :: .single last :: ranges
    else return ⟨first, last⟩ :: ranges

/-- A template without its marks and without the sections whose guards are false. -/
def resolveSections (d : Document) (t : Text) : Except Failure Text := do
  let found := marks t
  let starts := lineStarts t
  let ranges ← sectionRanges d starts found.sections
  return removeLines (found.loose.map (fun start => .single (lineOf starts start)) ++ ranges) t

/-- Pieces with each call replaced by its value. Marks stand as they are written. -/
def splice (d : Document) : List Piece → Except Failure Text
  | [] => .ok []
  | piece :: rest => do
    let behind ← splice d rest
    match piece with
    | .expression _ (.value call) => return (← call.evaluate d) ++ behind
    | other => return other.source ++ behind

/-- The text that a template renders to. -/
def render (d : Document) (t : Text) : Except Failure Text := do
  splice d (pieces (← resolveSections d t))

end Marginalia.Template
