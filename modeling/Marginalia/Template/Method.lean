import Marginalia.Document.Basic
import Marginalia.Template.Expression
import Marginalia.Template.Mask
import Marginalia.Template.Quoting

/-!
# Methods

What a call can ask of a note: a field of one occurrence of a tag, the number of occurrences,
whether there are any, a part of the origin, or a line for each occurrence. Arguments are
checked in their order before the note is looked at.
-/

namespace Marginalia.Template

open Text

/-- The methods of a call. -/
inductive Method
  | get
  | count
  | has
  | origin
  | each
deriving DecidableEq

namespace Method

/-- The name of a method as calls write it. -/
def name : Method → Text
  | get => "get".toList
  | count => "count".toList
  | has => "has".toList
  | origin => "meta".toList
  | each => "each".toList

/-- Every method. -/
def all : List Method :=
  [get, count, has, origin, each]

/-- The method with a name. -/
def parse (written : Text) : Except Failure Method :=
  match all.find? (·.name = written) with
  | some m => .ok m
  | none => .error (.unknownMethod written)

end Method

/-- The argument at a position. -/
def argumentAt (m : Method) (arguments : List Text) (position : Nat) : Except Failure Text :=
  match arguments[position]? with
  | some value => .ok value
  | none => .error (.argument m.name position .missing)

/-- The natural number that a text writes, with or without a plus sign, below 2^64. -/
def indexOf? (t : Text) : Option Nat :=
  let digits := match t with
    | '+' :: rest => rest
    | t => t
  (natural? digits).filter (· < wordLimit)

/-- The index at a position, which is zero if there is no argument. -/
def indexAt (m : Method) (arguments : List Text) (position : Nat) : Except Failure Nat :=
  match arguments[position]? with
  | none => .ok 0
  | some value =>
    match indexOf? (trim value) with
    | some n => .ok n
    | none => .error (.argument m.name position .notAnIndex)

/-- The bits that arguments write, the first of which stands at a position. -/
def bits (m : Method) : Nat → List Text → Except Failure (List Bool)
  | _, [] => .ok []
  | position, value :: rest => do
    let bit ←
      if trim value = ['1'] then .ok true
      else if trim value = ['0'] then .ok false
      else .error (.argument m.name position .notABit)
    return bit :: (← bits m (position + 1) rest)

/-- The occurrences of a tag that a note must carry. -/
def occurrences (note : Note) (key tag : Text) : Except Failure (List (List Text)) :=
  match note.occurrences? tag with
  | some found => .ok found
  | none => .error (.unknownTag key tag)

/-- One occurrence of a tag that a note must carry. -/
def occurrence (note : Note) (key tag : Text) (index : Nat) : Except Failure (List Text) := do
  let found ← occurrences note key tag
  match found[index]? with
  | some fields => .ok fields
  | none => .error (.outOfRange key tag index found.length)

/-- A truth value as a template shows it. -/
def showBool (b : Bool) : Text :=
  if b then "true".toList else "false".toList

/-- The value of a method for the note with a key. -/
def Method.run (m : Method) (key : Text) (note : Note) (arguments : List Text) :
    Except Failure Text :=
  match m with
  | get => do
    let tag ← argumentAt m arguments 0
    let index ← indexAt m arguments 1
    let mask ← bits m 2 (arguments.drop 2)
    let fields ← occurrence note key tag index
    if mask.isEmpty then return fields.head?.getD [] else return selectField fields mask
  | count => do
    let tag ← argumentAt m arguments 0
    return Text.ofNat ((note.occurrences? tag).getD []).length
  | has => do
    let tag ← argumentAt m arguments 0
    return showBool (note.occurrences? tag).isSome
  | origin => do
    let field ← argumentAt m arguments 0
    match note.origin.field? field with
    | some value => return value
    | none => throw (.unknownField key field)
  | each => do
    let tag ← argumentAt m arguments 0
    let template ← argumentAt m arguments 1
    return unlines (((note.occurrences? tag).getD []).map fun fields => fillMasks fields template)

/-- The value of a call. The method is looked up before the key. -/
def Call.evaluate (d : Document) (call : Call) : Except Failure Text := do
  let m ← Method.parse call.method
  match d.note? call.key with
  | some note => m.run call.key note (call.arguments.map unquote)
  | none => throw (.unknownKey call.key)

/-- The value of an expression; the mark of a section end has none. -/
def Expression.evaluate (d : Document) : Expression → Except Failure Text
  | value call => call.evaluate d
  | sectionStart guard => guard.evaluate d
  | sectionEnd => .ok []

end Marginalia.Template
