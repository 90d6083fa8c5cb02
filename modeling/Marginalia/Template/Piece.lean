import Marginalia.Template.Expression

/-!
# Pieces of a template

A template is a sequence of pieces: expressions and the characters between them. The texts of the
pieces make up the template. An expression starts at the first place where two opening braces,
blanks and an at sign stand and closing braces follow; when its inside is no expression, all of it
is ordinary text.
-/

namespace Marginalia.Template

open Text

/-- A piece of a template. An expression is kept with its text, braces included. -/
inductive Piece
  | char (c : Char)
  | expression (source : Text) (expression : Expression)
deriving DecidableEq

/-- The text of a piece. -/
def Piece.source : Piece → Text
  | char c => [c]
  | expression source _ => source

/-- What stands in double braces behind an at sign at the start of a text: the inside between the
at sign and the closing braces, and the text from the first brace to the last. -/
structure Candidate where
  inside : Text
  source : Text
deriving DecidableEq

/-- The candidate that a text starts with. -/
def candidate? (t : Text) : Option Candidate :=
  match t with
  | '\x7b' :: '\x7b' :: rest =>
    match trimStart rest with
    | '@' :: behind =>
      (body? behind).map fun inside =>
        { inside := inside
          source := '\x7b' :: '\x7b' :: rest.takeWhile isBlank ++ '@' :: inside ++ closingBraces }
    | _ => none
  | _ => none

/-- The piece or pieces that a candidate is. -/
def Candidate.pieces (c : Candidate) : List Piece :=
  match Expression.parse c.inside with
  | .ok e => [.expression c.source e]
  | .error _ => c.source.map .char

/-- The pieces of a text, behind a number of characters that belong to a piece already. -/
def piecesFrom : Nat → Text → List Piece
  | _, [] => []
  | skip + 1, _ :: rest => piecesFrom skip rest
  | 0, c :: rest =>
    match candidate? (c :: rest) with
    | some found => found.pieces ++ piecesFrom (found.source.length - 1) rest
    | none => .char c :: piecesFrom 0 rest

/-- The pieces of a template. -/
def pieces (t : Text) : List Piece :=
  piecesFrom 0 t

/-- An expression with the offsets of its first byte and of the byte behind its last. -/
structure Placed where
  expression : Expression
  start : Nat
  stop : Nat
deriving DecidableEq

/-- The expressions among pieces, the first of which starts at an offset. -/
def placedFrom : Nat → List Piece → List Placed
  | _, [] => []
  | offset, .char c :: rest => placedFrom (offset + c.utf8Size) rest
  | offset, .expression source e :: rest =>
    let stop := offset + byteLength source
    ⟨e, offset, stop⟩ :: placedFrom stop rest

/-- The expressions of a template, in order. -/
def expressions (t : Text) : List Placed :=
  placedFrom 0 (pieces t)

end Marginalia.Template
