import Marginalia.Glob.Pattern
import Marginalia.Text.Bytes

/-!
# Matching glob patterns

A pattern is matched against the bytes of a path. Each token turns the rests of the path at which
it may start into those at which it may end, so matching takes no more steps than there are tokens
and rests. In a class, a character of several bytes counts as its bytes. Whether a star or a
question mark takes a slash is up to the use of the pattern.
-/

namespace Marginalia.Glob

open Bytes

/-- The bytes of a character in UTF-8. -/
def bytesOf (c : Char) : Bytes :=
  String.utf8EncodeChar c

/-- Whether a byte lies in a range of characters. Of a range between characters of several bytes,
the range from the last byte of the first to the first byte of the second is meant, and the other
bytes by themselves. -/
def inRange (b : UInt8) (range : Char × Char) : Bool :=
  let low := bytesOf range.1
  let high := bytesOf range.2
  if range.1 = range.2 then b ∈ low
  else
    b ∈ low.dropLast || b ∈ high.drop 1 ||
      (low.getLast?.getD 0 ≤ b && b ≤ high.head?.getD 0)

/-- What is left of bytes behind others that they start with. -/
def restAfter : Bytes → Bytes → List Bytes
  | [], s => [s]
  | _ :: _, [] => []
  | a :: front, b :: s => if a = b then restAfter front s else []

/-- Every rest of bytes, the whole first. -/
def rests : Bytes → List Bytes
  | [] => [[]]
  | b :: s => (b :: s) :: rests s

/-- The rests of bytes up to and with the first that starts with a slash. -/
def restsInName : Bytes → List Bytes
  | [] => [[]]
  | b :: s => if b = slash then [b :: s] else (b :: s) :: restsInName s

/-- The rests of bytes behind a slash. -/
def restsBehindSlash : Bytes → List Bytes
  | [] => []
  | b :: s => if b = slash then s :: restsBehindSlash s else restsBehindSlash s

mutual

/-- Whether a token stands for nothing at all: alternatives without a branch that says
something. -/
def isVoid : Token → Bool
  | .alternatives branches => branchesAreVoid branches
  | _ => false

/-- Whether every token of a list stands for nothing. -/
def areVoid : List Token → Bool
  | [] => true
  | t :: ts => isVoid t && areVoid ts

/-- Whether every token of every branch stands for nothing. -/
def branchesAreVoid : List (List Token) → Bool
  | [] => true
  | b :: bs => areVoid b && branchesAreVoid bs

end

mutual

/-- The rests at which a token may end that starts at a rest. -/
def endings (starsStopAtSlash : Bool) : Token → Bytes → List Bytes
  | .literal c, s => restAfter (bytesOf c) s
  | .any, [] => []
  | .any, b :: s => if starsStopAtSlash && b == slash then [] else [s]
  | .star, s => if starsStopAtSlash then restsInName s else rests s
  | .leadingDirectories, s => s :: restAfter [slash] s ++ restsBehindSlash s
  | .innerDirectories, s => (restAfter [slash] s).flatMap fun r => r :: restsBehindSlash r
  | .everythingBelow, s => (restAfter [slash] s).flatMap rests
  | .charClass _ _, [] => []
  | .charClass negated ranges, b :: s => if ranges.any (inRange b) != negated then [s] else []
  | .alternatives branches, s =>
    if branchesAreVoid branches then [s] else branchEndings starsStopAtSlash branches s

/-- The rests at which the branches that say something may end. -/
def branchEndings (starsStopAtSlash : Bool) : List (List Token) → Bytes → List Bytes
  | [], _ => []
  | b :: bs, s =>
    (if areVoid b then [] else allEndings starsStopAtSlash b [s]) ++
      branchEndings starsStopAtSlash bs s

/-- The rests at which a list of tokens may end that starts at one of some rests. -/
def allEndings (starsStopAtSlash : Bool) :
    List Token → List Bytes → List Bytes
  | [], starts => starts
  | t :: ts, starts =>
    allEndings starsStopAtSlash ts (starts.flatMap (endings starsStopAtSlash t)).eraseDups

end

/-- Whether a pattern fits a whole path. Two stars alone fit every path. -/
def fits (starsStopAtSlash : Bool) (pattern : List Token) (path : Bytes) : Bool :=
  match pattern with
  | [.leadingDirectories] => true
  | tokens => [] ∈ allEndings starsStopAtSlash tokens [path]

end Marginalia.Glob
