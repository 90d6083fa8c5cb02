import Marginalia.Text.Basic

/-!
# Glob patterns

A pattern is a list of tokens. Stars, question marks, classes in brackets and alternatives in
braces are special, a backslash makes the character behind it ordinary, and two stars that fill
the space between slashes stand for any number of directories. Alternatives nest. Whether a
bracket that never closes is an ordinary character is up to the use of the pattern.
-/

namespace Marginalia.Glob

/-- A token of a pattern. -/
inductive Token
  | literal (c : Char)
  | any
  | star
  | leadingDirectories
  | innerDirectories
  | everythingBelow
  | charClass (negated : Bool) (ranges : List (Char × Char))
  | alternatives (branches : List (List Token))
deriving Inhabited

/-- What reading the inside of brackets leads to. -/
inductive ClassReading
  | closed (ranges : List (Char × Char)) (behind : Text)
  | unclosed
  | reversed

/-- Make a character the end of the last range, given the ranges from the last to the first. -/
def extendLast (c : Char) : List (Char × Char) → Option (List (Char × Char))
  | [] => none
  | (low, _) :: rest => if c < low then none else some ((low, c) :: rest)

/-- Read the inside of brackets behind the mark of negation, given whether this is its first
character, whether a range waits for its end, and the ranges so far from the last to the first. A
closing bracket or hyphen at the front and a hyphen at the end are ordinary. -/
def readClass : Bool → Bool → List (Char × Char) → Text → ClassReading
  | _, _, _, [] => .unclosed
  | first, waiting, ranges, c :: rest =>
    if c = ']' ∧ !first then
      .closed (if waiting then ('-', '-') :: ranges else ranges).reverse rest
    else if c = '-' ∧ !first ∧ !waiting then readClass false true ranges rest
    else if waiting then
      match extendLast c ranges with
      | some extended => readClass false false extended rest
      | none => .reversed
    else readClass false false ((c, c) :: ranges) rest

/-- Alternatives that are open: what stands before their brace and their finished branches, both
from the last to the first. -/
structure OpenBrace where
  before : List Token
  branches : List (List Token)

/-- What has been read of a pattern: the tokens of the branch at hand from the last to the first,
the open braces from the innermost, and whether an opening bracket is ordinary from here on. -/
structure Progress where
  tokens : List Token := []
  braces : List OpenBrace := []
  plainBrackets : Bool := false

namespace Progress

/-- Add a token. -/
def push (p : Progress) (t : Token) : Progress :=
  { p with tokens := t :: p.tokens }

/-- Put a token in the place of the last one, unless that one stands for directories itself. -/
def replaceLast (p : Progress) (t : Token) : Progress :=
  match p.tokens with
  | .leadingDirectories :: _ => p
  | .everythingBelow :: _ => p
  | _ :: rest => { p with tokens := t :: rest }
  | [] => { p with tokens := [t] }

/-- Open a brace. -/
def openBrace (p : Progress) : Progress :=
  { p with tokens := [], braces := ⟨p.tokens, []⟩ :: p.braces }

/-- A comma, which separates branches inside braces and is ordinary outside. -/
def comma (p : Progress) : Progress :=
  match p.braces with
  | [] => p.push (.literal ',')
  | brace :: outer =>
    { p with
      tokens := []
      braces := { brace with branches := p.tokens.reverse :: brace.branches } :: outer }

/-- Close the innermost brace, if there is one. -/
def closeBrace (p : Progress) : Option Progress :=
  match p.braces with
  | [] => none
  | brace :: outer =>
    let branches := (p.tokens.reverse :: brace.branches).reverse
    some { p with tokens := .alternatives branches :: brace.before, braces := outer }

/-- Read behind a first star, given the character before it. Two stars that stand between slashes
or ends are one token, which takes the slash behind it along; all other stars stand for
themselves. The result has the last character read and what follows. -/
def star (p : Progress) (previous : Option Char) (rest : Text) :
    Progress × Option Char × Text :=
  let inBraces := !p.braces.isEmpty
  let twoStars (behind : Text) := ((p.push .star).push .star, some '*', behind)
  match rest with
  | '*' :: behind =>
    if p.tokens.isEmpty then
      match behind with
      | [] => (p.push .leadingDirectories, none, [])
      | '/' :: more => (p.push .leadingDirectories, some '/', more)
      | _ => twoStars behind
    else if previous ≠ some '/' ∧ !(inBraces && (previous == some ',' || previous == some '\x7b'))
    then twoStars behind
    else
      match behind with
      | [] => (p.replaceLast .everythingBelow, none, [])
      | '/' :: more => (p.replaceLast .innerDirectories, some '/', more)
      | c :: _ =>
        if inBraces && (c == ',' || c == '\x7d') then
          (p.replaceLast .everythingBelow, some '*', behind)
        else twoStars behind
  | _ => (p.push .star, some '*', rest)

end Progress

/-- Read a pattern, with a budget of steps, the last character read and what is read so far. -/
def readFrom (bracketsMayStayOpen : Bool) :
    Nat → Option Char → Progress → Text → Option Progress
  | _, _, p, [] => some p
  | 0, _, _, _ :: _ => none
  | budget + 1, previous, p, c :: rest =>
    let next := readFrom bracketsMayStayOpen budget
    if c = '?' then next (some c) (p.push .any) rest
    else if c = '*' then
      let (q, last, behind) := p.star previous rest
      next last q behind
    else if c = '[' ∧ !p.plainBrackets then
      let (negated, inside) := match rest with
        | '!' :: inside => (true, inside)
        | '^' :: inside => (true, inside)
        | inside => (false, inside)
      match readClass true false [] inside with
      | .closed ranges behind => next (some ']') (p.push (.charClass negated ranges)) behind
      | .unclosed =>
        if bracketsMayStayOpen then
          next (some c) { p.push (.literal '[') with plainBrackets := true } rest
        else none
      | .reversed => none
    else if c = '\x7b' then next (some c) p.openBrace rest
    else if c = '\x7d' then
      match p.closeBrace with
      | some q => next (some c) q rest
      | none => none
    else if c = ',' then next (some c) p.comma rest
    else if c = '\\' then
      match rest with
      | [] => none
      | e :: behind => next (some e) (p.push (.literal e)) behind
    else next (some c) (p.push (.literal c)) rest

/-- The tokens of a pattern, unless a brace, a range or an escape in it is wrong. -/
def parse? (bracketsMayStayOpen : Bool) (pattern : Text) : Option (List Token) :=
  (readFrom bracketsMayStayOpen pattern.length none {} pattern).bind fun p =>
    if p.braces.isEmpty then some p.tokens.reverse else none

end Marginalia.Glob
