import Marginalia.Comment.Style
import Marginalia.Text.Blank

/-!
# Comment fragments

A fragment is one comment of a source text, with its place and its text freed from delimiters and
gutters. The source is read line by line. Between two lines the only state is the block comment
that is still open, so the fragments of two texts written one below the other are those of the
first, followed by those of the second, whenever the first leaves no block open.

A line outside a block comment is tried against the documentation marks, then the plain marks,
both at the start of the line only, and then searched for the opening of a block.
-/

namespace Marginalia.Comment

open Text

/-- The form in which a comment is written. -/
inductive Kind
  | line
  | block
  | docLine
  | docBlock
deriving DecidableEq

/-- Whether a comment is one line behind a mark. -/
def Kind.isLine : Kind → Bool
  | .line | .docLine => true
  | .block | .docBlock => false

/-- One comment of a source text. Lines and columns count from one, columns in bytes; `raw` holds
the source lines from `line` on and `content` starts on the line `contentLine`. -/
structure Fragment where
  raw : Text
  line : Nat
  column : Nat
  kind : Kind
  content : Text
  contentLine : Nat
deriving DecidableEq

/-- The last source line of a comment. -/
def Fragment.endLine (f : Fragment) : Nat :=
  f.line + f.raw.count '\n'

/-- The comment that a line consists of behind one of the marks, the first that fits. An empty
mark fits no line. -/
def lineComment? (kind : Kind) (marks : List Text) (number : Nat) (line : Text) :
    Option Fragment :=
  let start := trimStart line
  (marks.filter (!·.isEmpty)).findSome? fun mark =>
    (after? mark start).map fun rest =>
      { raw := line
        line := number
        column := byteLength line - byteLength start + 1
        kind := kind
        content := trim rest
        contentLine := number }

/-- The place in a line where a block comment opens, with the text before and behind the opening
delimiter. -/
structure Opening where
  kind : Kind
  delimiters : Delimiters
  before : Text
  behind : Text

/-- The first place where the delimiters open a block comment in a line. Delimiters with an empty
opening open none. -/
def opening? (kind : Kind) (delimiters : Option Delimiters) (line : Text) : Option Opening := do
  let d ← delimiters.filter fun d => !d.opening.isEmpty
  let (before, behind) ← cut? d.opening line
  return ⟨kind, d, before, behind⟩

/-- Whether a text starts with a plain block comment that closes at once, such as the four
characters of an empty comment in the slash style. -/
def startsEmptyBlock (style : Style) (t : Text) : Bool :=
  match style.block.filter fun d => !d.opening.isEmpty with
  | none => false
  | some d =>
    match after? d.opening t with
    | none => false
    | some rest => !d.closing.isEmpty && (after? d.closing rest).isSome

/-- The block comment that a line opens. The earliest opening counts and of two at one place the
longer; a documentation opening that is an empty plain comment counts for nothing. -/
def firstOpening? (style : Style) (line : Text) : Option Opening :=
  let plain := opening? .block style.block line
  let doc := (opening? .docBlock style.docBlock line).filter fun o =>
    !startsEmptyBlock style (o.delimiters.opening ++ o.behind)
  match plain, doc with
  | some p, some d =>
    if d.before.length < p.before.length ||
        (d.before.length == p.before.length &&
          p.delimiters.opening.length < d.delimiters.opening.length) then
      some d
    else some p
  | some p, none => some p
  | none, d => d

/-- A block comment that is not yet closed: its source lines and its body, line by line. -/
structure OpenBlock where
  kind : Kind
  closing : Text
  line : Nat
  column : Nat
  raw : List Text
  body : List Text

/-- The text of a body line up to the closing delimiter. An empty delimiter closes nothing. -/
def closeLine? (closing line : Text) : Option Text :=
  if closing.isEmpty then none else (cut? closing line).map Prod.fst

/-- A body line without the star of a gutter and without blanks at its ends. -/
def cleanLine (line : Text) : Text :=
  match trimStart line with
  | '*' :: rest => trim rest
  | rest => trim rest

/-- The fragment that a block comment makes when it ends. Its content starts on the first line
of the body that is not blank. -/
def OpenBlock.finish (b : OpenBlock) : Fragment :=
  let cleaned := b.body.map cleanLine
  let blank := (cleaned.takeWhile (·.isEmpty)).length
  { raw := unlines b.raw
    line := b.line
    column := b.column
    kind := b.kind
    content := trim (unlines cleaned)
    contentLine := if blank < cleaned.length then b.line + blank else b.line }

/-- Read a body line into an open block: either the block ends there or it stays open. -/
def OpenBlock.push (b : OpenBlock) (sourceLine bodyLine : Text) : Fragment ⊕ OpenBlock :=
  match closeLine? b.closing bodyLine with
  | some last => .inl { b with raw := b.raw ++ [sourceLine], body := b.body ++ [last] }.finish
  | none => .inr { b with raw := b.raw ++ [sourceLine], body := b.body ++ [bodyLine] }

/-- The block that starts where a line opens it, before any line is read into it. -/
def Opening.start (o : Opening) (number : Nat) : OpenBlock where
  kind := o.kind
  closing := o.delimiters.closing
  line := number
  column := byteLength o.before + 1
  raw := []
  body := []

/-- What reading one line makes of the open block: a comment that ends on the line, if any, and
the block that is open behind the line, if any. -/
def readLine (style : Style) (number : Nat) (pending : Option OpenBlock) (line : Text) :
    Option Fragment × Option OpenBlock :=
  let pushed (r : Fragment ⊕ OpenBlock) : Option Fragment × Option OpenBlock :=
    match r with
    | .inl f => (some f, none)
    | .inr b => (none, some b)
  match pending with
  | some b => pushed (b.push line line)
  | none =>
    match lineComment? .docLine style.docLine number line <|>
        lineComment? .line style.line number line with
    | some f => (some f, none)
    | none =>
      match firstOpening? style line with
      | some o => pushed ((o.start number).push line o.behind)
      | none => (none, none)

/-- The comments of the lines from line `number` on, with the block that is open before them. A
block that is open at the end ends there. -/
def readLines (style : Style) : Nat → Option OpenBlock → List Text → List Fragment
  | _, pending, [] => (pending.map OpenBlock.finish).toList
  | number, pending, line :: rest =>
    let (done, next) := readLine style number pending line
    done.toList ++ readLines style (number + 1) next rest

/-- The block that is open behind the lines from line `number` on. -/
def openAfter (style : Style) : Nat → Option OpenBlock → List Text → Option OpenBlock
  | _, pending, [] => pending
  | number, pending, line :: rest =>
    openAfter style (number + 1) (readLine style number pending line).2 rest

/-- The lines of a source text, each without a carriage return at its end. -/
def sourceLines (t : Text) : List Text :=
  (lines t).map chomp

/-- The comments of a source text, in the order in which they open. -/
def fragments (style : Style) (t : Text) : List Fragment :=
  readLines style 1 none (sourceLines t)

end Marginalia.Comment
