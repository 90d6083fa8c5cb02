import Marginalia.Toml.Scalar
import Marginalia.Toml.Strings
import Marginalia.Toml.Tables

/-!
# Reading TOML

A document is a sequence of statements, each on a line of its own. Every reader returns what
follows the part it has read. Inside brackets and braces line breaks and comments count as blanks,
and a comma may stand behind the last item. Nesting is bounded by the length of the text, which the
readers carry as a budget.
-/

namespace Marginalia.Toml

/-- The text behind its blanks. -/
def skipBlanks (t : Text) : Text :=
  t.dropWhile fun c => c == ' ' || c == '\t'

/-- The text behind blanks, line breaks and comments. -/
def skipVoid : Text → Text
  | ' ' :: rest => skipVoid rest
  | '\t' :: rest => skipVoid rest
  | '\n' :: rest => skipVoid rest
  | '\r' :: '\n' :: rest => skipVoid rest
  | '#' :: rest => skipVoid (rest.dropWhile isPlain)
  | t => t
termination_by t => t.length
decreasing_by
  · simp
  · simp
  · simp
  · simp only [List.length_cons]
    omega
  · have := (List.dropWhile_sublist (l := rest) isPlain).length_le
    simp only [List.length_cons]
    omega

/-- The text behind the end of a line, before which blanks and a comment may stand. -/
def afterLine? (t : Text) : Option Text :=
  let rest := match skipBlanks t with
    | '#' :: comment => comment.dropWhile isPlain
    | rest => rest
  if rest.isEmpty then some [] else afterBreak? rest

/-- Whether a character may stand in a key without quotes. -/
def isKeyChar (c : Char) : Bool :=
  c.isAlphanum || c == '_' || c == '-'

/-- A part of a key. -/
def takeKeyPart (t : Text) : Option (Text × Text) :=
  match t with
  | '"' :: rest => takeBasic rest
  | '\'' :: rest => takeLiteral rest
  | _ =>
    if (t.takeWhile isKeyChar).isEmpty then none
    else some (t.takeWhile isKeyChar, t.dropWhile isKeyChar)

/-- The parts of a dotted key, which may have blanks around its dots. -/
def takeKeyParts : Nat → Text → Option (List Text × Text)
  | 0, _ => none
  | budget + 1, t => do
    let (part, rest) ← takeKeyPart t
    match skipBlanks rest with
    | '.' :: more =>
      (takeKeyParts budget (skipBlanks more)).map fun (parts, behind) => (part :: parts, behind)
    | behind => some ([part], behind)

/-- A key, with the blanks around it. -/
def takeKey (t : Text) : Option (Key × Text) := do
  match ← takeKeyParts t.length (skipBlanks t) with
  | (first :: others, behind) => return (⟨first, others⟩, behind)
  | ([], _) => none

/-- A key and the equals sign behind it. -/
def takeAssigned (t : Text) : Option (Key × Text) := do
  match ← takeKey t with
  | (key, '=' :: rest) => return (key, skipBlanks rest)
  | _ => none

mutual

/-- A value. -/
def takeValue : Nat → Text → Option (Datum × Text)
  | 0, _ => none
  | budget + 1, t =>
    match t with
    | '[' :: rest => (takeItems budget rest).map fun (items, behind) => (.list items, behind)
    | '\x7b' :: rest =>
      (takePairs budget [] rest).map fun (entries, behind) =>
        (.table (dataOfEntries entries), behind)
    | '"' :: _ => (takeString t).map fun (body, behind) => (.text body, behind)
    | '\'' :: _ => (takeString t).map fun (body, behind) => (.text body, behind)
    | _ => takeScalar t

/-- The items of an array up to its closing bracket. -/
def takeItems : Nat → Text → Option (List Datum × Text)
  | 0, _ => none
  | budget + 1, t =>
    match skipVoid t with
    | ']' :: behind => some ([], behind)
    | rest => do
      let (value, rest) ← takeValue budget rest
      match skipVoid rest with
      | ',' :: more => (takeItems budget more).map fun (items, behind) => (value :: items, behind)
      | ']' :: behind => some ([value], behind)
      | _ => none

/-- The pairs of a table in braces up to its closing brace, behind those read before. -/
def takePairs : Nat → Entries → Text → Option (Entries × Text)
  | 0, _, _ => none
  | budget + 1, entries, t =>
    match skipVoid t with
    | '\x7d' :: behind => some (entries, behind)
    | rest => do
      let (key, rest) ← takeAssigned rest
      let (value, rest) ← takeValue budget rest
      let entries ← putValue value key.first key.others entries
      match skipVoid rest with
      | ',' :: more => takePairs budget entries more
      | '\x7d' :: behind => some (entries, behind)
      | _ => none

end

/-- A statement, not counting the end of its line. -/
def takeStatement (t : Text) : Option (Statement × Text) :=
  match t with
  | '[' :: '[' :: rest => do
    match ← takeKey rest with
    | (key, ']' :: ']' :: behind) => return (.item key, behind)
    | _ => none
  | '[' :: rest => do
    match ← takeKey rest with
    | (key, ']' :: behind) => return (.table key, behind)
    | _ => none
  | _ => do
    let (key, rest) ← takeAssigned t
    let (value, behind) ← takeValue (2 * t.length + 2) rest
    return (.value key value, behind)

/-- The statements of a text, within a budget of steps. -/
def statements : Nat → Text → Option (List Statement)
  | 0, _ => none
  | budget + 1, t =>
    match skipVoid t with
    | [] => some []
    | rest => do
      let (statement, behind) ← takeStatement rest
      let more ← afterLine? behind
      return statement :: (← statements budget more)

/-- The data that a document writes. A mark of the byte order may stand at its front. -/
def read? (t : Text) : Option Datum := do
  let body := match t with
    | '\uFEFF' :: rest => rest
    | t => t
  let tables ← (← statements (body.length + 1) body).foldlM Tables.adding ⟨[], []⟩
  return .table (dataOfEntries tables.entries)

end Marginalia.Toml
