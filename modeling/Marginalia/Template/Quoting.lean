import Marginalia.Text.Basic

/-!
# Quoted arguments

An argument may stand in single quotes, where a backslash stands for the character behind it, or
in double quotes, where it starts one of the usual escapes. A double-quoted argument may hold
further quoted parts; if one of its escapes is none of the known ones, the argument is what stands
between its quotes, unchanged. Any other argument stands for itself.
-/

namespace Marginalia.Template

open Text

/-- The text of what stands in single quotes. A backslash at the end stands for nothing. -/
def resolveBackslashes : Text → Text
  | [] => []
  | ['\\'] => []
  | '\\' :: c :: rest => c :: resolveBackslashes rest
  | c :: rest => c :: resolveBackslashes rest

/-- The character of a one-letter escape in double quotes. -/
def letterEscape? : Char → Option Char
  | 'a' => some '\x07'
  | 'b' => some '\x08'
  | 'v' => some '\x0b'
  | 'f' => some '\x0c'
  | 'n' => some '\n'
  | 'r' => some '\r'
  | 't' => some '\t'
  | 'e' => some '\x1b'
  | 'E' => some '\x1b'
  | '\\' => some '\\'
  | '\'' => some '\''
  | '"' => some '"'
  | '$' => some '$'
  | '`' => some '`'
  | ' ' => some ' '
  | _ => none

/-- The number that digits in base sixteen write, with or without a plus sign in front. -/
def hexNumber? (t : Text) : Option Nat :=
  let digits := match t with
    | '+' :: rest => rest
    | t => t
  if digits.isEmpty then none
  else digits.foldlM (fun n c => (hexValue? c).map (16 * n + ·)) 0

/-- The character with a number, if there is one. -/
def charOfNumber? (n : Nat) : Option Char :=
  if h : n.isValidChar then some (Char.ofNatAux n h) else none

/-- What stands behind the next closing brace. -/
def behindBrace (t : Text) : Text :=
  (t.dropWhile (· ≠ '\x7d')).drop 1

/-- Nothing grows behind a brace. -/
theorem length_behindBrace_le (t : Text) : (behindBrace t).length ≤ t.length :=
  ((List.drop_sublist 1 _).trans (List.dropWhile_sublist _)).length_le

/-- The quotes that a character stands in. -/
inductive Quotes
  | none
  | single
  | double
deriving DecidableEq

/-- The text of parts in single and double quotes and of parts without, written one behind the
other, unless an escape is unknown. A number escape runs to the next closing brace. -/
def resolveEscapes : Quotes → Text → Option Text
  | _, [] => some []
  | .none, c :: rest =>
    if c = '\'' then resolveEscapes .single rest
    else if c = '"' then resolveEscapes .double rest
    else (resolveEscapes .none rest).map (c :: ·)
  | .single, c :: rest =>
    if c = '\'' then resolveEscapes .none rest else (resolveEscapes .single rest).map (c :: ·)
  | .double, '\\' :: 'u' :: '\x7b' :: rest => do
    let c ← (hexNumber? (rest.takeWhile (· ≠ '\x7d'))).bind charOfNumber?
    return c :: (← resolveEscapes .double (behindBrace rest))
  | .double, '\\' :: e :: rest => do
    let c ← letterEscape? e
    return c :: (← resolveEscapes .double rest)
  | .double, c :: rest =>
    if c = '"' then resolveEscapes .none rest
    else if c = '\\' then none
    else (resolveEscapes .double rest).map (c :: ·)
termination_by _ t => t.length
decreasing_by
  all_goals simp only [List.length_cons]
  all_goals grind [length_behindBrace_le]

/-- The text of an argument. -/
def unquote (argument : Text) : Text :=
  match argument, argument.getLast? with
  | '"' :: c :: rest, some '"' =>
    (resolveEscapes .none argument).getD (c :: rest).dropLast
  | '\'' :: c :: rest, some '\'' => resolveBackslashes (c :: rest).dropLast
  | _, _ => argument

end Marginalia.Template
