import Marginalia.Document.Basic
import Marginalia.Template.Lexeme
import Marginalia.Text.Blank
import Marginalia.Text.Word

/-!
# Expressions

An expression stands in double braces behind an at sign. It is a call, whose value replaces it, or
one of the two marks around a conditional section: a call behind the word `if`, or the word `end`.
A call names a key, a method and arguments. The prefix of stored keys in front of a key is left
out.
-/

namespace Marginalia.Template

open Text

/-- A call of a method on the note with a key. The arguments are kept as written. -/
structure Call where
  key : Text
  method : Text
  arguments : List Text
deriving DecidableEq

/-- What stands in double braces. -/
inductive Expression
  | value (call : Call)
  | sectionStart (guard : Call)
  | sectionEnd
deriving DecidableEq

/-- The texts without the last one if that is empty. -/
def dropBlankLast (ts : List Text) : List Text :=
  if ts.getLast? = some [] then ts.dropLast else ts

/-- The arguments between commas outside quotes and parentheses, without blanks around them. Only
an empty last argument is left out. A quote that never closes runs to the end. -/
def splitArguments (t : Text) : List Text :=
  let (found, left) := lexemes t
  dropBlankLast ((cutAtCommas left 0 found).map trim)

/-- A key without the prefix of stored keys. -/
def bareKey (key : Text) : Text :=
  (after? keyPrefix key).getD key

/-- The parts of a call: a key of word characters and dots, a colon, a method of word characters,
and what stands in the parentheses that end the text. -/
def callParts? (body : Text) : Option (Text × Text × Text) :=
  let key := body.takeWhile fun c => isWord c || c == '.'
  match body.dropWhile fun c => isWord c || c == '.' with
  | ':' :: rest =>
    let method := rest.takeWhile isWord
    match rest.dropWhile isWord with
    | '(' :: inside =>
      if !key.isEmpty && !method.isEmpty && inside.getLast? == some ')' then
        some (key, method, inside.dropLast)
      else none
    | _ => none
  | _ => none

/-- The call that a text writes. -/
def Call.parse (body : Text) : Except Failure Call :=
  match callParts? body with
  | none => .error (.expression body .notACall)
  | some (key, method, arguments) =>
    if (bareKey key).isEmpty then .error (.expression body .emptyKey)
    else .ok ⟨bareKey key, method, splitArguments arguments⟩

/-- The call behind the word `if` and a blank. -/
def guardText? (body : Text) : Option Text :=
  match body with
  | 'i' :: 'f' :: c :: rest => if isBlank c then some (trim (c :: rest)) else none
  | _ => none

/-- The expression that the text between the at sign and the closing braces writes. -/
def Expression.parse (raw : Text) : Except Failure Expression :=
  let body := trim raw
  if body = "end".toList then .ok .sectionEnd
  else
    match guardText? body with
    | some guard => (Call.parse guard).map .sectionStart
    | none => (Call.parse body).map .value

end Marginalia.Template
