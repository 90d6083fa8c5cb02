import Marginalia.Proofs.Template.Argument
import Marginalia.Proofs.Template.Piece
import Marginalia.Template.Render

/-!
# Written calls

A call is written as a key behind the prefix of stored keys, a method and arguments in parentheses;
the expressions of a template are a call, a call behind the word that opens a section, and the word
that closes one, each in double braces. Where such a text stands, the scan finds the expression,
and the call stands for the method of its name, applied to what its arguments are meant to be.
-/

namespace Marginalia.Template

open Text

/-- A call as it is meant. -/
structure WrittenCall where
  key : Stretch isNameChar
  method : Stretch isWord
  arguments : List Argument

namespace WrittenCall

/-- The text of a call as it is written. -/
def text (c : WrittenCall) : Text :=
  storedKey c.key.text ++ ':' :: (c.method.text ++ '(' :: (joinArguments c.arguments ++ [')']))

/-- The call that is read. -/
def call (c : WrittenCall) : Call :=
  ⟨c.key.text, c.method.text, c.arguments.map Argument.source⟩

/-- The value of a call: that of its method, applied to what its arguments stand for. -/
def value (d : Document) (c : WrittenCall) : Except Failure Text := do
  let m ← Method.parse c.method.text
  match d.note? c.key.text with
  | some note => m.run c.key.text note (c.arguments.map Argument.value)
  | none => throw (.unknownKey c.key.text)

/-- The call that is read has the value of the call that is meant. -/
theorem evaluate_call (d : Document) (c : WrittenCall) : c.call.evaluate d = c.value d := by
  have harguments : c.call.arguments.map unquote = c.arguments.map Argument.value := by
    rw [call, List.map_map]
    exact List.map_congr_left fun a _ => unquote_source a
  rw [Call.evaluate, value, harguments]
  rfl

/-- The truth of a call as a guard: false if the key is unknown or the value stands for falsehood.
-/
def truth (d : Document) (c : WrittenCall) : Except Failure Bool :=
  match d.note? c.key.text with
  | none => .ok false
  | some _ => do return !falseValues.contains (trim (← c.value d))

/-- The call that is read holds as a guard when the call that is meant is true. -/
theorem holds_call (d : Document) (c : WrittenCall) : holds d c.call = c.truth d := by
  rw [holds, evaluate_call, truth]
  rfl

/-- The key of a call with the prefix of stored keys. -/
def prefixedKey (c : WrittenCall) : Stretch isNameChar where
  text := storedKey c.key.text
  ne_nil := by simp [storedKey, keyPrefix]
  forall_mem := by
    intro b hb
    rcases List.mem_append.mp hb with hb | hb
    · exact List.all_eq_true.mp (show keyPrefix.all isNameChar = true by decide) b hb
    · exact c.key.forall_mem b hb

/-- The parts of a written call. -/
theorem callParts?_text (c : WrittenCall) :
    callParts? c.text =
      some (storedKey c.key.text, c.method.text, joinArguments c.arguments) := by
  have hcolon : ∀ b ∈ (':' :: (c.method.text ++ '(' :: (joinArguments c.arguments ++ [')']))).head?,
      isNameChar b = false := by
    intro b hb
    cases hb
    decide
  have hparen : ∀ b ∈ ('(' :: (joinArguments c.arguments ++ [')'])).head?, isWord b = false := by
    intro b hb
    cases hb
    decide
  have hkey := c.prefixedKey.takeWhile_append hcolon
  have hrest := c.prefixedKey.dropWhile_append hcolon
  have hmethod := c.method.takeWhile_append hparen
  have hinside := c.method.dropWhile_append hparen
  have hlast : (joinArguments c.arguments ++ [')']).getLast? = some ')' := by simp
  have hkeyne : (storedKey c.key.text).isEmpty = false := by
    rw [List.isEmpty_eq_false_iff]
    exact c.prefixedKey.ne_nil
  have hmethodne : c.method.text.isEmpty = false := by
    simpa using c.method.ne_nil
  unfold isNameChar at hkey hrest
  rw [text, callParts?]
  simp only [prefixedKey] at hkey hrest
  simp only [hkey, hrest, hmethod, hinside, hlast, hkeyne, hmethodne, List.dropLast_concat]
  rfl

/-- A written call is read back. -/
theorem parse_text (c : WrittenCall) : Call.parse c.text = .ok c.call := by
  have hbare : bareKey (storedKey c.key.text) = c.key.text := by
    rw [bareKey, storedKey, after?_eq_some_iff.mpr rfl, Option.getD_some]
  have hne : c.key.text.isEmpty = false := by
    simpa using c.key.ne_nil
  rw [Call.parse, callParts?_text]
  simp only [hbare, hne, splitArguments_joinArguments]
  rfl

/-- A written call starts with the prefix of stored keys and ends with a parenthesis. -/
theorem exists_text_eq (c : WrittenCall) : ∃ inside, c.text = 'd' :: inside ++ [')'] :=
  ⟨"oc.".toList ++ c.key.text ++ ':' :: (c.method.text ++ '(' :: joinArguments c.arguments), by
    simp [text, storedKey, keyPrefix]⟩

/-- A written call has no blanks at its ends. -/
theorem isTrimmed_text (c : WrittenCall) : IsTrimmed c.text := by
  obtain ⟨inside, hinside⟩ := c.exists_text_eq
  rw [hinside]
  exact isTrimmed_cons_append (by decide) (by decide) inside

/-- A written call is not empty. -/
theorem text_ne_nil (c : WrittenCall) : c.text ≠ [] := by
  obtain ⟨inside, hinside⟩ := c.exists_text_eq
  simp [hinside]

/-- Characters of keys are plain. -/
theorem isPlain_of_isNameChar {b : Char} (h : isNameChar b = true) : isPlain b = true := by
  rw [isNameChar, Bool.or_eq_true, beq_iff_eq] at h
  rcases h with h | rfl
  · exact isPlain_of_isWord h
  · decide

/-- A written call may stand in front of a body outside parentheses. -/
theorem isBody_text_append (c : WrittenCall) {body : Text} (h : IsBody 0 body) :
    IsBody 0 (c.text ++ body) := by
  have hclose : IsBody 1 (')' :: body) := IsBody.cons (bodyFrom_closeParen 1) h
  have hopen : IsBody 0 ('(' :: (joinArguments c.arguments ++ ')' :: body)) :=
    IsBody.cons (bodyFrom_openParen 0) (hclose.joinArguments_append c.arguments)
  have hmethod := (hopen.plain_append fun b hb => isPlain_of_isWord (c.method.forall_mem b hb))
  have hkey := (hmethod.plain (c := ':') (by decide)).plain_append
    fun b hb => isPlain_of_isNameChar (c.prefixedKey.forall_mem b hb)
  simpa [text, prefixedKey] using hkey

end WrittenCall

/-- An expression as it is meant. -/
inductive WrittenExpression
  | value (c : WrittenCall)
  | sectionStart (guard : WrittenCall)
  | sectionEnd

namespace WrittenExpression

/-- What is written between the at sign and the blank before the closing braces. -/
def inside : WrittenExpression → Text
  | value c => c.text
  | sectionStart guard => 'i' :: 'f' :: ' ' :: guard.text
  | sectionEnd => "end".toList

/-- The text of an expression as it is written. -/
def source (w : WrittenExpression) : Text :=
  openingBraces ++ [' '] ++ '@' :: (w.inside ++ [' ']) ++ closingBraces

/-- The expression that is read. -/
def expression : WrittenExpression → Expression
  | value c => .value c.call
  | sectionStart guard => .sectionStart guard.call
  | sectionEnd => .sectionEnd

/-- What is written in an expression ends where its closing braces stand. -/
theorem isBody_inside (w : WrittenExpression) : IsBody 0 (w.inside ++ [' ']) := by
  have hblank : IsBody 0 [' '] := IsBody.nil.plain (by decide)
  cases w with
  | value c => exact c.isBody_text_append hblank
  | sectionStart guard =>
    have hfront : ∀ b ∈ "if ".toList, isPlain b = true := List.all_eq_true.mp (by decide)
    have hbody := (guard.isBody_text_append hblank).plain_append hfront
    exact hbody
  | sectionEnd =>
    have hfront : ∀ b ∈ "end".toList, isPlain b = true := List.all_eq_true.mp (by decide)
    exact hblank.plain_append hfront

/-- What is written in an expression is not empty. -/
theorem inside_ne_nil (w : WrittenExpression) : w.inside ≠ [] := by
  cases w with
  | value c => exact c.text_ne_nil
  | sectionStart guard => exact List.cons_ne_nil _ _
  | sectionEnd => exact List.cons_ne_nil _ _

/-- What is written in an expression has no blanks at its ends. -/
theorem isTrimmed_inside (w : WrittenExpression) : IsTrimmed w.inside := by
  cases w with
  | value c => exact c.isTrimmed_text
  | sectionStart guard =>
    obtain ⟨inside, hinside⟩ := guard.exists_text_eq
    have := isTrimmed_cons_append (a := 'i') (b := ')') (by decide) (by decide)
      ('f' :: ' ' :: 'd' :: inside)
    simpa [WrittenExpression.inside, hinside] using this
  | sectionEnd => exact isTrimmed_cons_append (by decide) (by decide) ['n']

/-- A written expression is read back. -/
theorem parse_inside (w : WrittenExpression) :
    Expression.parse (w.inside ++ [' ']) = .ok w.expression := by
  have htrim : trim (w.inside ++ [' ']) = w.inside :=
    trim_append_space w.inside_ne_nil w.isTrimmed_inside
  rw [Expression.parse, htrim]
  cases w with
  | value c =>
    obtain ⟨inside, hinside⟩ := c.exists_text_eq
    have hne : c.text ≠ "end".toList := by simp [hinside]
    have hguard : guardText? c.text = none := by rw [hinside]; rfl
    simp only [WrittenExpression.inside, if_neg hne, hguard, c.parse_text]
    rfl
  | sectionStart guard =>
    have hne : 'i' :: 'f' :: ' ' :: guard.text ≠ "end".toList := by simp
    have hguard : guardText? ('i' :: 'f' :: ' ' :: guard.text) = some guard.text := by
      have hcut : trim (' ' :: guard.text) = guard.text :=
        trim_space_cons guard.isTrimmed_text
      rw [guardText?, if_pos (by decide), hcut]
    simp only [WrittenExpression.inside, if_neg hne, hguard, guard.parse_text]
    rfl
  | sectionEnd => rfl

/-- A written expression is one piece. -/
theorem pieces_source_append (w : WrittenExpression) (t : Text) :
    pieces (w.source ++ t) = .expression w.source w.expression :: pieces t :=
  pieces_expression_append forall_mem_space w.isBody_inside w.parse_inside t

/-- A written expression alone is one expression, from the first byte of the text to the last. -/
theorem expressions_source (w : WrittenExpression) :
    expressions w.source = [⟨w.expression, 0, byteLength w.source⟩] := by
  have hpieces := w.pieces_source_append []
  rw [List.append_nil, pieces_nil] at hpieces
  rw [expressions, hpieces, placedFrom, placedFrom, Nat.zero_add]

/-- No candidate opens at a brace in front of a written expression. -/
theorem candidate?_brace_source_append (w : WrittenExpression) (t : Text) :
    candidate? ('\x7b' :: (w.source ++ t)) = none := by
  rw [source, List.append_assoc, List.append_assoc, List.append_assoc]
  exact candidate?_brace_openingBraces _

end WrittenExpression

/-- Any strings may be the arguments of a call: written in quotes, in double braces and as a guard,
the call is the one expression of its text, which it fills, and its arguments are read back. -/
theorem expressions_source_quoted (key : Stretch isNameChar) (method : Stretch isWord)
    (strings : List Text) :
    let arguments := strings.map Argument.quoted
    let written : WrittenCall := ⟨key, method, arguments⟩
    let read : Call := ⟨key.text, method.text, arguments.map Argument.source⟩
    let value := (WrittenExpression.value written).source
    let guard := (WrittenExpression.sectionStart written).source
    expressions value = [⟨.value read, 0, byteLength value⟩] ∧
      expressions guard = [⟨.sectionStart read, 0, byteLength guard⟩] ∧
      read.arguments.map unquote = strings := by
  intro arguments written read value guard
  have hread : read.arguments.map unquote = arguments.map Argument.value := by
    rw [List.map_map]
    exact List.map_congr_left fun a _ => unquote_source a
  have hmeant : arguments.map Argument.value = strings := by
    rw [List.map_map]
    exact List.map_id strings
  exact ⟨WrittenExpression.expressions_source _, WrittenExpression.expressions_source _,
    hread.trans hmeant⟩

/-- Braces, a parenthesis, a comma, a line feed, a quote and a backslash in one argument. -/
example :
    (WrittenExpression.value ⟨⟨['k'], by decide, List.forall_mem_singleton.mpr (by decide)⟩,
      ⟨['m'], by decide, List.forall_mem_singleton.mpr (by decide)⟩,
      [.quoted "\x7d\x7d),\n'\\".toList, .quoted []]⟩).source =
    "\x7b\x7b @doc.k:m('\x7d\x7d),\n\\'\\\\', '') \x7d\x7d".toList := by
  decide

end Marginalia.Template
