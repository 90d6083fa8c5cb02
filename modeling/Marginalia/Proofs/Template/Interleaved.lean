import Marginalia.Proofs.Template.Span
import Marginalia.Proofs.Template.Standing
import Marginalia.Proofs.Template.WrittenLine

/-!
# Expressions in the midst of text

Text and expressions may touch one another: a brace, a quote or closing braces in the text next to
an expression do not move where it opens and ends. So of a text that is put together from
expressions and from text without two opening braces, the expressions are those that were put there,
each from its first byte to its last.
-/

namespace Marginalia.Template

open Text

/-- Text between expressions, in which no two opening braces stand. -/
structure FreeText where
  text : Text
  no_opening : ¬ openingBraces <:+: text

/-- An expression as it may be spelled: blanks in front of the at sign, and an inside that is read
as the expression and is closed by the braces behind it. -/
structure Spelling where
  blanks : Text
  inside : Text
  expression : Expression
  isBlank_of_mem : ∀ b ∈ blanks, isBlank b = true
  parse_eq : Expression.parse inside = .ok expression
  isClosed : Standing.IsClosed inside

/-- The text of a spelling. -/
def Spelling.source (s : Spelling) : Text :=
  openingBraces ++ s.blanks ++ '@' :: s.inside ++ closingBraces

/-- Expressions, each with the text behind it. -/
def interleave : List (Spelling × FreeText) → Text
  | [] => []
  | (s, l) :: rest => s.source ++ (l.text ++ interleave rest)

/-- Expressions with the offsets at which they are put, the first of which is given. -/
def placements : Nat → List (Spelling × FreeText) → List Placed
  | _, [] => []
  | start, (s, l) :: rest =>
    let stop := start + byteLength s.source
    ⟨s.expression, start, stop⟩ :: placements (stop + byteLength l.text) rest

/-- A character at the end of a part at the end of a text is at the end of the text. -/
theorem getLast?_of_isSuffix {t u : Text} {c : Char} (hu : u <:+ t) (h : u.getLast? = some c) :
    t.getLast? = some c := by
  obtain ⟨front, rfl⟩ := hu
  rw [List.getLast?_append, h, Option.some_or]

/-- A call ends with a parenthesis. -/
theorem getLast?_of_call_parse {body : Text} {c : Call} (h : Call.parse body = .ok c) :
    body.getLast? = some ')' := by
  unfold Call.parse at h
  split at h
  · cases h
  · rename_i key method arguments hparts
    unfold callParts? at hparts
    split at hparts
    · rename_i rest hrest
      simp only at hparts
      split at hparts
      · rename_i inside hinside
        have hbehind : inside <:+ rest := by
          have hfront : rest.dropWhile isWord <:+ rest := List.dropWhile_suffix _
          rw [hinside] at hfront
          exact (List.suffix_cons _ inside).trans hfront
        have hbody : rest <:+ body := by
          have hfront : (body.dropWhile fun c => isWord c || c == '.') <:+ body :=
            List.dropWhile_suffix _
          rw [hrest] at hfront
          exact (List.suffix_cons _ rest).trans hfront
        apply getLast?_of_isSuffix (hbehind.trans hbody)
        by_cases hlast : inside.getLast? = some ')'
        · exact hlast
        · simp [hlast] at hparts
      · cases hparts
    · cases hparts

/-- The inside of an expression does not end with a brace. -/
theorem getLast?_ne_of_parse {inside : Text} {e : Expression}
    (h : Expression.parse inside = .ok e) : inside.getLast? ≠ some '\x7d' := by
  intro hlast
  have htrim : (trim inside).getLast? = some '\x7d' := getLast?_trim hlast (by decide)
  have hcall {body : Text} {c : Call} (hbody : body.getLast? = some '\x7d')
      (hparse : Call.parse body = .ok c) : False := by
    rw [getLast?_of_call_parse hparse] at hbody
    cases hbody
  unfold Expression.parse at h
  simp only at h
  split at h
  · rename_i hend
    rw [hend] at htrim
    revert htrim
    decide
  · split at h
    · rename_i guard hguard
      obtain ⟨c, hparse, -⟩ := map_eq_ok_iff.mp h
      refine hcall ?_ hparse
      unfold guardText? at hguard
      split at hguard
      · rename_i c rest hbody
        rw [hbody] at htrim
        split at hguard
        · rw [← Option.some.inj hguard]
          exact getLast?_trim htrim (by decide)
        · cases hguard
      · cases hguard
    · obtain ⟨c, hparse, -⟩ := map_eq_ok_iff.mp h
      exact hcall htrim hparse

namespace Spelling

/-- A spelled expression is one piece where it stands. -/
theorem pieces_source_append (s : Spelling) (t : Text) :
    pieces (s.source ++ t) = .expression s.source s.expression :: pieces t := by
  have hbody : IsBody 0 s.inside := s.isClosed.isBody (getLast?_ne_of_parse s.parse_eq)
  exact pieces_expression_append s.isBlank_of_mem hbody s.parse_eq t

/-- No candidate opens at a brace in front of a spelled expression. -/
theorem candidate?_brace_source_append (s : Spelling) (t : Text) :
    candidate? ('\x7b' :: (s.source ++ t)) = none := by
  rw [source, List.append_assoc, List.append_assoc, List.append_assoc]
  exact candidate?_brace_openingBraces _

end Spelling

/-- No candidate opens at a brace in front of expressions and the text behind them. -/
theorem candidate?_brace_interleave (tail : List (Spelling × FreeText)) :
    candidate? ('\x7b' :: interleave tail) = none := by
  cases tail with
  | nil => exact candidate?_eq_none fun rest h => by simp [interleave] at h
  | cons e tail => exact e.1.candidate?_brace_source_append _

/-- Text in front of expressions moves them behind itself, and adds none. -/
theorem placedFrom_pieces_append (start : Nat) (l : FreeText) (tail : List (Spelling × FreeText)) :
    placedFrom start (pieces (l.text ++ interleave tail)) =
      placedFrom (start + byteLength l.text) (pieces (interleave tail)) := by
  rw [pieces_append_of_no_opening l.no_opening (candidate?_brace_interleave tail),
    placedFrom_map_char_append]

/-- Expressions are found where they are put. -/
theorem placedFrom_pieces_interleave (start : Nat) (tail : List (Spelling × FreeText)) :
    placedFrom start (pieces (interleave tail)) = placements start tail := by
  induction tail generalizing start with
  | nil => rfl
  | cons e tail ih =>
    obtain ⟨s, l⟩ := e
    rw [interleave, s.pieces_source_append, placedFrom, placedFrom_pieces_append, ih, placements]

/-- In a text that is put together from expressions and from text without two opening braces,
exactly these expressions are found, in order and each where it was put. -/
theorem expressions_interleave (head : FreeText) (tail : List (Spelling × FreeText)) :
    expressions (head.text ++ interleave tail) = placements (byteLength head.text) tail := by
  rw [expressions, placedFrom_pieces_append, Nat.zero_add, placedFrom_pieces_interleave]

/-- A call with closing braces in quotes and in parentheses. -/
def bracedCall : Spelling where
  blanks := [' ', '\n']
  inside := "k:m('\x7d\x7d', (\x7d\x7d)) ".toList
  expression := .value ⟨['k'], ['m'], ["'\x7d\x7d'".toList, "(\x7d\x7d)".toList]⟩
  isBlank_of_mem := List.all_eq_true.mp (by decide)
  parse_eq := by decide +kernel
  isClosed := by
    apply Standing.isClosed_of_body? (noEscapedNewline_of_notMem (by decide))
    decide +kernel

/-- The end mark of a section. -/
def endMark : Spelling where
  blanks := []
  inside := "end".toList
  expression := .sectionEnd
  isBlank_of_mem := fun b hb => absurd hb List.not_mem_nil
  parse_eq := by decide +kernel
  isClosed := by
    apply Standing.isClosed_of_body? (noEscapedNewline_of_notMem (by decide))
    decide +kernel

/-- Braces that touch the braces of expressions, closing braces, open quotes and a parenthesis in
the text between do not move the expressions. -/
theorem expressions_interleave_touching :
    expressions ("\x7d\x7d'\x7b".toList ++ (bracedCall.source ++ ("\x7d\"(\x7b".toList ++
      (endMark.source ++ ['\x7b'])))) =
        [⟨bracedCall.expression, 4, 27⟩, ⟨.sectionEnd, 31, 39⟩] := by
  refine (expressions_interleave ⟨"\x7d\x7d'\x7b".toList, by decide⟩
    [(bracedCall, ⟨"\x7d\"(\x7b".toList, by decide⟩), (endMark, ⟨['\x7b'], by decide⟩)]).trans ?_
  decide +kernel

end Marginalia.Template
