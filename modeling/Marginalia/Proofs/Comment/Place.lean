import Mathlib.Algebra.Order.BigOperators.Group.List
import Mathlib.Algebra.Order.Ring.Nat
import Marginalia.Proofs.Comment.Slice

/-!
# Lines of comments

A comment stands on a line that is not blank. So the number of its line is at most the number of
characters of the text, which holds as many line feeds before that line as there are lines above it.
-/

namespace Marginalia

namespace Text

/-- A text has at most as many characters as bytes. -/
theorem length_le_byteLength (t : Text) : t.length ≤ byteLength t := by
  induction t with
  | nil => exact Nat.le_refl 0
  | cons c t ih =>
    have hc : 0 < c.utf8Size := c.utf8Size_pos
    rw [List.length_cons, byteLength_cons]
    omega

/-- Joining the parts of line breaks makes no text longer. -/
theorem length_joinBreaks_le (t : Text) : (joinBreaks t).length ≤ t.length := by
  induction t using joinBreaks.induct with
  | case1 rest ih =>
    rw [joinBreaks, List.length_cons, List.length_cons, List.length_cons]
    omega
  | case2 c rest _ ih =>
    rw [joinBreaks, List.length_cons, List.length_cons]
    · omega
    · assumption
  | case3 => exact Nat.le_refl 0

/-- A text with line feeds for its line breaks is no longer. -/
theorem length_normalizeBreaks_le (t : Text) : (normalizeBreaks t).length ≤ t.length := by
  rw [normalizeBreaks, replaceChar, List.length_map]
  exact length_joinBreaks_le t

/-- The lines of a text, each with its line feed, have one character more than the text. -/
theorem sum_length_lines (t : Text) :
    ((lines t).map fun line => line.length + 1).sum = t.length + 1 := by
  induction t with
  | nil => rfl
  | cons c t ih =>
    by_cases hc : c = '\n'
    · rw [hc, lines_newline_cons, List.map_cons, List.sum_cons, ih, List.length_cons,
        List.length_nil]
      omega
    · obtain ⟨line, more, hlines⟩ := List.exists_cons_of_ne_nil (lines_ne_nil t)
      rw [lines_cons hc, List.length_cons, ← ih, hlines, List.modifyHead_cons, List.map_cons,
        List.sum_cons, List.map_cons, List.sum_cons, List.length_cons]
      omega

end Text

namespace Comment

open Text

variable {style : Style}

/-- An opener stands on a line that is not blank. -/
theorem Style.OpensAt.ne_nil {kind : Kind} {column : Nat} {line : Text}
    (h : style.OpensAt kind column line) : line ≠ [] := by
  obtain ⟨mark, -, hmark, front, rest, rfl, -⟩ := h
  simp [hmark]

/-- The number of the line of a comment is at most the number of characters of the text. -/
theorem line_le_length {t : Text} {f : Fragment} (h : f ∈ fragments style t) :
    f.line ≤ t.length := by
  obtain ⟨above, run, below, hlines, hmakes⟩ :=
    ((cutInto_readLines style (sourceLines t)).1 1).exists_run h
  obtain ⟨first, more, rfl, hopens⟩ := hmakes.opens
  have hfirst : 0 < first.length := List.length_pos_iff.mpr hopens.ne_nil
  have habove := List.length_le_sum_of_one_le (above.map fun line => line.length + 1) (by simp)
  have htext := sum_length_lines t
  have hle : ((sourceLines t).map fun line => line.length + 1).sum ≤
      ((lines t).map fun line => line.length + 1).sum := by
    rw [sourceLines, List.map_map]
    exact List.sum_le_sum fun line _ => Nat.succ_le_succ (chomp_isPrefix line).length_le
  rw [hlines, List.map_append, List.map_append, List.map_cons, List.sum_append, List.sum_append,
    List.sum_cons] at hle
  rw [List.length_map] at habove
  rw [hmakes.line_eq]
  omega

end Comment

end Marginalia
