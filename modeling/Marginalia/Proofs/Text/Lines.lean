import Mathlib.Data.List.TakeWhile
import Mathlib.Data.Nat.Basic
import Marginalia.Text.Blank

/-!
# Lines of a text

A text is cut at its line feeds, and lines are joined by line feeds. The two are inverse to one
another, cutting is compositional over a line feed, and the number of line feeds before a place is
the number of its line.
-/

namespace Marginalia.Text

/-- Joining the lines of a text gives the text back. -/
theorem unlines_lines (t : Text) : unlines (lines t) = t :=
  List.intercalate_splitOn '\n'

/-- A text has at least one line. -/
theorem lines_ne_nil (t : Text) : lines t ≠ [] :=
  List.splitOn_ne_nil '\n' t

/-- Cutting joined lines gives the lines back, when there are any and none holds a line feed. -/
theorem lines_unlines {ls : List Text} (hne : ls ≠ []) (hls : ∀ l ∈ ls, '\n' ∉ l) :
    lines (unlines ls) = ls :=
  List.splitOn_intercalate '\n' hls hne

/-- A text without line feeds is one line. -/
theorem lines_eq_singleton {t : Text} (ht : '\n' ∉ t) : lines t = [t] := by
  simpa [unlines] using lines_unlines (List.cons_ne_nil t []) (List.forall_mem_singleton.mpr ht)

@[simp] theorem lines_nil : lines [] = [[]] :=
  List.splitOn_nil '\n'

/-- A line feed ends a first line that is empty. -/
@[simp] theorem lines_newline_cons (t : Text) : lines ('\n' :: t) = [] :: lines t := by
  simpa [lines] using List.splitOn_append_cons_self (a := '\n') [] t

/-- Any other character belongs to the first line. -/
theorem lines_cons {c : Char} (hc : c ≠ '\n') (t : Text) :
    lines (c :: t) = (lines t).modifyHead (c :: ·) := by
  rw [lines, List.splitOn_cons_eq_if_modifyHead, if_neg (by simpa using hc)]
  rfl

/-- The lines of two texts one below the other are those of the first and those of the second. -/
theorem lines_append_newline (t u : Text) : lines (t ++ '\n' :: u) = lines t ++ lines u :=
  List.splitOn_append_cons_self t u

/-- A line of a text holds characters of the text, and no line feed. -/
theorem mem_of_mem_lines {t l : Text} (hl : l ∈ lines t) : ∀ c ∈ l, c ∈ t ∧ c ≠ '\n' := by
  induction t generalizing l with
  | nil =>
    obtain rfl := List.mem_singleton.mp (lines_nil ▸ hl)
    exact fun c hc => absurd hc List.not_mem_nil
  | cons d t ih =>
    have hrest {m : Text} (hm : m ∈ lines t) : ∀ c ∈ m, c ∈ d :: t ∧ c ≠ '\n' :=
      fun c hc => (ih hm c hc).imp (List.mem_cons_of_mem d) id
    by_cases hd : d = '\n'
    · rw [hd, lines_newline_cons, List.mem_cons] at hl
      rcases hl with rfl | hl
      · exact fun c hc => absurd hc List.not_mem_nil
      · exact hrest hl
    · obtain ⟨first, more, hlines⟩ := List.exists_cons_of_ne_nil (lines_ne_nil t)
      rw [lines_cons hd, hlines, List.modifyHead_cons, List.mem_cons] at hl
      rw [hlines] at hrest
      rcases hl with rfl | hl
      · intro c hc
        rcases List.mem_cons.mp hc with rfl | hc
        · exact ⟨List.mem_cons_self, hd⟩
        · exact hrest List.mem_cons_self c hc
      · exact hrest (List.mem_cons_of_mem first hl)

/-- A line without a carriage return at its end is the front of the line. -/
theorem chomp_isPrefix (t : Text) : chomp t <+: t := by
  rw [chomp]
  split
  · exact List.dropLast_prefix t
  · exact List.prefix_refl t

@[simp] theorem unlines_nil : unlines [] = [] := rfl

@[simp] theorem unlines_singleton (l : Text) : unlines [l] = l := by
  simp [unlines]

/-- The first of several lines is followed by a line feed and the others. -/
theorem unlines_cons {ls : List Text} (hne : ls ≠ []) (l : Text) :
    unlines (l :: ls) = l ++ '\n' :: unlines ls := by
  simp [unlines, List.intercalate_cons_of_ne_nil hne]

/-- Lines one below the other are joined in two parts. -/
theorem unlines_append {ks ls : List Text} (hks : ks ≠ []) (hls : ls ≠ []) :
    unlines (ks ++ ls) = unlines ks ++ '\n' :: unlines ls := by
  induction ks with
  | nil => exact absurd rfl hks
  | cons k ks ih =>
    by_cases hne : ks = []
    · rw [hne, List.singleton_append, unlines_cons hls, unlines_singleton]
    · rw [List.cons_append, unlines_cons (by simp [hne]), ih hne, unlines_cons hne,
        List.append_assoc, List.cons_append]

/-- Joined lines start with those of a front. -/
theorem unlines_prefix_append {ks : List Text} (hks : ks ≠ []) (ls : List Text) :
    unlines ks <+: unlines (ks ++ ls) := by
  by_cases hls : ls = []
  · simp [hls]
  · rw [unlines_append hks hls]
    exact List.prefix_append _ _

/-- Joined lines hold a line feed less than there are lines. -/
theorem count_newline_unlines {ls : List Text} (hne : ls ≠ []) (hls : ∀ l ∈ ls, '\n' ∉ l) :
    (unlines ls).count '\n' + 1 = ls.length := by
  induction ls with
  | nil => exact absurd rfl hne
  | cons l ls ih =>
    have hl : l.count '\n' = 0 := List.count_eq_zero.mpr (hls l List.mem_cons_self)
    by_cases hnil : ls = []
    · rw [hnil, unlines_singleton, hl, List.length_singleton]
    · rw [unlines_cons hnil, List.count_append, hl, Nat.zero_add, List.count_cons_self,
        ih hnil fun m hm => hls m (List.mem_cons_of_mem l hm), List.length_cons]

/-- A character in front of the first line stands in front of the joined lines. -/
theorem unlines_cons_cons (c : Char) (l : Text) (ls : List Text) :
    unlines ((c :: l) :: ls) = c :: unlines (l :: ls) := by
  cases ls with
  | nil => simp
  | cons m ls => simp [unlines_cons]

end Marginalia.Text
