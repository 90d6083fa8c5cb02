import Marginalia.Proofs.Comment.Below

/-!
# Line breaks

A line may end with a line feed alone or with a carriage return before it: the comments of a source
are the same. Where all breaks are made line feeds, a carriage return on its own ends a line as
well, and no break is counted twice or lost, whatever breaks stand in a row.
-/

namespace Marginalia

namespace Text

/-- A text with carriage returns at the ends of chosen lines: before the line feeds of these lines
and, where the last line is chosen, at the very end. -/
def withReturns (chosen : Nat → Bool) (t : Text) : Text :=
  unlines ((lines t).mapIdx fun i l => if chosen i then l ++ ['\r'] else l)

/-- The line breaks of a text, each in its spelling, and its other characters, one by one. A
carriage return and a line feed in this order are one break. -/
def units : Text → List Text
  | '\r' :: '\n' :: rest => ['\r', '\n'] :: units rest
  | c :: rest => [c] :: units rest
  | [] => []

/-- Whether a unit of a text is a line break. -/
def isBreak (unit : Text) : Bool :=
  unit == ['\r', '\n'] || unit == ['\r'] || unit == ['\n']

/-- A unit of a text with a line feed in the place of a line break. -/
def withFeed (unit : Text) : Text :=
  if isBreak unit then ['\n'] else unit

variable {t : Text}

/-- A line without carriage returns is left as it is. -/
theorem chomp_of_notMem (ht : '\r' ∉ t) : chomp t = t :=
  if_neg fun hlast => ht (List.mem_of_getLast? hlast)

/-- A carriage return at the end of a line is cut off. -/
theorem chomp_append_return (t : Text) : chomp (t ++ ['\r']) = t := by
  rw [chomp, if_pos List.getLast?_concat, List.dropLast_concat]

/-- The lines of a text with carriage returns at the ends of chosen ones. -/
theorem lines_withReturns (chosen : Nat → Bool) (t : Text) :
    lines (withReturns chosen t) =
      (lines t).mapIdx fun i l => if chosen i then l ++ ['\r'] else l := by
  apply lines_unlines
  · simpa using lines_ne_nil t
  · intro l hl
    obtain ⟨i, hi, rfl⟩ := List.mem_mapIdx.mp hl
    have hline : '\n' ∉ (lines t)[i] := fun hmem =>
      (mem_of_mem_lines (List.getElem_mem hi) '\n' hmem).2 rfl
    split
    · simpa using hline
    · exact hline

/-- The units of a text make it up. -/
theorem flatten_units (t : Text) : (units t).flatten = t := by
  induction t using units.induct with
  | case1 rest ih => rw [units, List.flatten_cons, ih, List.cons_append, List.singleton_append]
  | case2 c rest _ ih =>
    rw [units, List.flatten_cons, ih, List.singleton_append]
    assumption
  | case3 => rfl

/-- A unit is a carriage return with a line feed behind it, or a single character. -/
theorem eq_of_mem_units {unit : Text} (h : unit ∈ units t) :
    unit = ['\r', '\n'] ∨ ∃ c, unit = [c] := by
  induction t using units.induct with
  | case1 rest ih =>
    rw [units] at h
    obtain rfl | h := List.mem_cons.mp h
    · exact .inl rfl
    · exact ih h
  | case2 c rest hrest ih =>
    rw [units] at h
    · obtain rfl | h := List.mem_cons.mp h
      · exact .inr ⟨c, rfl⟩
      · exact ih h
    · exact hrest
  | case3 => cases h

/-- All breaks are made line feeds in one pass over the units of a text. -/
theorem normalizeBreaks_eq_flatMap (t : Text) : normalizeBreaks t = (units t).flatMap withFeed := by
  induction t using units.induct with
  | case1 rest ih =>
    rw [units, List.flatMap_cons, ← ih]
    rfl
  | case2 c rest h ih =>
    have hunit : withFeed [c] = [if c = '\r' then '\n' else c] := by
      by_cases hc : c = '\r'
      · rw [hc]
        rfl
      · by_cases hn : c = '\n'
        · rw [hn]
          rfl
        · simp [withFeed, isBreak, hc, hn]
    have hjoin : joinBreaks (c :: rest) = c :: joinBreaks rest := by
      rw [joinBreaks]
      assumption
    rw [units, List.flatMap_cons, ← ih, hunit, normalizeBreaks, hjoin]
    · rfl
    · assumption
  | case3 => rfl

/-- A unit has a line feed in the place of a line break and none otherwise. -/
theorem count_newline_withFeed {unit : Text} (h : unit ∈ units t) :
    (withFeed unit).count '\n' = if isBreak unit then 1 else 0 := by
  by_cases hbreak : isBreak unit
  · rw [withFeed, if_pos hbreak, if_pos hbreak, List.count_singleton_self]
  · rw [withFeed, if_neg hbreak, if_neg hbreak, List.count_eq_zero]
    intro hmem
    obtain rfl | ⟨c, rfl⟩ := eq_of_mem_units h
    · exact hbreak rfl
    · rw [← List.mem_singleton.mp hmem] at hbreak
      exact hbreak rfl

/-- Where all breaks are line feeds, there are as many as there are breaks. -/
theorem count_newline_normalizeBreaks (t : Text) :
    (normalizeBreaks t).count '\n' = (units t).countP isBreak := by
  rw [normalizeBreaks_eq_flatMap]
  suffices h : ∀ us ⊆ units t, (us.flatMap withFeed).count '\n' = us.countP isBreak from
    h _ (List.Subset.refl _)
  intro us hus
  induction us with
  | nil => rfl
  | cons unit us ih =>
    obtain ⟨hunit, hus⟩ := List.cons_subset.mp hus
    rw [List.flatMap_cons, List.count_append, count_newline_withFeed hunit, ih hus,
      List.countP_cons, Nat.add_comm]

/-- Where all breaks are line feeds, no carriage return is left. -/
theorem return_notMem_normalizeBreaks (t : Text) : '\r' ∉ normalizeBreaks t := by
  rw [normalizeBreaks, replaceChar]
  intro hmem
  obtain ⟨c, -, hc⟩ := List.mem_map.mp hmem
  split at hc
  · cases hc
  · contradiction

/-- A text without carriage returns has no parts of line breaks to join. -/
theorem joinBreaks_of_notMem (ht : '\r' ∉ t) : joinBreaks t = t := by
  induction t using joinBreaks.induct with
  | case1 rest ih => exact absurd List.mem_cons_self ht
  | case2 c rest _ ih =>
    rw [joinBreaks, ih fun hmem => ht (List.mem_cons_of_mem c hmem)]
    assumption
  | case3 => rfl

/-- A text without carriage returns is left as it is. -/
theorem normalizeBreaks_of_notMem (ht : '\r' ∉ t) : normalizeBreaks t = t := by
  rw [normalizeBreaks, joinBreaks_of_notMem ht, replaceChar]
  refine (List.map_congr_left fun c hc => ?_).trans (List.map_id t)
  refine if_neg ?_
  rintro rfl
  exact ht hc

/-- A text has a line more than it has line feeds. -/
theorem length_lines (t : Text) : (lines t).length = t.count '\n' + 1 := by
  have hcount := count_newline_unlines (lines_ne_nil t) fun l hl hmem =>
    (mem_of_mem_lines hl '\n' hmem).2 rfl
  rw [unlines_lines] at hcount
  exact hcount.symm

end Text

namespace Comment

open Text

/-- Carriage returns at the ends of lines do not change the lines that are read. -/
theorem sourceLines_withReturns {t : Text} (ht : '\r' ∉ t) (chosen : Nat → Bool) :
    sourceLines (withReturns chosen t) = sourceLines t := by
  rw [sourceLines, sourceLines, lines_withReturns]
  refine List.ext_getElem (by simp) fun i _ hi => ?_
  rw [List.length_map] at hi
  have hline : '\r' ∉ (lines t)[i] := fun hmem =>
    ht (mem_of_mem_lines (List.getElem_mem hi) '\r' hmem).1
  simp only [List.getElem_map, List.getElem_mapIdx]
  split
  · rw [chomp_append_return, chomp_of_notMem hline]
  · rfl

/-- How lines end does not change the comments of a source: they are the same with a carriage return
before any choice of the line feeds and at the very end. Where all breaks are made line feeds, every
carriage return with a line feed behind it, every other carriage return and every line feed becomes
one line feed in a single pass. To do this again changes nothing, no carriage return is left, and
there is a line for each line break of the text, and one more. -/
theorem line_breaks_are_alike (style : Style) {t : Text} (ht : '\r' ∉ t) (chosen : Nat → Bool)
    (u : Text) :
    fragments style (withReturns chosen t) = fragments style t ∧
      (units u).flatten = u ∧
      normalizeBreaks u = (units u).flatMap withFeed ∧
      normalizeBreaks (normalizeBreaks u) = normalizeBreaks u ∧
      '\r' ∉ normalizeBreaks u ∧
      (lines (normalizeBreaks u)).length = (units u).countP isBreak + 1 := by
  have hreturn := return_notMem_normalizeBreaks u
  refine ⟨?_, flatten_units u, normalizeBreaks_eq_flatMap u, normalizeBreaks_of_notMem hreturn,
    hreturn, ?_⟩
  · rw [fragments, fragments, sourceLines_withReturns ht]
  · rw [length_lines, count_newline_normalizeBreaks]

/-- Two of three line feeds with a carriage return before them, the end of input with one, and a
text with all kinds of breaks in a row. -/
theorem line_breaks_are_alike_mixed :
    '\r' ∉ "x /* a\n * b */\n\n// c".toList ∧
      withReturns (· != 1) "x /* a\n * b */\n\n// c".toList =
        "x /* a\r\n * b */\n\r\n// c\r".toList ∧
      fragments .cLike "x /* a\r\n * b */\n\r\n// c\r".toList =
        fragments .cLike "x /* a\n * b */\n\n// c".toList ∧
      normalizeBreaks "a\r\r\nb\n\rc\r".toList = "a\n\nb\n\nc\n".toList ∧
      normalizeBreaks "a\n\nb\n\nc\n".toList = "a\n\nb\n\nc\n".toList ∧
      '\r' ∉ "a\n\nb\n\nc\n".toList ∧
      (lines "a\n\nb\n\nc\n".toList).length = 6 := by
  have ht : '\r' ∉ "x /* a\n * b */\n\n// c".toList := by decide
  have hreturns : withReturns (· != 1) "x /* a\n * b */\n\n// c".toList =
      "x /* a\r\n * b */\n\r\n// c\r".toList := by decide
  have hbreaks : normalizeBreaks "a\r\r\nb\n\rc\r".toList = "a\n\nb\n\nc\n".toList := by
    decide
  obtain ⟨hsame, -, -, hagain, hnone, hlength⟩ :=
    line_breaks_are_alike .cLike ht (· != 1) "a\r\r\nb\n\rc\r".toList
  rw [hreturns] at hsame
  rw [hbreaks] at hagain hnone hlength
  exact ⟨ht, hreturns, hsame, hbreaks, hagain, hnone, hlength⟩

end Comment

end Marginalia
