import Marginalia.Proofs.Template.Removal

/-!
# What marks leave behind

Only the line on which a mark starts is taken out for its own sake. A mark that is written over
several lines leaves the others behind, unless it bounds or lies in a section whose guard is false,
or unless it has just one more line and another mark starts there.
-/

namespace Marginalia.Template

open Text

variable {d : Document} {t u : Text}

/-- Whether some lines lie in a section whose guard is false. -/
def IsWithinDropped (d : Document) (t : Text) (first last : Nat) : Prop :=
  ∃ s ∈ (marks t).sections, isFalse d s.guard = true ∧
    lineOf (lineStarts t) s.start ≤ first ∧ last ≤ lineOf (lineStarts t) s.stop

/-- A line is in a dropped section when it lies in one on its own. -/
theorem inDroppedSection_eq_true_iff {k : Nat} :
    inDroppedSection d t k = true ↔ IsWithinDropped d t k k := by
  simp [inDroppedSection, IsWithinDropped]

/-- A mark starts at every place of the marks. -/
theorem exists_of_mem_places {place : Nat} (h : place ∈ (marks t).places) :
    ∃ p ∈ expressions t, p.expression.isMark = true ∧ p.start = place := by
  simpa [marks] using mem_places_matchMarks.mp h

/-- A section starts and stops at places of the marks. -/
theorem mem_places_of_mem_sections {s : Conditional} (hs : s ∈ (marks t).sections) :
    s.start ∈ (marks t).places ∧ s.stop ∈ (marks t).places := by
  constructor
  · exact List.mem_append_right _ (List.mem_flatMap.mpr ⟨s, hs, by simp⟩)
  · exact List.mem_append_right _ (List.mem_flatMap.mpr ⟨s, hs, by simp⟩)

/-- The first line of a mark is taken out. -/
theorem isRemoved_lineOf_start {p : Placed} (hp : p ∈ expressions t)
    (hmark : p.expression.isMark = true) :
    isRemoved d t (lineOf (lineStarts t) p.start) = true := by
  rw [isRemoved, Bool.or_eq_true]
  exact .inl (List.any_eq_true.mpr ⟨p, hp, by simp [hmark]⟩)

/-- Each later line of an expression that is taken out lies, with the whole expression, in a section
whose guard is false, or it is the last one and a mark starts on it. -/
theorem isWithinDropped_or_startsMark {p : Placed} (hp : p ∈ expressions t) {k : Nat}
    (hfirst : lineOf (lineStarts t) p.start < k) (hlast : k ≤ lineOf (lineStarts t) p.stop)
    (hk : isRemoved d t k = true) :
    IsWithinDropped d t (lineOf (lineStarts t) p.start) (lineOf (lineStarts t) p.stop) ∨
      k = lineOf (lineStarts t) p.stop ∧ startsMark t k = true := by
  have hapart {place : Nat} (hplace : place ∈ (marks t).places) :
      lineOf (lineStarts t) place ≤ lineOf (lineStarts t) p.start ∨
        lineOf (lineStarts t) p.stop ≤ lineOf (lineStarts t) place := by
    obtain ⟨q, hq, -, rfl⟩ := exists_of_mem_places hplace
    exact lineOf_start_le_or_le hp hq
  rw [isRemoved, Bool.or_eq_true] at hk
  rcases hk with hk | hk
  · obtain ⟨place, hplace, hline⟩ := startsMark_eq_true_iff.mp hk
    have := hapart hplace
    exact .inr ⟨by omega, hk⟩
  · obtain ⟨s, hs, hfalse, hle, hge⟩ := inDroppedSection_eq_true_iff.mp hk
    obtain ⟨hstart, hstop⟩ := mem_places_of_mem_sections hs
    rcases hapart hstart with hbefore | hbehind
    · have := hapart hstop
      exact .inl ⟨s, hs, hfalse, hbefore, by omega⟩
    · exact .inr ⟨by omega, startsMark_eq_true_iff.mpr ⟨s.start, hstart, by omega⟩⟩

/-- A mark loses all its lines exactly when it stands on one line, when it bounds or lies in a
section whose guard is false, or when it has one more line and another mark starts there. -/
theorem isRemoved_lines_of_mark_iff {p : Placed} (hp : p ∈ expressions t)
    (hmark : p.expression.isMark = true) :
    (∀ k, lineOf (lineStarts t) p.start ≤ k → k ≤ lineOf (lineStarts t) (p.stop - 1) →
        isRemoved d t k = true) ↔
      lineOf (lineStarts t) p.start = lineOf (lineStarts t) (p.stop - 1) ∨
        IsWithinDropped d t (lineOf (lineStarts t) p.start) (lineOf (lineStarts t) (p.stop - 1)) ∨
        lineOf (lineStarts t) p.start + 1 = lineOf (lineStarts t) (p.stop - 1) ∧
          startsMark t (lineOf (lineStarts t) (p.stop - 1)) = true := by
  rw [lineOf_stop_sub_one hp]
  have hle := (le_of_mem_linedFrom (relocate_mem_lined hp)).2
  rw [Placed.relocate] at hle
  constructor
  · intro h
    rcases Nat.eq_or_lt_of_le hle with heq | hlt
    · exact .inl heq
    · have hnext := h (lineOf (lineStarts t) p.start + 1) (Nat.le_add_right _ _) hlt
      rcases isWithinDropped_or_startsMark hp (Nat.lt_add_one _) hlt hnext with hdrop | ⟨hlast, hnext⟩
      · exact .inr (.inl hdrop)
      · exact .inr (.inr ⟨hlast, hlast ▸ hnext⟩)
  · have hstart : isRemoved d t (lineOf (lineStarts t) p.start) = true :=
      isRemoved_lineOf_start hp hmark
    intro h k hfirst hk
    rcases h with heq | ⟨s, hs, hfalse, hbefore, hbehind⟩ | ⟨hone, hlast⟩
    · rwa [show k = lineOf (lineStarts t) p.start by omega]
    · rw [isRemoved, Bool.or_eq_true]
      refine .inr (inDroppedSection_eq_true_iff.mpr ⟨s, hs, hfalse, ?_, ?_⟩)
      · exact Nat.le_trans hbefore hfirst
      · exact Nat.le_trans hk hbehind
    · rcases Nat.eq_or_lt_of_le hfirst with rfl | hlt
      · exact hstart
      · rw [isRemoved, Bool.or_eq_true, show k = lineOf (lineStarts t) p.stop by omega]
        exact .inl hlast

/-- The conditional pass leaves the lines that are not taken out, and of those of a mark it leaves
some unless the mark stands on one line, bounds or lies in a section whose guard is false, or has
one more line on which another mark starts. -/
theorem resolveSections_lines_of_mark (hresolve : resolveSections d t = .ok u) :
    u = unlines (keepLines (isRemoved d t) (lines t)) ∧
      ∀ p ∈ expressions t, p.expression.isMark = true →
        ((∀ k, lineOf (lineStarts t) p.start ≤ k → k ≤ lineOf (lineStarts t) (p.stop - 1) →
            isRemoved d t k = true) ↔
          lineOf (lineStarts t) p.start = lineOf (lineStarts t) (p.stop - 1) ∨
            IsWithinDropped d t (lineOf (lineStarts t) p.start)
              (lineOf (lineStarts t) (p.stop - 1)) ∨
            lineOf (lineStarts t) p.start + 1 = lineOf (lineStarts t) (p.stop - 1) ∧
              startsMark t (lineOf (lineStarts t) (p.stop - 1)) = true) :=
  ⟨(resolveSections_eq_ok_iff.mp hresolve).2, fun _ hp hmark => isRemoved_lines_of_mark_iff hp hmark⟩

/-- Of an end mark over two lines that closes a false section, the second line stays. -/
theorem resolveSections_lines_of_mark_guard :
    "\x7d\x7d".toList = unlines (keepLines
        (isRemoved .empty "\x7b\x7b @if a:has(b) \x7d\x7d\nc\n\x7b\x7b @end\n\x7d\x7d".toList)
        (lines "\x7b\x7b @if a:has(b) \x7d\x7d\nc\n\x7b\x7b @end\n\x7d\x7d".toList)) ∧
      ¬ ∀ k, 2 ≤ k → k ≤ 3 → isRemoved .empty
        "\x7b\x7b @if a:has(b) \x7d\x7d\nc\n\x7b\x7b @end\n\x7d\x7d".toList k = true := by
  generalize ht : "\x7b\x7b @if a:has(b) \x7d\x7d\nc\n\x7b\x7b @end\n\x7d\x7d".toList = t
  have hresolve : resolveSections .empty t = .ok "\x7d\x7d".toList := by
    subst ht
    decide +kernel
  have hmem : ⟨.sectionEnd, 21, 31⟩ ∈ expressions t := by
    rw [show expressions t = [⟨.sectionStart ⟨['a'], "has".toList, [['b']]⟩, 0, 18⟩,
      ⟨.sectionEnd, 21, 31⟩] by subst ht; decide +kernel]
    exact List.mem_cons_of_mem _ List.mem_cons_self
  have hfirst : lineOf (lineStarts t) 21 = 2 := by
    subst ht
    decide +kernel
  have hlast : lineOf (lineStarts t) (31 - 1) = 3 := by
    subst ht
    decide +kernel
  have hsections : (marks t).sections = [⟨⟨['a'], "has".toList, [['b']]⟩, 0, 21⟩] := by
    subst ht
    decide +kernel
  have hnext : startsMark t 3 = false := by
    subst ht
    decide +kernel
  obtain ⟨hleft, hlines⟩ := resolveSections_lines_of_mark hresolve
  have hmark := hlines ⟨.sectionEnd, 21, 31⟩ hmem rfl
  rw [hfirst, hlast] at hmark
  refine ⟨hleft, fun hall => ?_⟩
  rcases hmark.mp hall with hone | ⟨s, hs, -, -, hstop⟩ | ⟨-, hstart⟩
  · omega
  · rw [hsections, List.mem_singleton] at hs
    rw [hs, hfirst] at hstop
    omega
  · rw [hnext] at hstart
    cases hstart

/-- An end mark over two lines of which the second stays, though the mark reaches it. -/
theorem resolveSections_end_over_two_lines :
    resolveSections .empty "\x7b\x7b @end\n\x7d\x7d".toList = .ok "\x7d\x7d".toList ∧
      expressions "\x7b\x7b @end\n\x7d\x7d".toList = [⟨.sectionEnd, 0, 10⟩] ∧
      lineOf (lineStarts "\x7b\x7b @end\n\x7d\x7d".toList) (10 - 1) = 1 ∧
      lines "\x7b\x7b @end\n\x7d\x7d".toList = ["\x7b\x7b @end".toList, "\x7d\x7d".toList] := by
  refine ⟨?_, ?_, ?_, ?_⟩ <;> decide +kernel

end Marginalia.Template
