import Marginalia.Proofs.Template.LineRange
import Marginalia.Proofs.Text.Bytes

/-!
# Lines of offsets and lines without ranges

The offsets at which the lines of a text start stand in order, so a search for an offset among them
finds it or the place at which it would be put in, and either of the two tells the line. That line
is the number of line feeds among the bytes before the offset, which need not be the first byte of a
character. A text without ranges of lines keeps the lines whose number lies in no range.
-/

namespace Marginalia

namespace Template

open Text

/-! ## Lines of offsets -/

/-- The byte of a line feed stands in the form of no other character. -/
theorem newline_notMem_utf8EncodeChar {c : Char} (hc : c ≠ '\n') :
    (10 : UInt8) ∉ String.utf8EncodeChar c := by
  intro hmem
  have hnewline := (byteOf_mem_utf8_iff (c := '\n') (t := [c]) (by decide)).mp
    (by rwa [utf8_cons, utf8_nil, List.append_nil])
  exact hc (List.mem_singleton.mp hnewline).symm

/-- As many lines start up to an offset, behind the first one, as there are line feeds among the
bytes before it. -/
theorem length_takeWhile_startsFrom (base offset : Nat) (t : Text) :
    ((startsFrom base t).takeWhile (· ≤ base + offset)).length =
      ((utf8 t).take offset).count 10 := by
  induction t generalizing base offset with
  | nil => simp [startsFrom]
  | cons c t ih =>
    rw [startsFrom, utf8_cons]
    by_cases hc : c = '\n'
    · subst hc
      rw [if_pos rfl]
      change (((base + 1) :: startsFrom (base + 1) t).takeWhile _).length =
        ((10 :: utf8 t).take offset).count 10
      cases offset with
      | zero => simp
      | succ offset =>
        have hshift : base + (offset + 1) = base + 1 + offset := by omega
        rw [List.takeWhile_cons_of_pos (by simp), List.length_cons, hshift, ih, List.take_succ_cons,
          List.count_cons_self]
    · have hnone : ((String.utf8EncodeChar c).take offset).count 10 = 0 :=
        List.count_eq_zero.mpr fun hmem =>
          newline_notMem_utf8EncodeChar hc (List.mem_of_mem_take hmem)
      rw [if_neg hc, List.take_append, List.count_append, hnone, Nat.zero_add,
        String.length_utf8EncodeChar]
      by_cases hle : c.utf8Size ≤ offset
      · have hshift : base + offset = base + c.utf8Size + (offset - c.utf8Size) := by omega
        rw [hshift, ih]
      · -- the offset is inside the character, behind which the next line starts at the earliest
        have hbehind : (startsFrom (base + c.utf8Size) t).takeWhile (· ≤ base + offset) = [] := by
          rw [List.takeWhile_eq_nil_iff]
          intro hlt hstart
          have := bounds_of_mem_startsFrom (List.getElem_mem hlt)
          simp only [List.get_eq_getElem, decide_eq_true_eq] at hstart
          omega
        rw [hbehind, Nat.sub_eq_zero_of_le (Nat.le_of_not_le hle)]
        rfl

/-- The line of an offset is the number of line feeds among the bytes before it. -/
theorem lineOf_lineStarts (t : Text) (offset : Nat) :
    lineOf (lineStarts t) offset = ((utf8 t).take offset).count 10 := by
  have hstarts := length_takeWhile_startsFrom 0 offset t
  rw [Nat.zero_add] at hstarts
  rw [lineOf, lineStarts, List.takeWhile_cons_of_pos (by simp), List.length_cons,
    Nat.add_sub_cancel, hstarts]

/-- The lines of a text start one behind the other. -/
theorem pairwise_startsFrom (offset : Nat) (t : Text) :
    (startsFrom offset t).Pairwise (· < ·) := by
  induction t generalizing offset with
  | nil => exact List.Pairwise.nil
  | cons c t ih =>
    rw [startsFrom]
    split
    · exact List.pairwise_cons.mpr ⟨fun start h => (bounds_of_mem_startsFrom h).1, ih _⟩
    · exact ih _

/-- The offsets of the lines of a text stand in order, without repetition. -/
theorem pairwise_lineStarts (t : Text) : (lineStarts t).Pairwise (· < ·) :=
  List.pairwise_cons.mpr ⟨fun _ h => (bounds_of_mem_startsFrom h).1, pairwise_startsFrom 0 t⟩

/-- What a search for a number among numbers in order tells: the place where it stands or, if it
does not stand there, the place at which it would be put in. -/
inductive IsFound (n : Nat) : List Nat → Nat ⊕ Nat → Prop
  | standing (before behind : List Nat) :
      IsFound n (before ++ n :: behind) (.inl before.length)
  | missing (before behind : List Nat) (hbefore : ∀ m ∈ before, m < n)
      (hbehind : ∀ m ∈ behind, n < m) : IsFound n (before ++ behind) (.inr before.length)

/-- A search among numbers in order tells one of the two. -/
theorem exists_isFound {ns : List Nat} (hns : ns.Pairwise (· < ·)) (n : Nat) :
    ∃ found, IsFound n ns found := by
  induction ns with
  | nil => exact ⟨_, .missing [] [] (by simp) (by simp)⟩
  | cons m ns ih =>
    obtain ⟨hm, hns⟩ := List.pairwise_cons.mp hns
    rcases Nat.lt_trichotomy m n with hlt | rfl | hgt
    · obtain ⟨found, hfound⟩ := ih hns
      cases hfound with
      | standing before behind => exact ⟨_, .standing (m :: before) behind⟩
      | missing before behind hbefore hbehind =>
        exact ⟨_, .missing (m :: before) behind (List.forall_mem_cons.mpr ⟨hlt, hbefore⟩) hbehind⟩
    · exact ⟨_, .standing [] ns⟩
    · refine ⟨_, .missing [] (m :: ns) (by simp) (List.forall_mem_cons.mpr ⟨hgt, ?_⟩)⟩
      exact fun k hk => hgt.trans (hm k hk)

/-- The line that a search for an offset among the offsets of lines tells: the one that starts
there, or the one before the place at which the offset would be put in. -/
def foundLine : Nat ⊕ Nat → Nat
  | .inl line => line
  | .inr place => place - 1

/-- The numbers up to one before which others stand and behind which the larger ones do. -/
theorem takeWhile_le_append {n : Nat} {before behind : List Nat} (hbefore : ∀ m ∈ before, m ≤ n)
    (hbehind : ∀ m ∈ behind, n < m) : (before ++ behind).takeWhile (· ≤ n) = before := by
  have hnone : behind.takeWhile (· ≤ n) = [] := by
    rw [List.takeWhile_eq_nil_iff]
    intro hlt hle
    have := hbehind _ (List.getElem_mem hlt)
    simp only [List.get_eq_getElem, decide_eq_true_eq] at hle
    omega
  rw [List.takeWhile_append_of_pos fun m hm => decide_eq_true (hbefore m hm), hnone,
    List.append_nil]

/-- A search tells the last line that does not start behind an offset. -/
theorem foundLine_eq_lineOf {starts : List Nat} {offset : Nat} {found : Nat ⊕ Nat}
    (hstarts : starts.Pairwise (· < ·)) (h : IsFound offset starts found) :
    foundLine found = lineOf starts offset := by
  cases h with
  | standing before behind =>
    obtain ⟨-, hlast, hbefore⟩ := List.pairwise_append.mp hstarts
    have hupTo : ∀ m ∈ before ++ [offset], m ≤ offset := by
      refine List.forall_mem_append.mpr ⟨fun m hm => ?_, by simp⟩
      exact Nat.le_of_lt (hbefore m hm offset List.mem_cons_self)
    rw [lineOf, List.append_cons, takeWhile_le_append hupTo (List.pairwise_cons.mp hlast).1]
    simp [foundLine]
  | missing before behind hbefore hbehind =>
    rw [lineOf, takeWhile_le_append (fun m hm => Nat.le_of_lt (hbefore m hm)) hbehind]
    rfl

/-! ## Lines without ranges -/

/-- Lines are found and taken out by their numbers. The line of an offset is the number of line
feeds among the bytes before it, and this is the line that a search for the offset among the offsets
of lines tells. A text without ranges of lines, which may stand in any order, overlap, touch, repeat
and reach behind the last line, has those of its lines whose number lies in none of them. -/
theorem lines_go_by_number (t : Text) :
    (∀ offset,
        lineOf (lineStarts t) offset = ((utf8 t).take offset).count 10 ∧
          (∃ found, IsFound offset (lineStarts t) found) ∧
          ∀ found, IsFound offset (lineStarts t) found →
            foundLine found = ((utf8 t).take offset).count 10) ∧
      ∀ ranges : List LineRange, (∀ r ∈ ranges, r.first ≤ r.last) →
        removeLines ranges t = unlines (((lines t).zipIdx.filter fun l =>
          ∀ r ∈ ranges, ¬(r.first ≤ l.2 ∧ l.2 ≤ r.last)).map Prod.fst) := by
  have hstarts := pairwise_lineStarts t
  refine ⟨fun offset => ⟨lineOf_lineStarts t offset, exists_isFound hstarts offset, ?_⟩, ?_⟩
  · intro found hfound
    rw [foundLine_eq_lineOf hstarts hfound, lineOf_lineStarts]
  · intro ranges hranges
    have hcovers (k : Nat) : (!LineRange.covers ranges k) =
        decide (∀ r ∈ ranges, ¬(r.first ≤ k ∧ k ≤ r.last)) := by
      rw [Bool.eq_iff_iff, Bool.not_eq_true', ← Bool.not_eq_true, LineRange.covers_eq_true_iff]
      simp
    rw [removeLines_eq hranges, keepLines]
    simp only [hcovers]

/-- An offset inside a character and one behind a line feed, and ranges that touch, repeat and reach
behind the last line. -/
theorem lines_go_by_number_touchingRanges :
    let t := "é\nb\nc\nd\ne".toList
    let ranges : List LineRange := [⟨3, 9⟩, ⟨1, 1⟩, ⟨0, 0⟩, ⟨3, 3⟩, ⟨1, 1⟩]
    (∀ r ∈ ranges, r.first ≤ r.last) ∧ lineOf (lineStarts t) 1 = 0 ∧ lineOf (lineStarts t) 3 = 1 ∧
      removeLines ranges t = "c".toList := by
  intro t ranges
  obtain ⟨hlines, hremoved⟩ := lines_go_by_number t
  have hranges : ∀ r ∈ ranges, r.first ≤ r.last := by decide
  exact ⟨hranges, (hlines 1).1.trans (by decide), (hlines 3).1.trans (by decide),
    (hremoved ranges hranges).trans (by decide)⟩

end Template

end Marginalia
