import Marginalia.Proofs.Text.Lines
import Marginalia.Template.LineRange

/-!
# The lines that ranges take out

Taking ranges out of a text leaves the lines whose number lies in none of them, whatever the order
of the ranges and however they overlap: joining the ranges keeps the lines they cover, and ranges
that stand apart can be taken out one after another from the last. The line of an offset is the
number of line feeds before it.
-/

namespace Marginalia.Template

open Text

/-- The lines that are left when those with some numbers are taken out. -/
def keepLines (removed : Nat → Bool) (ls : List Text) : List Text :=
  (ls.zipIdx.filter fun l => !removed l.2).map Prod.fst

@[simp] theorem keepLines_nil (removed : Nat → Bool) : keepLines removed [] = [] := rfl

/-- The first line stays unless its number is taken out; the others are numbered from one. -/
theorem keepLines_cons (removed : Nat → Bool) (l : Text) (ls : List Text) :
    keepLines removed (l :: ls) =
      if removed 0 then keepLines (fun k => removed (k + 1)) ls
      else l :: keepLines (fun k => removed (k + 1)) ls := by
  have htail : (((ls.zipIdx 1).filter fun l => !removed l.2).map Prod.fst) =
      keepLines (fun k => removed (k + 1)) ls := by
    rw [List.zipIdx_succ, List.filter_map, List.map_map]
    rfl
  rw [keepLines, List.zipIdx_cons, List.filter_cons, ← htail]
  cases removed 0 <;> simp

/-- The lines behind some lines are numbered from the number of those. -/
theorem keepLines_append (removed : Nat → Bool) (ls ms : List Text) :
    keepLines removed (ls ++ ms) =
      keepLines removed ls ++ keepLines (fun k => removed (k + ls.length)) ms := by
  induction ls generalizing removed with
  | nil => simp
  | cons l ls ih =>
    rw [List.cons_append, keepLines_cons, keepLines_cons, ih]
    have hshift : (fun k => removed (k + ls.length + 1)) =
        fun k => removed (k + (l :: ls).length) := by
      funext k
      rw [List.length_cons, Nat.add_assoc]
    rw [hshift]
    split <;> simp

/-- The lines from some number on are treated apart from those before it. -/
theorem keepLines_take_append_drop (removed : Nat → Bool) (n : Nat) (ls : List Text) :
    keepLines removed ls =
      keepLines removed (ls.take n) ++ keepLines (fun k => removed (k + n)) (ls.drop n) := by
  by_cases hn : n ≤ ls.length
  · conv =>
      lhs
      rw [← List.take_append_drop n ls]
    rw [keepLines_append, List.length_take_of_le hn]
  · have hlt : ls.length ≤ n := by omega
    rw [List.take_of_length_le hlt, List.drop_of_length_le hlt]
    simp

/-- Only the numbers of the lines matter. -/
theorem keepLines_congr {removed removed' : Nat → Bool} {ls : List Text}
    (h : ∀ k < ls.length, removed k = removed' k) : keepLines removed ls = keepLines removed' ls := by
  induction ls generalizing removed removed' with
  | nil => rfl
  | cons l ls ih =>
    rw [keepLines_cons, keepLines_cons, h 0 (by simp),
      ih fun k hk => h (k + 1) (by simpa using hk)]

/-- The lines behind a first one are numbered from the next number. -/
theorem keepLines_succ (removed : Nat → Bool) (n : Nat) (ls : List Text) :
    keepLines (fun k => removed (n + (k + 1))) ls = keepLines (fun k => removed (n + 1 + k)) ls := by
  apply keepLines_congr
  intro k _
  rw [Nat.add_right_comm, Nat.add_assoc]

/-- All lines stay when no number is taken out. -/
theorem keepLines_of_forall_false {removed : Nat → Bool} {ls : List Text}
    (h : ∀ k < ls.length, removed k = false) : keepLines removed ls = ls := by
  induction ls generalizing removed with
  | nil => rfl
  | cons l ls ih =>
    rw [keepLines_cons, h 0 (by simp), ih fun k hk => h (k + 1) (by simpa using hk)]
    rfl

/-- No line stays when every number is taken out. -/
theorem keepLines_of_forall_true {removed : Nat → Bool} {ls : List Text}
    (h : ∀ k < ls.length, removed k = true) : keepLines removed ls = [] := by
  induction ls generalizing removed with
  | nil => rfl
  | cons l ls ih =>
    rw [keepLines_cons, h 0 (by simp), ih fun k hk => h (k + 1) (by simpa using hk)]
    rfl

namespace LineRange

/-- Whether a line lies in one of the ranges. -/
def covers (ranges : List LineRange) (k : Nat) : Bool :=
  ranges.any fun r => r.first ≤ k && k ≤ r.last

/-- A line is covered exactly when it lies between the ends of a range. -/
theorem covers_eq_true_iff {ranges : List LineRange} {k : Nat} :
    covers ranges k = true ↔ ∃ r ∈ ranges, r.first ≤ k ∧ k ≤ r.last := by
  simp [covers]

@[simp] theorem covers_nil (k : Nat) : covers [] k = false := rfl

@[simp] theorem covers_cons (r : LineRange) (ranges : List LineRange) (k : Nat) :
    covers (r :: ranges) k = ((r.first ≤ k && k ≤ r.last) || covers ranges k) := rfl

/-- The lines of ranges behind one another are those of the first and those of the second. -/
theorem covers_append (ranges later : List LineRange) (k : Nat) :
    covers (ranges ++ later) k = (covers ranges k || covers later k) :=
  List.any_append

/-- The lines of ranges that are listed for each of some things. -/
theorem covers_flatMap {α : Type} {f : α → List LineRange} {xs : List α} {k : Nat} :
    covers (xs.flatMap f) k = true ↔ ∃ x ∈ xs, covers (f x) k = true := by
  rw [covers, List.any_flatMap, List.any_eq_true]
  rfl

/-- Sorting keeps the lines that ranges cover. -/
theorem covers_mergeSort (ranges : List LineRange) (k : Nat) :
    covers (ranges.mergeSort le) k = covers ranges k := by
  rw [Bool.eq_iff_iff, covers_eq_true_iff, covers_eq_true_iff]
  simp only [List.mem_mergeSort]

/-- Sorted ranges stand in the order of their first lines. -/
theorem pairwise_first_mergeSort (ranges : List LineRange) :
    (ranges.mergeSort le).Pairwise fun a b => a.first ≤ b.first := by
  have htrans : ∀ a b c : LineRange, le a b = true → le b c = true → le a c = true := by
    intro a b c hab hbc
    simp only [le, Bool.or_eq_true, Bool.and_eq_true, decide_eq_true_eq, beq_iff_eq] at hab hbc ⊢
    omega
  have htotal : ∀ a b : LineRange, (le a b || le b a) = true := by
    intro a b
    simp only [le, Bool.or_eq_true, Bool.and_eq_true, decide_eq_true_eq, beq_iff_eq]
    omega
  refine (List.pairwise_mergeSort htrans htotal ranges).imp fun hab => ?_
  simp only [le, Bool.or_eq_true, Bool.and_eq_true, decide_eq_true_eq, beq_iff_eq] at hab
  omega

/-- Joining ranges that follow one another in order keeps the lines that they cover. -/
theorem covers_absorb {r : LineRange} {ranges : List LineRange} (hr : r.first ≤ r.last)
    (hle : ∀ s ∈ ranges, r.first ≤ s.first) (hwf : ∀ s ∈ ranges, s.first ≤ s.last)
    (hsorted : ranges.Pairwise fun a b => a.first ≤ b.first) (k : Nat) :
    covers (absorb r ranges) k = covers (r :: ranges) k := by
  induction ranges generalizing r with
  | nil => rfl
  | cons s rest ih =>
    obtain ⟨hs, hrest⟩ := List.pairwise_cons.mp hsorted
    have hrs := hle s List.mem_cons_self
    have hwfs := hwf s List.mem_cons_self
    have hwfrest : ∀ b ∈ rest, b.first ≤ b.last := fun b hb => hwf b (List.mem_cons_of_mem s hb)
    rw [absorb]
    split
    · rename_i hreach
      have hjoin : r.first ≤ max r.last s.last := by omega
      rw [ih (r := ⟨r.first, max r.last s.last⟩) hjoin (fun b hb => Nat.le_trans hrs (hs b hb))
        hwfrest hrest, Bool.eq_iff_iff]
      simp only [covers_cons, Bool.or_eq_true, Bool.and_eq_true, decide_eq_true_eq, ← or_assoc]
      refine or_congr_left ?_
      omega
    · rw [covers_cons, ih hwfs hs hwfrest hrest, covers_cons r]

/-- Joined ranges start no earlier than the first range. -/
theorem le_first_of_mem_absorb {r q : LineRange} {ranges : List LineRange}
    (hle : ∀ s ∈ ranges, r.first ≤ s.first)
    (hsorted : ranges.Pairwise fun a b => a.first ≤ b.first) (hq : q ∈ absorb r ranges) :
    r.first ≤ q.first := by
  induction ranges generalizing r with
  | nil => exact Nat.le_of_eq (congrArg first (List.mem_singleton.mp hq).symm)
  | cons s rest ih =>
    obtain ⟨hs, hrest⟩ := List.pairwise_cons.mp hsorted
    rw [absorb] at hq
    split at hq
    · exact ih (r := ⟨r.first, max r.last s.last⟩)
        (fun b hb => hle b (List.mem_cons_of_mem s hb)) hrest hq
    · rcases List.mem_cons.mp hq with rfl | hq
      · exact Nat.le_refl _
      · exact Nat.le_trans (hle s List.mem_cons_self) (ih hs hrest hq)

/-- Joined ranges neither overlap nor touch. -/
theorem pairwise_absorb {r : LineRange} {ranges : List LineRange}
    (hsorted : ranges.Pairwise fun a b => a.first ≤ b.first) :
    (absorb r ranges).Pairwise fun a b => a.last + 1 < b.first := by
  induction ranges generalizing r with
  | nil => exact List.pairwise_singleton _ _
  | cons s rest ih =>
    obtain ⟨hs, hrest⟩ := List.pairwise_cons.mp hsorted
    rw [absorb]
    split
    · exact ih hrest
    · refine List.pairwise_cons.mpr ⟨fun q hq => ?_, ih hrest⟩
      have := le_first_of_mem_absorb hs hrest hq
      omega

/-- Joined ranges end no earlier than they start. -/
theorem first_le_last_of_mem_absorb {r q : LineRange} {ranges : List LineRange}
    (hr : r.first ≤ r.last) (hwf : ∀ s ∈ ranges, s.first ≤ s.last) (hq : q ∈ absorb r ranges) :
    q.first ≤ q.last := by
  induction ranges generalizing r with
  | nil => rwa [List.mem_singleton.mp hq]
  | cons s rest ih =>
    have hrest : ∀ b ∈ rest, b.first ≤ b.last := fun b hb => hwf b (List.mem_cons_of_mem s hb)
    rw [absorb] at hq
    split at hq
    · exact ih (r := ⟨r.first, max r.last s.last⟩) (Nat.le_trans hr (Nat.le_max_left _ _)) hrest hq
    · rcases List.mem_cons.mp hq with rfl | hq
      · exact hr
      · exact ih (hwf s List.mem_cons_self) hrest hq

/-- Joining ranges keeps the lines that they cover. -/
theorem covers_merge {ranges : List LineRange} (hwf : ∀ r ∈ ranges, r.first ≤ r.last) (k : Nat) :
    covers (merge ranges) k = covers ranges k := by
  have hsorted := pairwise_first_mergeSort ranges
  have hwf' : ∀ r ∈ ranges.mergeSort le, r.first ≤ r.last := fun r hr =>
    hwf r (List.mem_mergeSort.mp hr)
  rw [merge, ← covers_mergeSort ranges k]
  cases h : ranges.mergeSort le with
  | nil => rfl
  | cons r rest =>
    rw [h] at hsorted hwf'
    obtain ⟨hr, hrest⟩ := List.pairwise_cons.mp hsorted
    exact covers_absorb (hwf' r List.mem_cons_self) hr
      (fun s hs => hwf' s (List.mem_cons_of_mem r hs)) hrest k

/-- Joined ranges neither overlap nor touch, and stand in order. -/
theorem pairwise_merge (ranges : List LineRange) :
    (merge ranges).Pairwise fun a b => a.last + 1 < b.first := by
  have hsorted := pairwise_first_mergeSort ranges
  rw [merge]
  cases h : ranges.mergeSort le with
  | nil => exact List.Pairwise.nil
  | cons r rest =>
    rw [h] at hsorted
    exact pairwise_absorb (List.pairwise_cons.mp hsorted).2

/-- Joining ranges gives ranges that end no earlier than they start. -/
theorem first_le_last_of_mem_merge {q : LineRange} {ranges : List LineRange}
    (hwf : ∀ r ∈ ranges, r.first ≤ r.last) (hq : q ∈ merge ranges) : q.first ≤ q.last := by
  have hwf' : ∀ r ∈ ranges.mergeSort le, r.first ≤ r.last := fun r hr =>
    hwf r (List.mem_mergeSort.mp hr)
  rw [merge] at hq
  cases h : ranges.mergeSort le with
  | nil =>
    rw [h] at hq
    cases hq
  | cons r rest =>
    rw [h] at hq hwf'
    exact first_le_last_of_mem_absorb (hwf' r List.mem_cons_self)
      (fun s hs => hwf' s (List.mem_cons_of_mem r hs)) hq

/-- Ranges that start behind a line do not cover it. -/
theorem covers_eq_false {n k : Nat} {ranges : List LineRange}
    (hlater : ∀ s ∈ ranges, n + 1 < s.first) (hk : k ≤ n) : covers ranges k = false := by
  rw [← Bool.not_eq_true, covers_eq_true_iff]
  intro h
  obtain ⟨s, hs, hfirst, -⟩ := h
  have := hlater s hs
  omega

/-- Of a text whose ranges start behind a line, the lines up to that one stay. -/
theorem keepLines_covers_later {n : Nat} {ranges : List LineRange}
    (hlater : ∀ s ∈ ranges, n + 1 < s.first) (ls : List Text) :
    keepLines (covers ranges) ls = ls.take (n + 1) ++
      keepLines (fun k => covers ranges (k + (n + 1))) (ls.drop (n + 1)) := by
  rw [keepLines_take_append_drop _ (n + 1)]
  congr 1
  apply keepLines_of_forall_false
  intro k hk
  have hlen := lt_of_lt_of_le hk (List.length_take_le _ _)
  exact covers_eq_false hlater (by omega)

/-- Behind the last line of a range, it covers nothing. -/
theorem covers_cons_behind (r : LineRange) (ranges : List LineRange) :
    (fun k => covers (r :: ranges) (k + (r.last + 1))) =
      fun k => covers ranges (k + (r.last + 1)) := by
  funext k
  rw [covers_cons]
  simp only [Bool.or_eq_right_iff_imp, Bool.and_eq_true, decide_eq_true_eq]
  omega

/-- Of a text whose first range lies before the others, the lines before that range stay, and of
those behind it the ones that the others leave. -/
theorem keepLines_covers_cons {r : LineRange} {ranges : List LineRange}
    (hr : r.first ≤ r.last) (hlater : ∀ s ∈ ranges, r.last + 1 < s.first) (ls : List Text) :
    keepLines (covers (r :: ranges)) ls = ls.take r.first ++
      keepLines (fun k => covers ranges (k + (r.last + 1))) (ls.drop (r.last + 1)) := by
  have hbefore : keepLines (covers (r :: ranges)) (ls.take r.first) = ls.take r.first := by
    apply keepLines_of_forall_false
    intro k hk
    have hk' : k < r.first := lt_of_lt_of_le hk (List.length_take_le _ _)
    rw [covers_cons, covers_eq_false hlater (by omega)]
    simp only [Bool.or_false, Bool.and_eq_false_iff, decide_eq_false_iff_not]
    omega
  have hinside : keepLines (fun k => covers (r :: ranges) (k + r.first))
      ((ls.drop r.first).take (r.last + 1 - r.first)) = [] := by
    apply keepLines_of_forall_true
    intro k hk
    have hk' : k < r.last + 1 - r.first := lt_of_lt_of_le hk (List.length_take_le _ _)
    rw [covers_cons, Bool.or_eq_true, Bool.and_eq_true, decide_eq_true_eq, decide_eq_true_eq]
    omega
  have hjoin : ∀ k, k + (r.last + 1 - r.first) + r.first = k + (r.last + 1) := by
    intro k
    omega
  have hdrop : r.first + (r.last + 1 - r.first) = r.last + 1 := by omega
  rw [keepLines_take_append_drop _ r.first, hbefore,
    keepLines_take_append_drop _ (r.last + 1 - r.first), hinside, List.nil_append,
    List.drop_drop, ← covers_cons_behind]
  simp only [hjoin, hdrop]

/-- Taking out a range that lies before other ranges, after those have been taken out, leaves the
lines that neither covers. -/
theorem removeFrom_keepLines {r : LineRange} {ranges : List LineRange}
    (hr : r.first ≤ r.last) (hlater : ∀ s ∈ ranges, r.last + 1 < s.first) (ls : List Text) :
    removeFrom (keepLines (covers ranges) ls) r = keepLines (covers (r :: ranges)) ls := by
  rw [keepLines_covers_cons hr hlater, keepLines_covers_later hlater, removeFrom]
  by_cases hlen : r.last + 1 ≤ ls.length
  · have hfirst : r.first ≤ (ls.take (r.last + 1)).length := by
      rw [List.length_take_of_le hlen]
      omega
    rw [List.take_append_of_le_length hfirst, List.take_take, Nat.min_eq_left (by omega),
      List.drop_left' (List.length_take_of_le hlen)]
  · have hdrop : ls.drop (r.last + 1) = [] := List.drop_of_length_le (by omega)
    have htake : ls.take (r.last + 1) = ls := List.take_of_length_le (by omega)
    rw [hdrop, htake]
    simp [hdrop]

/-- Ranges that stand apart, taken out from the last to the first, leave the lines that none
covers. -/
theorem foldl_removeFrom {ranges : List LineRange} (hwf : ∀ r ∈ ranges, r.first ≤ r.last)
    (hapart : ranges.Pairwise fun a b => a.last + 1 < b.first) (ls : List Text) :
    ranges.reverse.foldl removeFrom ls = keepLines (covers ranges) ls := by
  rw [List.foldl_reverse]
  induction ranges with
  | nil => exact (keepLines_of_forall_false fun k _ => covers_nil k).symm
  | cons r rest ih =>
    obtain ⟨hr, hrest⟩ := List.pairwise_cons.mp hapart
    rw [List.foldr_cons, ih (fun s hs => hwf s (List.mem_cons_of_mem r hs)) hrest,
      removeFrom_keepLines (hwf r List.mem_cons_self) hr]

end LineRange

/-- Taking ranges out of a text leaves the lines that none of them covers. -/
theorem removeLines_eq {ranges : List LineRange} (hwf : ∀ r ∈ ranges, r.first ≤ r.last) (t : Text) :
    removeLines ranges t = unlines (keepLines (LineRange.covers ranges) (lines t)) := by
  rw [removeLines, LineRange.foldl_removeFrom
    (fun _ hq => LineRange.first_le_last_of_mem_merge hwf hq) (LineRange.pairwise_merge ranges)]
  exact congrArg unlines (keepLines_congr fun k _ => LineRange.covers_merge hwf k)

/-- The line starts of a text are those of its front and those of what follows. -/
theorem startsFrom_append (offset : Nat) (t u : Text) :
    startsFrom offset (t ++ u) = startsFrom offset t ++ startsFrom (offset + byteLength t) u := by
  induction t generalizing offset with
  | nil => rfl
  | cons c t ih =>
    rw [List.cons_append, startsFrom, startsFrom, ih, byteLength_cons, Nat.add_assoc]
    split <;> rfl

/-- A line starts behind the start of the text and no later than its end. -/
theorem bounds_of_mem_startsFrom {offset start : Nat} {t : Text} (h : start ∈ startsFrom offset t) :
    offset < start ∧ start ≤ offset + byteLength t := by
  induction t generalizing offset with
  | nil => cases h
  | cons c t ih =>
    have hc : 0 < c.utf8Size := c.utf8Size_pos
    rw [startsFrom] at h
    rw [byteLength_cons]
    split at h
    · rcases List.mem_cons.mp h with rfl | h
      · omega
      · have := ih h
        omega
    · have := ih h
      omega

/-- A line starts behind each line feed. -/
theorem length_startsFrom (offset : Nat) (t : Text) :
    (startsFrom offset t).length = t.count '\n' := by
  induction t generalizing offset with
  | nil => rfl
  | cons c t ih =>
    rw [startsFrom]
    by_cases hc : c = '\n'
    · rw [if_pos hc, hc, List.length_cons, ih, List.count_cons_self]
    · rw [if_neg hc, ih, List.count_cons_of_ne hc]

/-- The line of an offset is the number of line feeds before it. -/
theorem lineOf_byteLength (t u : Text) :
    lineOf (lineStarts (t ++ u)) (byteLength t) = t.count '\n' := by
  have hfront : ∀ start ∈ 0 :: startsFrom 0 t, decide (start ≤ byteLength t) = true := by
    intro start hstart
    rcases List.mem_cons.mp hstart with rfl | hstart
    · simp
    · simpa using (bounds_of_mem_startsFrom hstart).2
  have hbehind : (startsFrom (0 + byteLength t) u).takeWhile (· ≤ byteLength t) = [] := by
    rw [List.takeWhile_eq_nil_iff]
    intro hlt hle
    have := bounds_of_mem_startsFrom (List.getElem_mem hlt)
    simp only [List.get_eq_getElem, decide_eq_true_eq] at hle
    omega
  rw [lineOf, lineStarts, startsFrom_append, ← List.cons_append,
    List.takeWhile_append_of_pos hfront, hbehind, List.append_nil, List.length_cons,
    length_startsFrom, Nat.add_sub_cancel]

end Marginalia.Template
