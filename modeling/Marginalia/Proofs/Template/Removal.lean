import Marginalia.Proofs.Outcome
import Marginalia.Proofs.Template.Marks

/-!
# What the conditional pass takes out

A line is taken out when a mark starts on it or when it lies between the marks of a section whose
guard is false. The pass succeeds exactly when every guard has a truth value, and then leaves all
other lines. A mark that is written over several lines is therefore taken out as a whole only when
its later lines go for a reason of their own.
-/

namespace Marginalia.Template

open Text

variable {d : Document} {t u : Text}

/-- Whether a guard has a truth value. -/
def IsSettled (d : Document) (guard : Call) : Prop :=
  ∃ b, holds d guard = .ok b

/-- Whether a guard is false. -/
def isFalse (d : Document) (guard : Call) : Bool :=
  match holds d guard with
  | .ok b => !b
  | .error _ => false

/-- A guard is false when that is its truth value. -/
theorem isFalse_of_holds {guard : Call} {b : Bool} (h : holds d guard = .ok b) :
    isFalse d guard = !b := by
  rw [isFalse, h]

/-- The lines that a section loses: all of them if the guard is false, or those of its marks. -/
def lostRanges (d : Document) (starts : List Nat) (s : Conditional) : List LineRange :=
  if isFalse d s.guard then [⟨lineOf starts s.start, lineOf starts s.stop⟩]
  else [.single (lineOf starts s.start), .single (lineOf starts s.stop)]

/-- The lines that sections lose are put together once the guards have been worked out, from the
last section to the first. -/
theorem sectionRanges_eq_map (starts : List Nat) (ss : List Conditional) :
    sectionRanges d starts ss = (mapBackward (fun s => holds d s.guard) ss).map fun _ =>
      ss.flatMap (lostRanges d starts) := by
  induction ss with
  | nil => rfl
  | cons s ss ih =>
    rw [sectionRanges, ih, mapBackward, List.flatMap_cons]
    cases mapBackward (fun s => holds d s.guard) ss with
    | error e => rfl
    | ok later =>
      cases hs : holds d s.guard with
      | error e => rfl
      | ok b =>
        rw [lostRanges, isFalse_of_holds hs]
        cases b <;> rfl

/-- The lines that sections lose are determined when all guards have truth values. -/
theorem sectionRanges_eq_ok_iff {starts : List Nat} {ss : List Conditional}
    {ranges : List LineRange} :
    sectionRanges d starts ss = .ok ranges ↔
      (∀ s ∈ ss, IsSettled d s.guard) ∧ ranges = ss.flatMap (lostRanges d starts) := by
  rw [sectionRanges_eq_map, map_eq_ok_iff, exists_and_right, exists_mapBackward_eq_ok_iff]
  exact and_congr_right fun _ => eq_comm

/-- Whether a mark starts on a line. -/
def startsMark (t : Text) (k : Nat) : Bool :=
  (expressions t).any fun p => p.expression.isMark && lineOf (lineStarts t) p.start == k

/-- Whether a line lies between the marks of a section whose guard is false, or on the lines on
which they start. -/
def inDroppedSection (d : Document) (t : Text) (k : Nat) : Bool :=
  (marks t).sections.any fun s => isFalse d s.guard &&
    (lineOf (lineStarts t) s.start ≤ k && k ≤ lineOf (lineStarts t) s.stop)

/-- Whether the conditional pass takes a line out. -/
def isRemoved (d : Document) (t : Text) (k : Nat) : Bool :=
  startsMark t k || inDroppedSection d t k

/-- A mark starts on a line exactly when one of the places of all marks stands on it. -/
theorem startsMark_eq_true_iff {k : Nat} :
    startsMark t k = true ↔ ∃ place ∈ (marks t).places, lineOf (lineStarts t) place = k := by
  simp only [startsMark, List.any_eq_true, Bool.and_eq_true, beq_iff_eq, marks,
    mem_places_matchMarks, List.map_nil, List.not_mem_nil, false_or]
  constructor
  · intro h
    obtain ⟨p, hp, hmark, hline⟩ := h
    exact ⟨p.start, ⟨p, hp, hmark, rfl⟩, hline⟩
  · intro h
    obtain ⟨place, ⟨p, hp, hmark, rfl⟩, hline⟩ := h
    exact ⟨p, hp, hmark, hline⟩

/-- The lines that a section loses: those on which its marks start, and all between if its guard is
false. -/
theorem covers_lostRanges {starts : List Nat} {s : Conditional}
    (hs : lineOf starts s.start ≤ lineOf starts s.stop) {k : Nat} :
    LineRange.covers (lostRanges d starts s) k = true ↔
      (lineOf starts s.start = k ∨ lineOf starts s.stop = k) ∨
        isFalse d s.guard = true ∧ lineOf starts s.start ≤ k ∧ k ≤ lineOf starts s.stop := by
  rw [lostRanges]
  cases isFalse d s.guard with
  | false =>
    simp only [Bool.false_eq_true, if_false, LineRange.covers_eq_true_iff, List.mem_cons,
      List.not_mem_nil, or_false, exists_eq_or_imp, exists_eq_left, LineRange.single, false_and]
    omega
  | true =>
    simp only [if_true, LineRange.covers_eq_true_iff, List.mem_cons, List.not_mem_nil, or_false,
      exists_eq_left, true_and]
    omega

/-- The ranges of the loose marks cover the lines on which these start. -/
theorem covers_map_single {starts places : List Nat} {k : Nat} :
    LineRange.covers (places.map fun place => .single (lineOf starts place)) k = true ↔
      ∃ place ∈ places, lineOf starts place = k := by
  rw [LineRange.covers_eq_true_iff]
  constructor
  · intro h
    obtain ⟨r, hr, hfirst, hlast⟩ := h
    obtain ⟨place, hplace, rfl⟩ := List.mem_map.mp hr
    exact ⟨place, hplace, Nat.le_antisymm hfirst hlast⟩
  · intro h
    obtain ⟨place, hplace, rfl⟩ := h
    exact ⟨_, List.mem_map_of_mem hplace, Nat.le_refl _, Nat.le_refl _⟩

/-- The ranges of the loose marks and of the sections. -/
def lostOf (d : Document) (t : Text) : List LineRange :=
  (marks t).loose.map (fun start => .single (lineOf (lineStarts t) start)) ++
    (marks t).sections.flatMap (lostRanges d (lineStarts t))

/-- No range ends before it starts. -/
theorem first_le_last_of_mem_lostOf {r : LineRange} (hr : r ∈ lostOf d t) : r.first ≤ r.last := by
  rcases List.mem_append.mp hr with hr | hr
  · obtain ⟨place, -, rfl⟩ := List.mem_map.mp hr
    exact Nat.le_refl _
  · obtain ⟨s, hs, hr⟩ := List.mem_flatMap.mp hr
    rw [lostRanges] at hr
    split at hr
    · rw [List.mem_singleton.mp hr]
      exact lineOf_start_le_lineOf_stop hs
    · simp only [List.mem_cons, List.not_mem_nil, or_false] at hr
      rcases hr with rfl | rfl <;> exact Nat.le_refl _

/-- The ranges cover the lines that are taken out. -/
theorem covers_lostOf (d : Document) (t : Text) (k : Nat) :
    LineRange.covers (lostOf d t) k = isRemoved d t k := by
  rw [Bool.eq_iff_iff, isRemoved, Bool.or_eq_true, startsMark_eq_true_iff, lostOf,
    LineRange.covers_append, Bool.or_eq_true, covers_map_single, LineRange.covers_flatMap,
    inDroppedSection, Marks.places]
  simp only [List.mem_append, List.mem_flatMap, List.any_eq_true, Bool.and_eq_true,
    decide_eq_true_eq, List.mem_cons, List.not_mem_nil, or_false]
  constructor
  · intro h
    rcases h with ⟨place, hplace, hline⟩ | ⟨s, hs, hlost⟩
    · exact .inl ⟨place, .inl hplace, hline⟩
    · rcases (covers_lostRanges (lineOf_start_le_lineOf_stop hs)).mp hlost with
        (hline | hline) | hfalse
      · exact .inl ⟨s.start, .inr ⟨s, hs, .inl rfl⟩, hline⟩
      · exact .inl ⟨s.stop, .inr ⟨s, hs, .inr rfl⟩, hline⟩
      · exact .inr ⟨s, hs, hfalse⟩
  · intro h
    rcases h with ⟨place, hplace | ⟨s, hs, hplace⟩, hline⟩ | ⟨s, hs, hfalse⟩
    · exact .inl ⟨place, hplace, hline⟩
    · refine .inr ⟨s, hs, (covers_lostRanges (lineOf_start_le_lineOf_stop hs)).mpr (.inl ?_)⟩
      rcases hplace with rfl | rfl
      · exact .inl hline
      · exact .inr hline
    · exact .inr ⟨s, hs, (covers_lostRanges (lineOf_start_le_lineOf_stop hs)).mpr (.inr hfalse)⟩

/-- The conditional pass succeeds exactly when every guard has a truth value, and leaves the lines
that are not taken out. -/
theorem resolveSections_eq_ok_iff :
    resolveSections d t = .ok u ↔
      (∀ s ∈ (marks t).sections, IsSettled d s.guard) ∧
        u = unlines (keepLines (isRemoved d t) (lines t)) := by
  have hleft : removeLines (lostOf d t) t = unlines (keepLines (isRemoved d t) (lines t)) := by
    rw [removeLines_eq fun r hr => first_le_last_of_mem_lostOf hr]
    exact congrArg unlines (keepLines_congr fun k _ => covers_lostOf d t k)
  rw [resolveSections, bind_eq_ok_iff]
  constructor
  · intro h
    obtain ⟨ranges, hranges, hu⟩ := h
    obtain ⟨hsettled, rfl⟩ := sectionRanges_eq_ok_iff.mp hranges
    exact ⟨hsettled, by rw [← hleft]; exact (pure_eq_ok_iff.mp hu).symm⟩
  · intro h
    obtain ⟨hsettled, rfl⟩ := h
    refine ⟨_, sectionRanges_eq_ok_iff.mpr ⟨hsettled, rfl⟩, ?_⟩
    rw [← hleft]
    rfl

/-- A line is taken out when a mark starts on it or when it lies in a section whose guard is false,
with the marks placed by their lines. -/
theorem isRemoved_eq_true_iff {k : Nat} :
    isRemoved d t k = true ↔
      k ∈ (matchMarks [] (lined t)).places ∨
        ∃ s ∈ (matchMarks [] (lined t)).sections,
          isFalse d s.guard = true ∧ s.start ≤ k ∧ k ≤ s.stop := by
  have hplaces : (matchMarks [] (lined t)).places =
      (marks t).places.map (lineOf (lineStarts t)) := by
    rw [← relocate_marks, Marks.places, Marks.places, Marks.relocate, List.flatMap_map,
      List.map_append, List.map_flatMap]
    rfl
  have hsections : (matchMarks [] (lined t)).sections =
      (marks t).sections.map (Conditional.relocate (lineOf (lineStarts t))) := by
    rw [← relocate_marks]
    rfl
  rw [isRemoved, Bool.or_eq_true, startsMark_eq_true_iff, hplaces, hsections, List.mem_map,
    inDroppedSection, List.any_eq_true]
  simp only [List.mem_map, exists_exists_and_eq_and, Bool.and_eq_true, decide_eq_true_eq,
    Conditional.relocate]

end Marginalia.Template
