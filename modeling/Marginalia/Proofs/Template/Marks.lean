import Marginalia.Proofs.Template.LineRange
import Marginalia.Proofs.Template.Span
import Marginalia.Template.Render

/-!
# The lines of marks

Marks are matched by their offsets, but what is taken out of a template is decided by lines. Giving
every expression the numbers of its lines in the place of its offsets changes nothing about which
marks belong together, and the lines that are taken out are those on which a mark starts and those
of the sections whose guards are false.
-/

namespace Marginalia.Template

open Text

/-- Whether an expression opens or closes a section. -/
def Expression.isMark : Expression → Bool
  | value _ => false
  | sectionStart _ => true
  | sectionEnd => true

@[simp] theorem Expression.isMark_value (c : Call) : (value c).isMark = false := rfl

@[simp] theorem Expression.isMark_sectionStart (c : Call) : (sectionStart c).isMark = true := rfl

@[simp] theorem Expression.isMark_sectionEnd : sectionEnd.isMark = true := rfl

/-- An expression at other places. -/
def Placed.relocate (place : Nat → Nat) (p : Placed) : Placed :=
  ⟨p.expression, place p.start, place p.stop⟩

/-- A section at other places. -/
def Conditional.relocate (place : Nat → Nat) (s : Conditional) : Conditional :=
  ⟨s.guard, place s.start, place s.stop⟩

/-- Sections and loose marks at other places. -/
def Marks.relocate (place : Nat → Nat) (m : Marks) : Marks :=
  ⟨m.sections.map (Conditional.relocate place), m.loose.map place⟩

/-- The places of all marks. -/
def Marks.places (m : Marks) : List Nat :=
  m.loose ++ m.sections.flatMap fun s => [s.start, s.stop]

variable {pending outer : List (Call × Nat)} {ps : List Placed}

theorem matchMarks_value (call : Call) (start stop : Nat) :
    matchMarks pending (⟨.value call, start, stop⟩ :: ps) = matchMarks pending ps := rfl

theorem matchMarks_sectionStart (guard : Call) (start stop : Nat) :
    matchMarks pending (⟨.sectionStart guard, start, stop⟩ :: ps) =
      matchMarks ((guard, start) :: pending) ps := rfl

theorem matchMarks_sectionEnd (guard : Call) (first start stop : Nat) :
    matchMarks ((guard, first) :: outer) (⟨.sectionEnd, start, stop⟩ :: ps) =
      { matchMarks outer ps with
        sections := ⟨guard, first, start⟩ :: (matchMarks outer ps).sections } := rfl

theorem matchMarks_nil_sectionEnd (start stop : Nat) :
    matchMarks [] (⟨.sectionEnd, start, stop⟩ :: ps) =
      { matchMarks [] ps with loose := start :: (matchMarks [] ps).loose } := rfl

/-- Which marks belong together does not depend on their places. -/
theorem matchMarks_relocate (place : Nat → Nat) (pending : List (Call × Nat)) (ps : List Placed) :
    matchMarks (pending.map fun g => (g.1, place g.2)) (ps.map (Placed.relocate place)) =
      (matchMarks pending ps).relocate place := by
  induction ps generalizing pending with
  | nil => simp [matchMarks, Marks.relocate]
  | cons p ps ih =>
    obtain ⟨e, start, stop⟩ := p
    rw [List.map_cons, Placed.relocate]
    cases e with
    | value c => rw [matchMarks_value, matchMarks_value, ih]
    | sectionStart guard =>
      rw [matchMarks_sectionStart, matchMarks_sectionStart, ← ih]
      rfl
    | sectionEnd =>
      cases pending with
      | nil =>
        have hnil := ih []
        rw [List.map_nil] at hnil
        rw [List.map_nil, matchMarks_nil_sectionEnd, matchMarks_nil_sectionEnd, hnil]
        rfl
      | cons g outer =>
        rw [List.map_cons, matchMarks_sectionEnd, matchMarks_sectionEnd, ih]
        rfl

/-- Every mark belongs to a section or is loose, and no other place does. -/
theorem mem_places_matchMarks {place : Nat} :
    place ∈ (matchMarks pending ps).places ↔
      place ∈ pending.map Prod.snd ∨ ∃ p ∈ ps, p.expression.isMark = true ∧ p.start = place := by
  induction ps generalizing pending with
  | nil => simp [matchMarks, Marks.places]
  | cons p ps ih =>
    obtain ⟨e, start, stop⟩ := p
    simp only [List.mem_cons, exists_eq_or_imp]
    cases e with
    | value c =>
      rw [matchMarks_value, ih]
      simp
    | sectionStart guard =>
      rw [matchMarks_sectionStart, ih]
      simp only [List.map_cons, List.mem_cons, Expression.isMark_sectionStart, true_and,
        eq_comm (a := place)]
      rw [or_assoc, or_left_comm]
    | sectionEnd =>
      simp only [Expression.isMark_sectionEnd, true_and]
      cases pending with
      | nil =>
        have hrest := @ih []
        rw [matchMarks_nil_sectionEnd]
        simp only [Marks.places, List.map_nil, List.not_mem_nil, false_or, List.cons_append,
          List.mem_cons, eq_comm (a := place)] at hrest ⊢
        rw [hrest]
      | cons g outer =>
        have hrest := @ih outer
        rw [matchMarks_sectionEnd]
        simp only [Marks.places, List.mem_append, List.flatMap_cons, List.mem_cons, List.map_cons,
          List.not_mem_nil, or_false, eq_comm (a := place)] at hrest ⊢
        rw [or_left_comm, hrest]
        simp only [or_assoc, or_left_comm]

/-- The expressions among pieces, the first of which starts on a line, with the lines on which they
start and end. -/
def linedFrom : Nat → List Piece → List Placed
  | _, [] => []
  | line, .char c :: rest => linedFrom (line + [c].count '\n') rest
  | line, .expression source e :: rest =>
    let last := line + source.count '\n'
    ⟨e, line, last⟩ :: linedFrom last rest

/-- The lines of expressions behind other pieces are counted from behind those. -/
theorem linedFrom_append (line : Nat) (ps qs : List Piece) :
    linedFrom line (ps ++ qs) =
      linedFrom line ps ++ linedFrom (line + (ps.flatMap Piece.source).count '\n') qs := by
  induction ps generalizing line with
  | nil => simp [linedFrom]
  | cons p ps ih =>
    cases p with
    | char c =>
      rw [List.cons_append, linedFrom, linedFrom, ih, List.flatMap_cons, List.count_append,
        Nat.add_assoc, Piece.source]
    | expression source e =>
      rw [List.cons_append, linedFrom, linedFrom, ih, List.flatMap_cons, List.count_append,
        Nat.add_assoc, Piece.source, List.cons_append]

/-- Ordinary characters are no expressions. -/
theorem linedFrom_map_char (line : Nat) (t : Text) : linedFrom line (t.map .char) = [] := by
  induction t generalizing line with
  | nil => rfl
  | cons c t ih => exact ih _

/-- The expressions of a template with the lines on which they start and end. -/
def lined (t : Text) : List Placed :=
  linedFrom 0 (pieces t)

/-- The lines of the offsets of expressions are the lines on which they start and end. -/
theorem map_relocate_placedFrom (front : Text) (ps : List Piece) :
    (placedFrom (byteLength front) ps).map
        (Placed.relocate (lineOf (lineStarts (front ++ ps.flatMap Piece.source)))) =
      linedFrom (front.count '\n') ps := by
  induction ps generalizing front with
  | nil => rfl
  | cons p ps ih =>
    have hnext := ih (front ++ p.source)
    rw [byteLength_append, List.append_assoc, ← List.flatMap_cons, List.count_append] at hnext
    cases p with
    | char c => exact hnext
    | expression source e =>
      have hstart := lineOf_byteLength front ((Piece.expression source e :: ps).flatMap Piece.source)
      have hstop := lineOf_byteLength (front ++ source) (ps.flatMap Piece.source)
      rw [byteLength_append, List.append_assoc, List.count_append] at hstop
      rw [placedFrom, linedFrom, List.map_cons]
      refine congrArg₂ List.cons ?_ hnext
      rw [Placed.relocate, hstart]
      exact congrArg (Placed.mk e _) hstop

/-- The lines of the offsets of a template's expressions. -/
theorem map_relocate_expressions (t : Text) :
    (expressions t).map (Placed.relocate (lineOf (lineStarts t))) = lined t := by
  have h := map_relocate_placedFrom [] (pieces t)
  rwa [List.nil_append, flatMap_source_pieces] at h

/-- An expression ends with a brace. -/
theorem exists_source_eq_of_mem_pieces {t source : Text} {e : Expression}
    (h : Piece.expression source e ∈ pieces t) : ∃ front, source = front ++ ['\x7d'] := by
  obtain ⟨c, hsome, rfl, -⟩ := exists_candidate_of_mem_pieces h
  exact exists_source_eq_of_candidate? hsome

/-- The last byte of an expression stands on the line of the byte behind it. -/
theorem lineOf_stop_sub_one {t : Text} {p : Placed} (h : p ∈ expressions t) :
    lineOf (lineStarts t) (p.stop - 1) = lineOf (lineStarts t) p.stop := by
  obtain ⟨before, source, rest, ht, hmem, -, hstop⟩ := exists_append_of_mem_expressions h
  obtain ⟨front, rfl⟩ := exists_source_eq_of_mem_pieces hmem
  let upto := before ++ front
  have htext : t = upto ++ '\x7d' :: rest := by
    rw [ht, List.append_assoc, List.append_assoc]
    rfl
  have hsize : p.stop = byteLength (upto ++ ['\x7d']) := by
    rw [hstop, List.append_assoc]
  have hone : byteLength (upto ++ ['\x7d']) = byteLength upto + 1 := by
    rw [byteLength_append]
    rfl
  calc lineOf (lineStarts t) (p.stop - 1)
      = lineOf (lineStarts (upto ++ '\x7d' :: rest)) (byteLength upto) := by
        rw [hsize, hone, Nat.add_sub_cancel, htext]
    _ = (upto ++ ['\x7d']).count '\n' := by
        rw [lineOf_byteLength]
        simp
    _ = lineOf (lineStarts t) p.stop := by
        rw [← lineOf_byteLength (upto ++ ['\x7d']) rest, hsize, htext, List.append_assoc]
        rfl

/-- Expressions start on no earlier line than the pieces, and end on no earlier line than they
start. -/
theorem le_of_mem_linedFrom {line : Nat} {ps : List Piece} {p : Placed} (h : p ∈ linedFrom line ps) :
    line ≤ p.start ∧ p.start ≤ p.stop := by
  induction ps generalizing line with
  | nil => cases h
  | cons q ps ih =>
    cases q with
    | char c =>
      have := ih h
      omega
    | expression source e =>
      rw [linedFrom] at h
      rcases List.mem_cons.mp h with rfl | h
      · exact ⟨Nat.le_refl _, Nat.le_add_right _ _⟩
      · have := ih h
        omega

/-- An expression starts on no earlier line than those before it end. -/
theorem pairwise_linedFrom (line : Nat) (ps : List Piece) :
    (linedFrom line ps).Pairwise fun p q => p.stop ≤ q.start := by
  induction ps generalizing line with
  | nil => exact List.Pairwise.nil
  | cons p ps ih =>
    cases p with
    | char c => exact ih _
    | expression source e =>
      exact List.pairwise_cons.mpr ⟨fun q hq => (le_of_mem_linedFrom hq).1, ih _⟩

/-- Sections end on no earlier line than they start, when marks stand in order. -/
theorem start_le_stop_of_mem_matchMarks
    (hpending : ∀ g ∈ pending, ∀ p ∈ ps, g.2 ≤ p.start)
    (hsorted : ps.Pairwise fun p q => p.start ≤ q.start) {s : Conditional}
    (hs : s ∈ (matchMarks pending ps).sections) : s.start ≤ s.stop := by
  induction ps generalizing pending with
  | nil => cases hs
  | cons p ps ih =>
    obtain ⟨hp, hrest⟩ := List.pairwise_cons.mp hsorted
    have hlater : ∀ g ∈ pending, ∀ q ∈ ps, g.2 ≤ q.start := fun g hg q hq =>
      hpending g hg q (List.mem_cons_of_mem p hq)
    obtain ⟨e, start, stop⟩ := p
    cases e with
    | value c => exact ih hlater hrest hs
    | sectionStart guard =>
      have hopen : ∀ g ∈ (guard, start) :: pending, ∀ q ∈ ps, g.2 ≤ q.start :=
        List.forall_mem_cons.mpr ⟨hp, hlater⟩
      exact ih hopen hrest hs
    | sectionEnd =>
      cases pending with
      | nil => exact ih hlater hrest hs
      | cons g outer =>
        rw [matchMarks_sectionEnd] at hs
        rcases List.mem_cons.mp hs with rfl | hs
        · exact hpending g List.mem_cons_self _ List.mem_cons_self
        · exact ih (fun g' hg' => hlater g' (List.mem_cons_of_mem g hg')) hrest hs

/-- The marks of a template with the lines on which they start in the place of their offsets. -/
theorem relocate_marks (t : Text) :
    (marks t).relocate (lineOf (lineStarts t)) = matchMarks [] (lined t) := by
  rw [marks, ← matchMarks_relocate, map_relocate_expressions]
  rfl

/-- An expression with the lines on which it starts and ends. -/
theorem relocate_mem_lined {t : Text} {p : Placed} (hp : p ∈ expressions t) :
    p.relocate (lineOf (lineStarts t)) ∈ lined t := by
  rw [← map_relocate_expressions]
  exact List.mem_map_of_mem hp

/-- No expression starts between the first and the last line of another. -/
theorem lineOf_start_le_or_le {t : Text} {p q : Placed} (hp : p ∈ expressions t)
    (hq : q ∈ expressions t) :
    lineOf (lineStarts t) q.start ≤ lineOf (lineStarts t) p.start ∨
      lineOf (lineStarts t) p.stop ≤ lineOf (lineStarts t) q.start := by
  have hapart : ∀ a ∈ lined t, ∀ b ∈ lined t, b.start ≤ a.start ∨ a.stop ≤ b.start := by
    have hsorted : (lined t).Pairwise fun a b => a.stop ≤ b.start := pairwise_linedFrom 0 (pieces t)
    have hbehind : (lined t).Pairwise fun a b => b.start ≤ a.start ∨ a.stop ≤ b.start :=
      hsorted.imp Or.inr
    have hbefore : (lined t).Pairwise fun a b => a.start ≤ b.start ∨ b.stop ≤ a.start :=
      hsorted.imp_of_mem fun ha _ hab => Or.inl (Nat.le_trans (le_of_mem_linedFrom ha).2 hab)
    have hself : ∀ a ∈ lined t, a.start ≤ a.start ∨ a.stop ≤ a.start := fun _ _ =>
      Or.inl (Nat.le_refl _)
    intro a ha b hb
    exact List.Pairwise.forall_of_forall_of_flip hself hbehind hbefore ha hb
  exact hapart _ (relocate_mem_lined hp) _ (relocate_mem_lined hq)

/-- The end mark of a section starts on no earlier line than its guard. -/
theorem lineOf_start_le_lineOf_stop {t : Text} {s : Conditional} (hs : s ∈ (marks t).sections) :
    lineOf (lineStarts t) s.start ≤ lineOf (lineStarts t) s.stop := by
  have hmem : s.relocate (lineOf (lineStarts t)) ∈ (matchMarks [] (lined t)).sections := by
    rw [← relocate_marks]
    exact List.mem_map_of_mem hs
  have hsorted : (lined t).Pairwise fun p q => p.start ≤ q.start :=
    (pairwise_linedFrom 0 (pieces t)).imp_of_mem fun hp _ hpq =>
      Nat.le_trans (le_of_mem_linedFrom hp).2 hpq
  exact start_le_stop_of_mem_matchMarks (fun g hg => absurd hg List.not_mem_nil) hsorted hmem

end Marginalia.Template
