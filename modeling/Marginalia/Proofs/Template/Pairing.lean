import Marginalia.Proofs.Template.Removal

/-!
# Guards and the nearest end marks

Which marks belong together can be said without a stack: from the last guard to the first, each
takes the nearest end mark behind it that is not taken yet. Matching the marks like brackets, from
the first to the last, gives the same sections in another order. So the conditional pass is a filter
of lines: a line is lost to the marks that start on it and to the false guards around it, and the
pass fails as the failing section does whose end mark is the last in the template.
-/

namespace Marginalia.Template

open Text

variable {d : Document} {t u : Text} {pending gs : List (Call × Nat)} {ps : List Placed}

/-- The guard that an expression opens a section with, and where. -/
def Placed.opening? (p : Placed) : Option (Call × Nat) :=
  match p.expression with
  | .sectionStart guard => some (guard, p.start)
  | _ => none

/-- Where an expression closes a section. -/
def Placed.ending? (p : Placed) : Option Nat :=
  match p.expression with
  | .sectionEnd => some p.start
  | _ => none

/-- Marks paired one guard after another, given the end marks that are free: each guard takes the
first of these that stands behind it. What is not paired is loose. -/
def takeNearest : List (Call × Nat) → List Nat → Marks
  | [], free => ⟨[], free⟩
  | (guard, start) :: before, free =>
    match free.find? (start < ·) with
    | some stop =>
      let rest := takeNearest before (free.erase stop)
      { rest with sections := ⟨guard, start, stop⟩ :: rest.sections }
    | none =>
      let rest := takeNearest before free
      { rest with loose := start :: rest.loose }

/-- Marks paired from the last guard to the first, each with the nearest free end mark behind it. -/
def pairMarks (ps : List Placed) : Marks :=
  takeNearest (ps.filterMap Placed.opening?).reverse (ps.filterMap Placed.ending?)

/-- The same sections and the same loose marks, in any order. -/
structure Marks.Reorders (m m' : Marks) : Prop where
  sections : m.sections.Perm m'.sections
  loose : m.loose.Perm m'.loose

/-- The sections and the loose marks of two parts of a template. -/
def Marks.append (m m' : Marks) : Marks :=
  ⟨m.sections ++ m'.sections, m.loose ++ m'.loose⟩

/-- A guard that an end mark stands behind takes it. -/
theorem takeNearest_cons_of_find? {guard : Call} {start stop : Nat} {free : List Nat}
    (h : free.find? (start < ·) = some stop) :
    takeNearest ((guard, start) :: gs) free =
      { takeNearest gs (free.erase stop) with
        sections := ⟨guard, start, stop⟩ :: (takeNearest gs (free.erase stop)).sections } := by
  rw [takeNearest, h]

/-- A guard that no end mark stands behind is loose. -/
theorem takeNearest_cons_of_find?_eq_none {guard : Call} {start : Nat} {free : List Nat}
    (h : free.find? (start < ·) = none) :
    takeNearest ((guard, start) :: gs) free =
      { takeNearest gs free with loose := start :: (takeNearest gs free).loose } := by
  rw [takeNearest, h]

/-- Without end marks all guards are loose. -/
theorem takeNearest_nil (gs : List (Call × Nat)) : takeNearest gs [] = ⟨[], gs.map Prod.snd⟩ := by
  induction gs with
  | nil => rfl
  | cons g gs ih => rw [takeNearest_cons_of_find?_eq_none List.find?_nil, ih, List.map_cons]

/-- A guard behind an end mark looks for another one. -/
theorem find?_cons_of_lt {start stop : Nat} (h : stop < start) (free : List Nat) :
    (stop :: free).find? (start < ·) = free.find? (start < ·) :=
  List.find?_cons_of_neg (by simpa using Nat.le_of_lt h)

/-- An end mark is left when one behind a later guard is taken. -/
theorem erase_cons_of_find? {start stop other : Nat} {free : List Nat} (h : stop < start)
    (hfind : free.find? (start < ·) = some other) :
    (stop :: free).erase other = stop :: free.erase other := by
  have hother : start < other := by simpa using List.find?_some hfind
  exact List.erase_cons_tail (by simp; omega)

/-- Guards behind an end mark leave it to the guards before them and pair as if it were not
there. -/
theorem takeNearest_append_reorders {stop : Nat} {made : Marks} {hs hs' : List (Call × Nat)}
    (hgs : ∀ g ∈ gs, stop < g.2)
    (hmade : ∀ free, (takeNearest hs (stop :: free)).Reorders (made.append (takeNearest hs' free)))
    (free : List Nat) :
    (takeNearest (gs ++ hs) (stop :: free)).Reorders
      (made.append (takeNearest (gs ++ hs') free)) := by
  induction gs generalizing free with
  | nil => exact hmade free
  | cons g gs ih =>
    obtain ⟨guard, start⟩ := g
    obtain ⟨hg, hrest⟩ := List.forall_mem_cons.mp hgs
    rw [List.cons_append, List.cons_append]
    cases hfind : free.find? (start < ·) with
    | none =>
      have hleft := ih hrest free
      rw [takeNearest_cons_of_find?_eq_none ((find?_cons_of_lt hg free).trans hfind),
        takeNearest_cons_of_find?_eq_none hfind]
      exact ⟨hleft.sections, (hleft.loose.cons start).trans List.perm_middle.symm⟩
    | some other =>
      have hleft := ih hrest (free.erase other)
      rw [takeNearest_cons_of_find? ((find?_cons_of_lt hg free).trans hfind),
        takeNearest_cons_of_find? hfind, erase_cons_of_find? hg hfind]
      exact ⟨(hleft.sections.cons _).trans List.perm_middle.symm, hleft.loose⟩

/-- An end mark before all guards is loose. -/
theorem takeNearest_reorders_of_forall_lt {stop : Nat} (hgs : ∀ g ∈ gs, stop < g.2)
    (free : List Nat) :
    (takeNearest gs (stop :: free)).Reorders (Marks.append ⟨[], [stop]⟩ (takeNearest gs free)) := by
  have hmade : ∀ free, (takeNearest [] (stop :: free)).Reorders
      (Marks.append ⟨[], [stop]⟩ (takeNearest [] free)) := fun _ => ⟨.refl _, .refl _⟩
  have hleft := takeNearest_append_reorders hgs hmade free
  rw [List.append_nil] at hleft
  exact hleft

/-- An end mark is taken by the last guard before it, whatever the guards behind it take. -/
theorem takeNearest_cons_reorders {start stop : Nat} (hgs : ∀ g ∈ gs, stop < g.2)
    (hstart : start < stop) (guard : Call) (outer : List (Call × Nat)) (free : List Nat) :
    (takeNearest (gs ++ (guard, start) :: outer) (stop :: free)).Reorders
      (Marks.append ⟨[⟨guard, start, stop⟩], []⟩ (takeNearest (gs ++ outer) free)) := by
  refine takeNearest_append_reorders hgs (fun free => ?_) free
  have hfind : (stop :: free).find? (start < ·) = some stop :=
    List.find?_cons_of_pos (by simpa using hstart)
  rw [takeNearest_cons_of_find? hfind, List.erase_cons_head]
  exact ⟨.refl _, .refl _⟩

/-- Guards open sections where their expressions start. -/
theorem exists_mem_of_mem_openings {g : Call × Nat} (h : g ∈ ps.filterMap Placed.opening?) :
    ∃ p ∈ ps, p.start = g.2 := by
  obtain ⟨⟨e, start, stop⟩, hp, hopening⟩ := List.mem_filterMap.mp h
  refine ⟨_, hp, ?_⟩
  cases e with
  | value call => cases hopening
  | sectionStart guard =>
    cases hopening
    rfl
  | sectionEnd => cases hopening

/-- Matching marks like brackets pairs each guard, the open ones included, with the nearest end mark
behind it that no later guard takes. -/
theorem matchMarks_reorders_takeNearest (hpending : ∀ g ∈ pending, ∀ p ∈ ps, g.2 < p.start)
    (hsorted : ps.Pairwise fun p q => p.start < q.start) :
    (takeNearest ((ps.filterMap Placed.opening?).reverse ++ pending)
      (ps.filterMap Placed.ending?)).Reorders (matchMarks pending ps) := by
  induction ps generalizing pending with
  | nil =>
    have hnil := takeNearest_nil pending
    exact ⟨.of_eq (congrArg Marks.sections hnil), .of_eq (congrArg Marks.loose hnil)⟩
  | cons p ps ih =>
    obtain ⟨hp, hrest⟩ := List.pairwise_cons.mp hsorted
    have hlater : ∀ g ∈ pending, ∀ q ∈ ps, g.2 < q.start := fun g hg q hq =>
      hpending g hg q (List.mem_cons_of_mem p hq)
    have hbehind : ∀ g ∈ (ps.filterMap Placed.opening?).reverse, p.start < g.2 := by
      intro g hg
      obtain ⟨q, hq, hstart⟩ := exists_mem_of_mem_openings (List.mem_reverse.mp hg)
      rw [← hstart]
      exact hp q hq
    obtain ⟨e, start, stop⟩ := p
    cases e with
    | value call => exact ih hlater hrest
    | sectionStart guard =>
      have hopen : ∀ g ∈ (guard, start) :: pending, ∀ q ∈ ps, g.2 < q.start :=
        List.forall_mem_cons.mpr ⟨hp, hlater⟩
      have hmatch := ih hopen hrest
      rw [List.filterMap_cons_some (f := Placed.opening?) (b := (guard, start)) rfl,
        List.filterMap_cons_none (f := Placed.ending?) rfl, List.reverse_cons, List.append_assoc,
        matchMarks_sectionStart]
      exact hmatch
    | sectionEnd =>
      rw [List.filterMap_cons_none (f := Placed.opening?) rfl,
        List.filterMap_cons_some (f := Placed.ending?) (b := start) rfl]
      cases pending with
      | nil =>
        have hmatch := ih hlater hrest
        have hloose := takeNearest_reorders_of_forall_lt hbehind (ps.filterMap Placed.ending?)
        rw [List.append_nil] at hmatch ⊢
        rw [matchMarks_nil_sectionEnd]
        exact ⟨hloose.sections.trans hmatch.sections,
          hloose.loose.trans (hmatch.loose.cons start)⟩
      | cons g outer =>
        obtain ⟨guard, first⟩ := g
        have hfirst : first < start := hpending _ List.mem_cons_self _ List.mem_cons_self
        have hmatch := ih (fun g hg => hlater g (List.mem_cons_of_mem _ hg)) hrest
        have htaken := takeNearest_cons_reorders hbehind hfirst guard outer
          (ps.filterMap Placed.ending?)
        rw [matchMarks_sectionEnd]
        exact ⟨htaken.sections.trans (hmatch.sections.cons _), htaken.loose.trans hmatch.loose⟩

/-- No two expressions of a template start at one place. -/
theorem pairwise_start_lt_expressions (t : Text) :
    (expressions t).Pairwise fun p q => p.start < q.start :=
  (pairwise_placedFrom 0 (pieces t)).imp_of_mem fun hp _ hpq =>
    Nat.lt_of_lt_of_le (start_lt_stop_of_mem_expressions hp) hpq

/-- The marks of a template are paired with the nearest. -/
theorem pairMarks_reorders_marks (t : Text) : (pairMarks (expressions t)).Reorders (marks t) := by
  have hmatch := matchMarks_reorders_takeNearest (fun g hg => absurd hg List.not_mem_nil)
    (pairwise_start_lt_expressions t)
  rw [List.append_nil] at hmatch
  exact hmatch

/-- The line that holds the byte at an offset: the number of line feeds before it. -/
def lineAt (t : Text) (offset : Nat) : Nat :=
  (takeBytes offset t).count '\n'

/-- Whether a section loses a line: any between its marks if its guard is false, and those on which
its marks start if not. -/
def Conditional.losesLine (d : Document) (t : Text) (s : Conditional) (k : Nat) : Bool :=
  if isFalse d s.guard then lineAt t s.start ≤ k && k ≤ lineAt t s.stop
  else lineAt t s.start == k || lineAt t s.stop == k

/-- Whether a line is lost: to a loose mark that starts on it or to a section. -/
def Marks.losesLine (d : Document) (t : Text) (m : Marks) (k : Nat) : Bool :=
  m.loose.any (fun place => lineAt t place == k) || m.sections.any fun s => s.losesLine d t k

/-- The table of line starts gives the line of an expression. -/
theorem lineOf_start_eq_lineAt {p : Placed} (hp : p ∈ expressions t) :
    lineOf (lineStarts t) p.start = lineAt t p.start := by
  obtain ⟨front, source, rest, rfl, -, hstart, -⟩ := exists_append_of_mem_expressions hp
  rw [hstart, lineOf_byteLength, lineAt, takeBytes_append]

/-- The table of line starts gives the line of a mark. -/
theorem lineOf_eq_lineAt_of_mem_places {place : Nat} (h : place ∈ (marks t).places) :
    lineOf (lineStarts t) place = lineAt t place := by
  rw [marks, mem_places_matchMarks] at h
  rcases h with h | ⟨p, hp, -, rfl⟩
  · cases h
  · exact lineOf_start_eq_lineAt hp

/-- The ranges of a section cover the lines that it loses. -/
theorem covers_lostRanges_eq_losesLine {s : Conditional} (hs : s ∈ (marks t).sections) (k : Nat) :
    LineRange.covers (lostRanges d (lineStarts t) s) k = s.losesLine d t k := by
  have hplaces : ∀ place ∈ [s.start, s.stop], place ∈ (marks t).places := fun place hplace =>
    List.mem_append_right _ (List.mem_flatMap.mpr ⟨s, hs, hplace⟩)
  rw [lostRanges, Conditional.losesLine, lineOf_eq_lineAt_of_mem_places (hplaces _ (by simp)),
    lineOf_eq_lineAt_of_mem_places (hplaces _ (by simp))]
  split
  · rw [LineRange.covers_cons, LineRange.covers_nil, Bool.or_false]
  · rw [Bool.eq_iff_iff]
    simp only [LineRange.covers_cons, LineRange.covers_nil, LineRange.single, Bool.or_false,
      Bool.or_eq_true, Bool.and_eq_true, decide_eq_true_eq, beq_iff_eq]
    omega

/-- The lines that the conditional pass takes out are those lost to the marks. -/
theorem losesLine_marks (d : Document) (t : Text) (k : Nat) :
    (marks t).losesLine d t k = isRemoved d t k := by
  rw [← covers_lostOf, lostOf, LineRange.covers_append, Bool.eq_iff_iff, Bool.or_eq_true,
    covers_map_single, LineRange.covers_flatMap, Marks.losesLine, Bool.or_eq_true, List.any_eq_true,
    List.any_eq_true]
  refine or_congr (exists_congr fun place => and_congr_right fun hplace => ?_)
    (exists_congr fun s => and_congr_right fun hs => ?_)
  · rw [beq_iff_eq, lineOf_eq_lineAt_of_mem_places (List.mem_append_left _ hplace)]
  · rw [covers_lostRanges_eq_losesLine hs]

/-- Which lines are lost does not depend on the order of the marks. -/
theorem Marks.Reorders.losesLine_eq {m m' : Marks} (h : m.Reorders m') :
    m.losesLine d t = m'.losesLine d t := by
  funext k
  rw [losesLine, losesLine, h.loose.any_eq, h.sections.any_eq]

/-- Sections end where marks end them, in the order of these. -/
theorem map_stop_sections_sublist (pending : List (Call × Nat)) (ps : List Placed) :
    ((matchMarks pending ps).sections.map Conditional.stop).Sublist
      (ps.filterMap Placed.ending?) := by
  induction ps generalizing pending with
  | nil => exact List.nil_sublist _
  | cons p ps ih =>
    obtain ⟨e, start, stop⟩ := p
    cases e with
    | value call => exact ih pending
    | sectionStart guard => exact ih ((guard, start) :: pending)
    | sectionEnd =>
      rw [List.filterMap_cons_some (f := Placed.ending?) (b := start) rfl]
      cases pending with
      | nil => exact (ih []).cons start
      | cons g outer => exact (ih outer).cons_cons start

/-- The sections of a template stand in the order of their ends, and no two end at one place. -/
theorem pairwise_stop_sections (t : Text) :
    (marks t).sections.Pairwise fun s s' => s.stop < s'.stop := by
  have hendings : ((expressions t).filterMap Placed.ending?).Pairwise (· < ·) := by
    refine (pairwise_start_lt_expressions t).filterMap _ fun p q hpq a ha b hb => ?_
    have hplace {p : Placed} {place : Nat} (h : p.ending? = some place) : p.start = place := by
      obtain ⟨e, start, stop⟩ := p
      cases e with
      | value call => cases h
      | sectionStart guard => cases h
      | sectionEnd => exact Option.some.inj h
    rw [← hplace ha, ← hplace hb]
    exact hpq
  exact List.pairwise_map.mp (hendings.sublist (map_stop_sections_sublist [] (expressions t)))

/-- A section that is behind another in the order of ends is one that ends later. -/
theorem mem_behind_iff {before behind : List Conditional} {s s' : Conditional}
    (h : (before ++ s :: behind).Pairwise fun s s' => s.stop < s'.stop) :
    s' ∈ behind ↔ s' ∈ before ++ s :: behind ∧ s.stop < s'.stop := by
  obtain ⟨-, hself, hcross⟩ := List.pairwise_append.mp h
  have hbehind := (List.pairwise_cons.mp hself).1
  constructor
  · intro hs'
    exact ⟨List.mem_append_right _ (List.mem_cons_of_mem _ hs'), hbehind s' hs'⟩
  · intro h
    obtain ⟨hs', hlt⟩ := h
    rcases List.mem_append.mp hs' with hs' | hs'
    · have := hcross s' hs' s List.mem_cons_self
      omega
    · rcases List.mem_cons.mp hs' with rfl | hs'
      · omega
      · exact hs'

/-- The conditional pass fails as the guard of a section does behind which no other fails. -/
theorem resolveSections_eq_error_iff {e : Failure} :
    resolveSections d t = .error e ↔
      ∃ s ∈ (marks t).sections, holds d s.guard = .error e ∧
        ∀ s' ∈ (marks t).sections, s.stop < s'.stop → IsSettled d s'.guard := by
  have hranges : resolveSections d t = .error e ↔
      sectionRanges d (lineStarts t) (marks t).sections = .error e := by
    rw [resolveSections, bind_eq_error_iff]
    constructor
    · intro h
      rcases h with h | ⟨ranges, -, hpure⟩
      · exact h
      · cases hpure
    · exact .inl
  rw [hranges, sectionRanges_eq_map, map_eq_error_iff, mapBackward_eq_error_iff]
  have hsorted := pairwise_stop_sections t
  constructor
  · intro h
    obtain ⟨before, s, behind, hsections, hs, hbehind⟩ := h
    rw [hsections] at hsorted ⊢
    exact ⟨s, by simp, hs, fun s' hs' hlt => hbehind s' ((mem_behind_iff hsorted).mpr ⟨hs', hlt⟩)⟩
  · intro h
    obtain ⟨s, hmem, hs, hbehind⟩ := h
    obtain ⟨before, behind, hsections⟩ := List.append_of_mem hmem
    rw [hsections] at hsorted hbehind
    refine ⟨before, s, behind, hsections, hs, fun s' hs' => ?_⟩
    obtain ⟨hs', hlt⟩ := (mem_behind_iff hsorted).mp hs'
    exact hbehind s' hs' hlt

/-- The conditional pass is a filter of lines by the marks as they are paired from the last guard to
the first, each with the nearest free end mark behind it. It succeeds when every guard has a truth
value and leaves the lines that are not lost; otherwise it fails as the failing section does whose
end mark is the last. -/
theorem resolveSections_filters_lines (d : Document) (t : Text) :
    (∀ u, resolveSections d t = .ok u ↔
      (∀ s ∈ (pairMarks (expressions t)).sections, ∃ b, holds d s.guard = .ok b) ∧
        u = unlines (keepLines ((pairMarks (expressions t)).losesLine d t) (lines t))) ∧
      ∀ e, resolveSections d t = .error e ↔
        ∃ s ∈ (pairMarks (expressions t)).sections, holds d s.guard = .error e ∧
          ∀ s' ∈ (pairMarks (expressions t)).sections, s.stop < s'.stop →
            ∃ b, holds d s'.guard = .ok b := by
  have hmarks := pairMarks_reorders_marks t
  have hlost : (pairMarks (expressions t)).losesLine d t = isRemoved d t :=
    hmarks.losesLine_eq.trans (funext (losesLine_marks d t))
  simp only [hmarks.sections.mem_iff, hlost]
  exact ⟨fun u => resolveSections_eq_ok_iff, fun e => resolveSections_eq_error_iff⟩

end Marginalia.Template
