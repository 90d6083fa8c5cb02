import Marginalia.Proofs.Template.Removal
import Marginalia.Proofs.Template.WrittenLine

/-!
# Templates as trees

A template is meant as a tree of lines and sections, where a section has a guard and a tree of its
own. It is written with each section between two marks on lines of their own. Whatever the depth,
such a template renders to the lines of the tree without the sections whose guards are false, each
line with its calls replaced by their values.
-/

namespace Marginalia.Template

open Text

variable {d : Document} {pending : List (Call × Nat)} {ps : List Placed}

/-- A tree of lines and sections: the first item, with its own tree if it is a section, and the
items behind it. -/
inductive Tree
  | nil
  | line (l : Line) (rest : Tree)
  | guarded (guard : LineCall) (body rest : Tree)

namespace Tree

/-- The rows that a tree is written in. -/
def rows : Tree → List Row
  | nil => []
  | line l rest => .line l :: rest.rows
  | guarded guard body rest => .opening guard :: (body.rows ++ .closing :: rest.rows)

/-- The text of a tree as it is written. -/
def text (b : Tree) : Text :=
  unlines (b.rows.map Row.text)

/-- The guards of all sections, those in other sections included. -/
def guards : Tree → List LineCall
  | nil => []
  | line _ rest => rest.guards
  | guarded guard body rest => body.guards ++ guard :: rest.guards

/-- The lines that stay: those in no section whose guard is false. -/
def kept (d : Document) : Tree → List Line
  | nil => []
  | line l rest => l :: rest.kept d
  | guarded guard body rest =>
    match guard.truth d with
    | .ok false => rest.kept d
    | _ => body.kept d ++ rest.kept d

/-- The sections of a tree whose first row has a number, with the numbers of the rows of their
marks, in the order of their ends. -/
def sections : Nat → Tree → List Conditional
  | _, nil => []
  | n, line _ rest => sections (n + 1) rest
  | n, guarded guard body rest =>
    sections (n + 1) body ++
      ⟨guard.call, n, n + 1 + body.rows.length⟩ :: sections (n + body.rows.length + 2) rest

end Tree

/-- The expressions of a row with its number as their place. -/
def Row.placed (n : Nat) : Row → List Placed
  | line l => l.tail.map fun s => ⟨s.1.written.expression, n, n⟩
  | opening guard => [⟨.sectionStart guard.call, n, n⟩]
  | closing => [⟨.sectionEnd, n, n⟩]

/-- The expressions of rows, the first of which has a number, with the numbers of their rows. -/
def placedRows : Nat → List Row → List Placed
  | _, [] => []
  | n, r :: rest => r.placed n ++ placedRows (n + 1) rest

/-- The expressions of rows behind others are numbered from the number of those. -/
theorem placedRows_append (n : Nat) (rows later : List Row) :
    placedRows n (rows ++ later) = placedRows n rows ++ placedRows (n + rows.length) later := by
  induction rows generalizing n with
  | nil => rfl
  | cons r rows ih =>
    rw [List.cons_append, placedRows, placedRows, ih, List.append_assoc, List.length_cons,
      Nat.add_assoc, Nat.add_comm 1]

/-- Calls on one line start and end there. -/
theorem linedFrom_tailPieces (n : Nat) (tail : List (LineCall × Literal)) :
    linedFrom n (tailPieces tail) = tail.map fun s => ⟨s.1.written.expression, n, n⟩ := by
  induction tail with
  | nil => rfl
  | cons s tail ih =>
    have hcall : s.1.written.source.count '\n' = 0 := List.count_eq_zero.mpr
      (WrittenExpression.newline_notMem_source s.1.newline_notMem_text)
    rw [tailPieces, linedFrom, hcall, linedFrom_append, linedFrom_map_char, flatMap_source_map_char,
      List.count_eq_zero.mpr s.2.newline_notMem, List.nil_append, List.map_cons]
    exact congrArg _ ih

/-- The expressions of a row start and end on its line. -/
theorem linedFrom_pieces_row (n : Nat) (r : Row) : linedFrom n r.pieces = r.placed n := by
  have hrow := List.count_eq_zero.mpr r.newline_notMem_text
  cases r with
  | line l =>
    rw [Row.pieces, Line.pieces, linedFrom_append, linedFrom_map_char, flatMap_source_map_char,
      List.count_eq_zero.mpr l.head.newline_notMem]
    exact linedFrom_tailPieces n l.tail
  | opening guard =>
    rw [Row.pieces, linedFrom]
    rw [Row.text] at hrow
    rw [hrow]
    rfl
  | closing =>
    rw [Row.pieces, linedFrom]
    rw [Row.text] at hrow
    rw [hrow]
    rfl

/-- The expressions of rows one below the other stand on the lines of their rows. -/
theorem linedFrom_intercalate (n : Nat) (rows : List Row) :
    linedFrom n (List.intercalate [.char '\n'] (rows.map Row.pieces)) = placedRows n rows := by
  induction rows generalizing n with
  | nil => rfl
  | cons r rows ih =>
    by_cases hrows : rows = []
    · rw [hrows]
      simp [placedRows, linedFrom_pieces_row]
    · have hsource : r.pieces.flatMap Piece.source = r.text := by
        rw [← pieces_row, flatMap_source_pieces]
      rw [List.map_cons, List.intercalate_cons_of_ne_nil (by simpa using hrows), List.append_assoc,
        linedFrom_append, linedFrom_pieces_row, hsource,
        List.count_eq_zero.mpr r.newline_notMem_text, List.singleton_append, linedFrom, Nat.add_zero,
        List.count_singleton_self, ih, placedRows]

/-- Calls leave the matching of marks as it is. -/
theorem matchMarks_placed_line (n : Nat) (l : Line) :
    matchMarks pending ((Row.line l).placed n ++ ps) = matchMarks pending ps := by
  rw [Row.placed]
  induction l.tail with
  | nil => rfl
  | cons s tail ih => exact ih

/-- The marks of a tree are matched with each other, whatever guards are open and whatever follows.
-/
theorem matchMarks_placedRows_append (n : Nat) (b : Tree) :
    matchMarks pending (placedRows n b.rows ++ ps) =
      ⟨b.sections n ++ (matchMarks pending ps).sections, (matchMarks pending ps).loose⟩ := by
  induction b generalizing n pending ps with
  | nil => rfl
  | line l rest ih =>
    rw [Tree.rows, placedRows, List.append_assoc, matchMarks_placed_line, ih]
    rfl
  | guarded guard body rest hbody hrest =>
    rw [Tree.rows, placedRows, placedRows_append, placedRows, Row.placed, Row.placed,
      List.append_assoc, List.append_assoc, List.append_assoc, List.singleton_append,
      List.singleton_append, matchMarks_sectionStart, hbody, matchMarks_sectionEnd, hrest,
      Tree.sections, List.append_assoc, Nat.add_right_comm n 1]
    rfl

/-- The lines of the sections of a tree lie among those of its rows. -/
theorem Tree.bounds_of_mem_sections {n : Nat} {b : Tree} {s : Conditional}
    (hs : s ∈ b.sections n) : n ≤ s.start ∧ s.start ≤ s.stop ∧ s.stop < n + b.rows.length := by
  induction b generalizing n with
  | nil => cases hs
  | line l rest ih =>
    have := ih hs
    rw [Tree.rows, List.length_cons]
    omega
  | guarded guard body rest hbody hrest =>
    rw [Tree.rows, List.length_cons, List.length_append, List.length_cons]
    rw [Tree.sections, List.mem_append, List.mem_cons] at hs
    rcases hs with hs | rfl | hs
    · have := hbody hs
      omega
    · simp only
      omega
    · have := hrest hs
      omega

/-- Whether a line holds a mark of one of some sections or lies in one whose guard is false. -/
def isGone (d : Document) (ss : List Conditional) (k : Nat) : Bool :=
  ss.any fun s => s.start == k || s.stop == k ||
    (isFalse d s.guard && (s.start ≤ k && k ≤ s.stop))

/-- A line is gone on account of one of the sections. -/
theorem isGone_eq_true_iff {ss : List Conditional} {k : Nat} :
    isGone d ss k = true ↔
      ∃ s ∈ ss, (s.start = k ∨ s.stop = k) ∨
        isFalse d s.guard = true ∧ s.start ≤ k ∧ k ≤ s.stop := by
  simp only [isGone, List.any_eq_true, Bool.or_eq_true, beq_iff_eq, Bool.and_eq_true,
    decide_eq_true_eq]

/-- The lines gone on account of two lists of sections. -/
theorem isGone_append (ss later : List Conditional) (k : Nat) :
    isGone d (ss ++ later) k = (isGone d ss k || isGone d later k) :=
  List.any_append

/-- No line in front of a tree or behind it is gone. -/
theorem isGone_sections_eq_false {n k : Nat} {b : Tree} (hk : k < n ∨ n + b.rows.length ≤ k) :
    isGone d (b.sections n) k = false := by
  rw [← Bool.not_eq_true, isGone_eq_true_iff]
  intro h
  obtain ⟨s, hs, h⟩ := h
  have := Tree.bounds_of_mem_sections hs
  omega

/-- A guard is false when its truth value is. -/
theorem isFalse_call (guard : LineCall) :
    isFalse d guard.call = true ↔ guard.truth d = .ok false := by
  rw [isFalse, WrittenCall.holds_call]
  cases guard.truth d with
  | error e => simp
  | ok b => cases b <;> simp

/-- The lines gone on account of a section and of those in it and behind it. -/
theorem isGone_sections_guarded (n : Nat) (guard : LineCall) (body rest : Tree) (k : Nat) :
    isGone d ((Tree.guarded guard body rest).sections n) k =
      (isGone d (body.sections (n + 1)) k ||
        ((n == k || n + 1 + body.rows.length == k ||
            (isFalse d guard.call && (n ≤ k && k ≤ n + 1 + body.rows.length))) ||
          isGone d (rest.sections (n + body.rows.length + 2)) k)) :=
  isGone_append _ _ k

/-- Behind the end mark of a section, the lines gone are those gone on account of what follows. -/
theorem isGone_behind (n : Nat) (guard : LineCall) (body rest : Tree) (k : Nat) :
    isGone d ((Tree.guarded guard body rest).sections n) (n + 1 + (k + 1 + body.rows.length)) =
      isGone d (rest.sections (n + body.rows.length + 2)) (n + body.rows.length + 2 + k) := by
  have hline : n + 1 + (k + 1 + body.rows.length) = n + body.rows.length + 2 + k := by omega
  have hbody : isGone d (body.sections (n + 1)) (n + body.rows.length + 2 + k) = false :=
    isGone_sections_eq_false (.inr (by omega))
  have hself : (n == n + body.rows.length + 2 + k ||
      n + 1 + body.rows.length == n + body.rows.length + 2 + k ||
      (isFalse d guard.call && (n ≤ n + body.rows.length + 2 + k &&
        n + body.rows.length + 2 + k ≤ n + 1 + body.rows.length))) = false := by
    simp only [Bool.or_eq_false_iff, Bool.and_eq_false_iff, beq_eq_false_iff_ne,
      decide_eq_false_iff_not]
    omega
  rw [hline, isGone_sections_guarded, hbody, hself, Bool.false_or, Bool.false_or]

/-- Between the marks of a section, all lines are gone if the guard is false, and those gone on
account of what is between if not. -/
theorem isGone_inside (n : Nat) (guard : LineCall) (body rest : Tree) {k : Nat}
    (hk : k < body.rows.length) :
    isGone d ((Tree.guarded guard body rest).sections n) (n + 1 + k) =
      (isGone d (body.sections (n + 1)) (n + 1 + k) || isFalse d guard.call) := by
  have hrest : isGone d (rest.sections (n + body.rows.length + 2)) (n + 1 + k) = false :=
    isGone_sections_eq_false (.inl (by omega))
  have hstart : (n == n + 1 + k) = false := by
    rw [beq_eq_false_iff_ne]
    omega
  have hstop : (n + 1 + body.rows.length == n + 1 + k) = false := by
    rw [beq_eq_false_iff_ne]
    omega
  have hbetween : (decide (n ≤ n + 1 + k) && decide (n + 1 + k ≤ n + 1 + body.rows.length)) =
      true := by
    rw [Bool.and_eq_true, decide_eq_true_eq, decide_eq_true_eq]
    omega
  rw [isGone_sections_guarded, hrest, hstart, hstop, hbetween, Bool.or_false, Bool.false_or,
    Bool.false_or, Bool.and_true]

/-- Between the marks of a section, no line stays if the guard is false, and those that stay of what
is between if not. -/
theorem keepLines_inside {n : Nat} {body : Tree}
    (hbody : keepLines (fun k => isGone d (body.sections (n + 1)) (n + 1 + k))
      (body.rows.map Row.text) = (body.kept d).map Line.text) (guard : LineCall) (rest : Tree) :
    keepLines (fun k => isGone d ((Tree.guarded guard body rest).sections n) (n + 1 + k))
        (body.rows.map Row.text) =
      if isFalse d guard.call then [] else (body.kept d).map Line.text := by
  split
  · rename_i hguard
    apply keepLines_of_forall_true
    intro k hk
    rw [List.length_map] at hk
    rw [isGone_inside n guard body rest hk, hguard, Bool.or_true]
  · rename_i hguard
    have hfalse : isFalse d guard.call = false := by simpa using hguard
    rw [← hbody]
    apply keepLines_congr
    intro k hk
    rw [List.length_map] at hk
    rw [isGone_inside n guard body rest hk, hfalse, Bool.or_false]

/-- Without the lines that are gone, the rows of a tree are the lines that stay. -/
theorem keepLines_isGone (n : Nat) (b : Tree) :
    keepLines (fun k => isGone d (b.sections n) (n + k)) (b.rows.map Row.text) =
      (b.kept d).map Line.text := by
  induction b generalizing n with
  | nil => rfl
  | line l rest ih =>
    have hhead : isGone d (rest.sections (n + 1)) n = false :=
      isGone_sections_eq_false (.inl (Nat.lt_succ_self n))
    rw [Tree.rows, List.map_cons, keepLines_cons, Tree.sections, Nat.add_zero,
      if_neg (by simp [hhead]), keepLines_succ, ih, Tree.kept, List.map_cons]
    rfl
  | guarded guard body rest hbody hrest =>
    have hfirst : isGone d ((Tree.guarded guard body rest).sections n) n = true := by
      simp [isGone_sections_guarded]
    have hlast : isGone d ((Tree.guarded guard body rest).sections n)
        (n + 1 + body.rows.length) = true := by
      simp [isGone_sections_guarded]
    have hbehind : keepLines (fun k => isGone d ((Tree.guarded guard body rest).sections n)
        (n + 1 + (k + 1 + body.rows.length))) (rest.rows.map Row.text) =
          (rest.kept d).map Line.text := by
      rw [← hrest (n + body.rows.length + 2)]
      exact keepLines_congr fun k _ => isGone_behind n guard body rest k
    rw [Tree.rows, List.map_cons, keepLines_cons, Nat.add_zero, if_pos hfirst, keepLines_succ,
      List.map_append, keepLines_append, List.map_cons, keepLines_cons, List.length_map, Nat.zero_add,
      if_pos hlast, hbehind, keepLines_inside (hbody (n + 1)), Tree.kept]
    by_cases hguard : isFalse d guard.call = true
    · rw [if_pos hguard, (isFalse_call guard).mp hguard, List.nil_append]
    · have htruth : guard.truth d ≠ .ok false := by
        intro h
        exact hguard ((isFalse_call guard).mpr h)
      rw [if_neg hguard]
      split
      · contradiction
      · rw [List.map_append]

/-- The sections of a tree have its guards. -/
theorem map_guard_sections (n : Nat) (b : Tree) :
    (b.sections n).map Conditional.guard = b.guards.map fun g => g.call := by
  induction b generalizing n with
  | nil => rfl
  | line l rest ih => exact ih (n + 1)
  | guarded guard body rest hbody hrest =>
    rw [Tree.sections, List.map_append, List.map_cons, hbody, hrest, Tree.guards, List.map_append,
      List.map_cons]

/-- The marks of the text of a tree are those of its sections. -/
theorem matchMarks_lined_text (b : Tree) : matchMarks [] (lined b.text) = ⟨b.sections 0, []⟩ := by
  have h : matchMarks [] (placedRows 0 b.rows ++ []) = _ := matchMarks_placedRows_append 0 b
  rw [List.append_nil] at h
  rw [lined, Tree.text, pieces_unlines, linedFrom_intercalate, h]
  simp [matchMarks]

/-- The guards of the sections of the text of a tree are those of the tree. -/
theorem isSettled_sections_iff (b : Tree) :
    (∀ s ∈ (marks b.text).sections, IsSettled d s.guard) ↔
      ∀ g ∈ b.guards, ∃ truth, g.truth d = .ok truth := by
  have hguards : (marks b.text).sections.map Conditional.guard =
      b.guards.map fun g => g.call := by
    have hrelocate : (marks b.text).sections.map
        (Conditional.relocate (lineOf (lineStarts b.text))) = b.sections 0 := by
      have h := relocate_marks b.text
      rw [matchMarks_lined_text] at h
      exact congrArg Marks.sections h
    rw [← map_guard_sections 0 b, ← hrelocate, List.map_map]
    rfl
  have hleft : (∀ s ∈ (marks b.text).sections, IsSettled d s.guard) ↔
      ∀ c ∈ (marks b.text).sections.map Conditional.guard, IsSettled d c := by
    rw [List.forall_mem_map]
  rw [hleft, hguards, List.forall_mem_map]
  simp only [IsSettled, WrittenCall.holds_call]

/-- A line of the text of a tree is taken out when it is gone on account of the tree's sections. -/
theorem isRemoved_text (b : Tree) (k : Nat) :
    isRemoved d b.text k = isGone d (b.sections 0) k := by
  rw [Bool.eq_iff_iff, isRemoved_eq_true_iff, matchMarks_lined_text, isGone_eq_true_iff]
  simp only [Marks.places, List.nil_append, List.mem_flatMap, List.mem_cons, List.not_mem_nil,
    or_false]
  constructor
  · intro h
    rcases h with ⟨s, hs, hk⟩ | ⟨s, hs, hk⟩
    · exact ⟨s, hs, .inl (hk.imp Eq.symm Eq.symm)⟩
    · exact ⟨s, hs, .inr hk⟩
  · intro h
    obtain ⟨s, hs, hk | hk⟩ := h
    · exact .inl ⟨s, hs, hk.imp Eq.symm Eq.symm⟩
    · exact .inr ⟨s, hs, hk⟩

/-- Without some of its lines, a text of rows is its other rows. -/
theorem unlines_keepLines_rows (removed : Nat → Bool) (rows : List Row) :
    unlines (keepLines removed (lines (unlines (rows.map Row.text)))) =
      unlines (keepLines removed (rows.map Row.text)) := by
  by_cases hrows : rows = []
  · rw [hrows, List.map_nil, unlines_nil, lines_nil, keepLines_cons]
    split <;> rfl
  · rw [lines_unlines (by simpa using hrows)]
    intro l hl
    obtain ⟨r, -, rfl⟩ := List.mem_map.mp hl
    exact r.newline_notMem_text

/-- The conditional pass leaves the lines of a tree that stay, if all guards have truth values. -/
theorem resolveSections_text_eq_ok_iff (b : Tree) {u : Text} :
    resolveSections d b.text = .ok u ↔
      (∀ g ∈ b.guards, ∃ truth, g.truth d = .ok truth) ∧
        u = unlines ((b.kept d).map Line.text) := by
  have hkept := keepLines_isGone (d := d) 0 b
  simp only [Nat.zero_add] at hkept
  rw [resolveSections_eq_ok_iff, isSettled_sections_iff, ← hkept,
    keepLines_congr fun k _ => isRemoved_text b k, Tree.text, unlines_keepLines_rows]

/-- Lines one below the other render to their values exactly when each line has one. -/
theorem splice_pieces_unlines_eq_ok_iff {ls : List Line} {out : Text} :
    splice d (pieces (unlines (ls.map Line.text))) = .ok out ↔
      ∃ values, List.Forall₂ (fun l v => l.value d = .ok v) ls values ∧ out = unlines values := by
  have htext : ls.map Line.text = (ls.map Row.line).map Row.text := by
    rw [List.map_map]
    rfl
  have hpieces : (ls.map Row.line).map Row.pieces = ls.map Line.pieces := by
    rw [List.map_map]
    rfl
  rw [htext, pieces_unlines, hpieces, splice_intercalate_eq_ok_iff]

/-- A template that is written from a tree renders exactly when every guard has a truth value and
every line that stays has a value, and then to these values, one below the other. -/
theorem render_text_eq_ok_iff (d : Document) (b : Tree) (out : Text) :
    render d b.text = .ok out ↔
      (∀ g ∈ b.guards, ∃ truth, g.truth d = .ok truth) ∧
        ∃ values, List.Forall₂ (fun l v => l.value d = .ok v) (b.kept d) values ∧
          out = unlines values := by
  rw [render, bind_eq_ok_iff]
  constructor
  · intro h
    obtain ⟨u, hu, hout⟩ := h
    obtain ⟨hguards, rfl⟩ := (resolveSections_text_eq_ok_iff b).mp hu
    exact ⟨hguards, splice_pieces_unlines_eq_ok_iff.mp hout⟩
  · intro h
    obtain ⟨hguards, hvalues⟩ := h
    exact ⟨_, (resolveSections_text_eq_ok_iff b).mpr ⟨hguards, rfl⟩,
      splice_pieces_unlines_eq_ok_iff.mpr hvalues⟩

end Marginalia.Template
