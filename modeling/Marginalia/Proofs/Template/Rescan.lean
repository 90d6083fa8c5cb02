import Marginalia.Proofs.Template.Removal

/-!
# The second scan

The calls that are evaluated are those of the text that the conditional pass leaves. They are the
calls of the template whose lines all stay, in their order, when the pass cuts through nothing that
the scan of the template reads as one: each candidate lies on lines that all stay or all go, and
two opening braces without a candidate stay with all that decides that there is none.
-/

namespace Marginalia.Template

open Text

variable {removed : Nat → Bool} {d : Document} {t u : Text}

/-- What is left of a text that starts on a line when the lines with some numbers are taken out. -/
def left (removed : Nat → Bool) (line : Nat) (t : Text) : Text :=
  unlines (keepLines (fun k => removed (line + k)) (lines t))

@[simp] theorem left_nil (line : Nat) : left removed line [] = [] := by
  rw [left, lines_nil, keepLines_cons]
  split <;> rfl

/-- What is left of a whole text. -/
theorem left_zero (t : Text) : left removed 0 t = unlines (keepLines removed (lines t)) := by
  simp only [left, Nat.zero_add]

/-- A character on a line that stays is left. -/
theorem left_cons_of_kept {line : Nat} (hline : removed line = false) {c : Char} (hc : c ≠ '\n')
    (t : Text) : left removed line (c :: t) = c :: left removed line t := by
  obtain ⟨l, ls, hls⟩ := List.exists_cons_of_ne_nil (lines_ne_nil t)
  rw [left, left, lines_cons hc, hls, List.modifyHead_cons, keepLines_cons, keepLines_cons,
    Nat.add_zero, hline]
  exact unlines_cons_cons c l _

/-- A character on a line that goes is taken out. -/
theorem left_cons_of_removed {line : Nat} (hline : removed line = true) (c : Char) (t : Text) :
    left removed line (c :: t) = left removed (line + [c].count '\n') t := by
  by_cases hc : c = '\n'
  · subst hc
    rw [left, left, lines_newline_cons, keepLines_cons, Nat.add_zero, if_pos hline, keepLines_succ,
      List.count_cons_self, List.count_nil]
  · obtain ⟨l, ls, hls⟩ := List.exists_cons_of_ne_nil (lines_ne_nil t)
    rw [left, left, lines_cons hc, hls, List.modifyHead_cons, keepLines_cons,
      List.count_cons_of_ne hc, List.count_nil, keepLines_cons, Nat.add_zero, if_pos hline,
      if_pos hline]

/-- The line feed of a line that stays is left if any later line is. -/
theorem left_newline_of_kept {line : Nat} (hline : removed line = false) (t : Text) :
    left removed line ('\n' :: t) =
      if keepLines (fun k => removed (line + 1 + k)) (lines t) = [] then []
      else '\n' :: left removed (line + 1) t := by
  rw [left, left, lines_newline_cons, keepLines_cons, Nat.add_zero, if_neg (by simp [hline]),
    keepLines_succ]
  by_cases hls : keepLines (fun k => removed (line + 1 + k)) (lines t) = []
  · rw [if_pos hls, hls, unlines_singleton]
  · rw [if_neg hls, unlines_cons hls, List.nil_append]

/-- The line feed between two lines that stay is left. -/
theorem left_newline_of_kept_of_kept {line : Nat} (hline : removed line = false)
    (hnext : removed (line + 1) = false) (t : Text) :
    left removed line ('\n' :: t) = '\n' :: left removed (line + 1) t := by
  obtain ⟨l, ls, hls⟩ := List.exists_cons_of_ne_nil (lines_ne_nil t)
  have hne : keepLines (fun k => removed (line + 1 + k)) (lines t) ≠ [] := by
    rw [hls, keepLines_cons, Nat.add_zero, hnext]
    simp
  rw [left_newline_of_kept hline, if_neg hne]

/-- A front whose lines all stay is left. -/
theorem left_append_of_kept {line : Nat} {front : Text}
    (hfront : ∀ k ≤ front.count '\n', removed (line + k) = false) (t : Text) :
    left removed line (front ++ t) = front ++ left removed (line + front.count '\n') t := by
  induction front generalizing line with
  | nil => simp
  | cons c front ih =>
    have hline : removed line = false := hfront 0 (Nat.zero_le _)
    rw [List.cons_append]
    by_cases hc : c = '\n'
    · subst hc
      rw [List.count_cons_self] at hfront ⊢
      have hnext : removed (line + 1) = false := hfront 1 (by omega)
      have hlater : ∀ k ≤ front.count '\n', removed (line + 1 + k) = false := by
        intro k hk
        rw [Nat.add_assoc]
        exact hfront (1 + k) (by omega)
      rw [left_newline_of_kept_of_kept hline hnext, ih hlater, List.cons_append,
        Nat.add_assoc line, Nat.add_comm 1]
    · rw [List.count_cons_of_ne hc] at hfront ⊢
      rw [left_cons_of_kept hline hc, ih hfront, List.cons_append]

/-- A front whose lines all go is taken out. -/
theorem left_append_of_removed {line : Nat} {front : Text}
    (hfront : ∀ k ≤ front.count '\n', removed (line + k) = true) (t : Text) :
    left removed line (front ++ t) = left removed (line + front.count '\n') t := by
  induction front generalizing line with
  | nil => simp
  | cons c front ih =>
    have hcount : (c :: front).count '\n' = [c].count '\n' + front.count '\n' := by
      rw [← List.count_append, List.singleton_append]
    have hline : removed line = true := hfront 0 (Nat.zero_le _)
    have hlater : ∀ k ≤ front.count '\n', removed (line + [c].count '\n' + k) = true := by
      intro k hk
      rw [Nat.add_assoc]
      exact hfront _ (by omega)
    rw [List.cons_append, left_cons_of_removed hline, ih hlater, hcount, Nat.add_assoc]

/-- The call whose value replaces an expression. -/
def Expression.call? : Expression → Option Call
  | value c => some c
  | sectionStart _ => none
  | sectionEnd => none

/-- The calls whose values replace expressions of a template, in order. -/
def calls (t : Text) : List Call :=
  (expressions t).filterMap fun p => p.expression.call?

/-- The call of a piece. -/
def Piece.call? : Piece → Option Call
  | char _ => none
  | expression _ e => e.call?

/-- The calls of a template are those of its pieces. -/
theorem calls_eq (t : Text) : calls t = (pieces t).filterMap Piece.call? := by
  have hplaced (offset : Nat) (ps : List Piece) :
      (placedFrom offset ps).filterMap (fun p => p.expression.call?) =
        ps.filterMap Piece.call? := by
    induction ps generalizing offset with
    | nil => rfl
    | cons p ps ih =>
      cases p with
      | char c => exact ih _
      | expression source e =>
        rw [placedFrom, List.filterMap_cons, List.filterMap_cons, ih]
        rfl
  exact hplaced 0 (pieces t)

/-- The characters of a text that are no expressions hold no call. -/
theorem calls_cons {c : Char} (h : candidate? (c :: t) = none) : calls (c :: t) = calls t := by
  rw [calls_eq, calls_eq, pieces_cons h]
  rfl

/-- The calls of a text that a candidate opens. -/
theorem calls_append {c : Candidate} (h : candidate? (c.source ++ t) = some c) :
    calls (c.source ++ t) = c.pieces.filterMap Piece.call? ++ calls t := by
  rw [calls_eq, calls_eq, pieces_append h, List.filterMap_append]

@[simp] theorem calls_nil : calls [] = [] := rfl

/-- Whether the lines from a first to a last one all pass a test. -/
def allBetween (test : Nat → Bool) (first last : Nat) : Bool :=
  (List.range' first (last + 1 - first)).all test

/-- Lines all pass a test when each of them does. -/
theorem allBetween_eq_true_iff {test : Nat → Bool} {first last : Nat} :
    allBetween test first last = true ↔ ∀ k, first ≤ k → k ≤ last → test k = true := by
  simp only [allBetween, List.all_eq_true, List.mem_range'_1, and_imp]
  constructor
  · intro h k hfirst hlast
    exact h k hfirst (by omega)
  · intro h k hfirst hlast
    exact h k hfirst (by omega)

/-- Lines all pass a test when those by each distance from the first do. -/
theorem allBetween_add_iff {test : Nat → Bool} {first height : Nat} :
    allBetween test first (first + height) = true ↔ ∀ k ≤ height, test (first + k) = true := by
  rw [allBetween_eq_true_iff]
  constructor
  · intro h k hk
    exact h (first + k) (Nat.le_add_right _ _) (Nat.add_le_add_left hk _)
  · intro h k hfirst hlast
    rw [← Nat.add_sub_of_le hfirst]
    exact h (k - first) (by omega)

/-- The calls of pieces the first of which starts on a line, without those of which a line goes. -/
def keptCalls (removed : Nat → Bool) (line : Nat) (ps : List Piece) : List Call :=
  ((linedFrom line ps).filter fun p => allBetween (!removed ·) p.start p.stop).filterMap
    fun p => p.expression.call?

/-- A place where the scan of a template looks for a candidate: its line and the text ahead. -/
structure Place where
  line : Nat
  ahead : Text
deriving DecidableEq

/-- The places where the scan of a text looks for candidates, behind a number of characters that
belong to a candidate already. -/
def placesFrom : Nat → Nat → Text → List Place
  | _, _, [] => []
  | line, skip + 1, c :: rest => placesFrom (line + [c].count '\n') skip rest
  | line, 0, c :: rest =>
    ⟨line, c :: rest⟩ :: match candidate? (c :: rest) with
      | some found => placesFrom (line + [c].count '\n') (found.source.length - 1) rest
      | none => placesFrom (line + [c].count '\n') 0 rest

/-- The places where the scan of a template looks for candidates. -/
def places (t : Text) : List Place :=
  placesFrom 0 0 t

/-- The text that decides whether a candidate stands at a place: the candidate if there is one, all
text ahead if a candidate opens that is never closed, and two opening braces with the blanks behind
them otherwise. -/
def Place.reach (p : Place) : Text :=
  match candidate? p.ahead with
  | some c => c.source
  | none =>
    match p.ahead with
    | '\x7b' :: '\x7b' :: rest =>
      match trimStart rest with
      | '@' :: _ => p.ahead
      | _ => openingBraces ++ rest.takeWhile isBlank
    | _ => []

/-- Whether nothing at a place is cut: on a line that stays, what decides about a candidate stays,
and on a line that goes, so does the candidate. -/
def Place.isWhole (removed : Nat → Bool) (p : Place) : Bool :=
  if removed p.line then
    (candidate? p.ahead).all fun c => allBetween removed p.line (p.line + c.source.count '\n')
  else allBetween (!removed ·) p.line (p.line + p.reach.count '\n')

/-- A candidate on a line that goes, at a place where nothing is cut, goes. -/
theorem Place.removed_of_isWhole {p : Place} (hwhole : p.isWhole removed = true)
    (hline : removed p.line = true) {c : Candidate} (hc : candidate? p.ahead = some c) :
    ∀ k ≤ c.source.count '\n', removed (p.line + k) = true := by
  rw [isWhole, if_pos hline, hc] at hwhole
  exact allBetween_add_iff.mp hwhole

/-- What decides about a candidate on a line that stays, at a place where nothing is cut, stays. -/
theorem Place.kept_of_isWhole {p : Place} (hwhole : p.isWhole removed = true)
    (hline : removed p.line = false) : ∀ k ≤ p.reach.count '\n', removed (p.line + k) = false := by
  rw [isWhole, if_neg (by simp [hline])] at hwhole
  simpa using allBetween_add_iff.mp hwhole

/-- Places are looked for behind the characters that belong to a candidate. -/
theorem placesFrom_eq_drop (line skip : Nat) (t : Text) :
    placesFrom line skip t = placesFrom (line + (t.take skip).count '\n') 0 (t.drop skip) := by
  induction t generalizing line skip with
  | nil => simp [placesFrom]
  | cons c t ih =>
    cases skip with
    | zero => simp
    | succ skip =>
      rw [placesFrom, ih, List.take_succ_cons, List.drop_succ_cons, Nat.add_assoc,
        ← List.count_append, List.singleton_append]

/-- Where no candidate opens, the scan goes on behind the first character. -/
theorem placesFrom_cons {line : Nat} {c : Char} (h : candidate? (c :: t) = none) :
    placesFrom line 0 (c :: t) = ⟨line, c :: t⟩ :: placesFrom (line + [c].count '\n') 0 t := by
  rw [placesFrom, h]

/-- Where a candidate opens, the scan goes on behind it. -/
theorem placesFrom_append {line : Nat} {c : Candidate} (h : candidate? (c.source ++ t) = some c) :
    placesFrom line 0 (c.source ++ t) =
      ⟨line, c.source ++ t⟩ :: placesFrom (line + c.source.count '\n') 0 t := by
  obtain ⟨a, source, hsource⟩ := List.exists_cons_of_ne_nil (source_ne_nil_of_candidate? h)
  rw [hsource, List.cons_append] at h ⊢
  rw [placesFrom, h]
  simp only [hsource, List.length_cons, Nat.add_sub_cancel]
  rw [placesFrom_eq_drop, List.take_left, List.drop_left, Nat.add_assoc, ← List.count_append,
    List.singleton_append]

/-- The first character of what is left on a line that stays is that of the text. -/
theorem exists_cons_of_left {line : Nat} (hline : removed line = false) {c : Char} (hc : c ≠ '\n')
    {rest : Text} (h : left removed line t = c :: rest) : ∃ behind, t = c :: behind := by
  cases t with
  | nil => simp at h
  | cons b t =>
    by_cases hb : b = '\n'
    · rw [hb, left_newline_of_kept hline] at h
      split at h
      · cases h
      · exact absurd (List.cons.inj h).1.symm hc
    · rw [left_cons_of_kept hline hb] at h
      exact ⟨t, by rw [(List.cons.inj h).1]⟩

/-- Where no two opening braces stand on a line that stays, no candidate opens in what is left. -/
theorem candidate?_left_of_ne {line : Nat} (hline : removed line = false)
    (h : ∀ rest, t ≠ '\x7b' :: '\x7b' :: rest) : candidate? (left removed line t) = none := by
  apply candidate?_eq_none
  intro rest hleft
  obtain ⟨behind, rfl⟩ := exists_cons_of_left hline (by decide) hleft
  rw [left_cons_of_kept hline (by decide), List.cons.injEq] at hleft
  obtain ⟨more, rfl⟩ := exists_cons_of_left hline (by decide) hleft.2
  exact h more rfl

/-- Two opening braces with an at sign behind them, of which no candidate opens, reach to the end.
-/
theorem Place.reach_of_at {line : Nat} (hnone : candidate? (openingBraces ++ t) = none)
    {behind : Text} (hbehind : trimStart t = '@' :: behind) :
    (Place.mk line (openingBraces ++ t)).reach = openingBraces ++ t := by
  rw [reach, hnone]
  simp only [openingBraces, List.cons_append, List.nil_append, hbehind]

/-- Two opening braces without an at sign behind them reach to the end of the blanks. -/
theorem Place.reach_of_ne_at {line : Nat} (hnone : candidate? (openingBraces ++ t) = none)
    (hat : ∀ behind, trimStart t ≠ '@' :: behind) :
    (Place.mk line (openingBraces ++ t)).reach = openingBraces ++ t.takeWhile isBlank := by
  rw [reach, hnone]
  simp only [openingBraces, List.cons_append, List.nil_append]

/-- Two opening braces and blanks that stay, without an at sign behind them, open no candidate in
what is left. -/
theorem candidate?_left_of_ne_at {line : Nat} (hat : ∀ behind, trimStart t ≠ '@' :: behind)
    (hwhole : ∀ k ≤ (openingBraces ++ t.takeWhile isBlank).count '\n', removed (line + k) = false) :
    candidate? (left removed line (openingBraces ++ t)) = none := by
  have hsplit : openingBraces ++ t = openingBraces ++ t.takeWhile isBlank ++ trimStart t := by
    rw [trimStart, List.append_assoc, List.takeWhile_append_dropWhile]
  rw [hsplit, left_append_of_kept hwhole, List.append_assoc]
  apply candidate?_openingBraces_eq_none
  intro behind hbehind
  rw [trimStart_blanks_append fun b hb => List.mem_takeWhile_imp hb] at hbehind
  cases hrest : trimStart t with
  | nil =>
    rw [hrest, left_nil] at hbehind
    cases hbehind
  | cons c more =>
    have hc := isBlank_of_trimStart hrest
    have hne : c ≠ '\n' := by
      intro heq
      subst heq
      cases hc
    rw [hrest, left_cons_of_kept (hwhole _ (Nat.le_refl _)) hne, trimStart_cons hc] at hbehind
    exact hat more (by rw [hrest, (List.cons.inj hbehind).1])

/-- Where no candidate opens on a line that stays, none opens in what is left. -/
theorem candidate?_left {line : Nat} (hnone : candidate? t = none)
    (hwhole : ∀ k ≤ (Place.mk line t).reach.count '\n', removed (line + k) = false) :
    candidate? (left removed line t) = none := by
  by_cases hbraces : ∃ rest, t = openingBraces ++ rest
  · obtain ⟨rest, rfl⟩ := hbraces
    by_cases hat : ∃ behind, trimStart rest = '@' :: behind
    · obtain ⟨behind, hbehind⟩ := hat
      rw [Place.reach_of_at hnone hbehind] at hwhole
      have hall := left_append_of_kept hwhole []
      rw [List.append_nil, left_nil, List.append_nil] at hall
      rwa [hall]
    · have hne : ∀ behind, trimStart rest ≠ '@' :: behind := by
        intro behind hbehind
        exact hat ⟨behind, hbehind⟩
      rw [Place.reach_of_ne_at hnone hne] at hwhole
      exact candidate?_left_of_ne_at hne hwhole
  · apply candidate?_left_of_ne (hwhole 0 (Nat.zero_le _))
    intro rest hrest
    exact hbraces ⟨rest, hrest⟩

/-- The call of a candidate is kept when all lines of the candidate stay. -/
theorem keptCalls_candidate (line : Nat) (c : Candidate) (ps : List Piece) :
    keptCalls removed line (c.pieces ++ ps) =
      (if allBetween (!removed ·) line (line + c.source.count '\n') then
        c.pieces.filterMap Piece.call? else []) ++
          keptCalls removed (line + c.source.count '\n') ps := by
  rw [keptCalls, linedFrom_append, flatMap_source_candidate, List.filter_append,
    List.filterMap_append, keptCalls]
  congr 1
  unfold Candidate.pieces
  split
  · rw [linedFrom, linedFrom, List.filter_cons, List.filter_nil]
    split <;> rfl
  · rw [linedFrom_map_char, List.filterMap_map]
    split
    · exact (List.filterMap_eq_nil_iff.mpr fun _ _ => rfl).symm
    · rfl

/-- A character that opens no candidate in what is left holds no call. -/
theorem calls_left_cons {line : Nat} {c : Char} (hline : removed line = false)
    (hnone : candidate? (left removed line (c :: t)) = none) :
    calls (left removed line (c :: t)) = calls (left removed (line + [c].count '\n') t) := by
  by_cases hc : c = '\n'
  · subst hc
    rw [left_newline_of_kept hline] at hnone ⊢
    split at hnone
    · rename_i hnil
      rw [if_pos hnil, left, List.count_cons_self, List.count_nil, hnil, unlines_nil]
    · rename_i hne
      rw [if_neg hne, calls_cons hnone, List.count_cons_self, List.count_nil]
  · rw [left_cons_of_kept hline hc] at hnone ⊢
    rw [calls_cons hnone, List.count_cons_of_ne hc, List.count_nil, Nat.add_zero]

/-- A candidate at a place where nothing is cut gives its call to what is left when all its lines
stay, and nothing when not. -/
theorem calls_left_candidate {line : Nat} {c : Candidate}
    (hsome : candidate? (c.source ++ t) = some c)
    (hplace : (Place.mk line (c.source ++ t)).isWhole removed = true) :
    calls (left removed line (c.source ++ t)) =
      (if allBetween (!removed ·) line (line + c.source.count '\n') then
        c.pieces.filterMap Piece.call? else []) ++
          calls (left removed (line + c.source.count '\n') t) := by
  cases hline : removed line with
  | true =>
    have hcut : ¬ allBetween (!removed ·) line (line + c.source.count '\n') = true := by
      rw [allBetween_add_iff]
      intro hkept
      have := hkept 0 (Nat.zero_le _)
      simp [hline] at this
    rw [left_append_of_removed (Place.removed_of_isWhole hplace hline hsome), if_neg hcut,
      List.nil_append]
  | false =>
    have hreach : (Place.mk line (c.source ++ t)).reach = c.source := by
      rw [Place.reach, hsome]
    have hkept := Place.kept_of_isWhole hplace hline
    rw [hreach] at hkept
    have hall : allBetween (!removed ·) line (line + c.source.count '\n') = true := by
      apply allBetween_add_iff.mpr
      intro k hk
      simp [hkept k hk]
    rw [left_append_of_kept hkept, calls_append (candidate?_append hsome _), if_pos hall]

/-- When nothing is cut, the calls of what is left are those all of whose lines stay. -/
theorem calls_left {line : Nat} (hwhole : ∀ p ∈ placesFrom line 0 t, p.isWhole removed = true) :
    calls (left removed line t) = keptCalls removed line (pieces t) := by
  induction t using scan_induction generalizing line with
  | nil =>
    rw [left_nil, calls_nil]
    rfl
  | char c t hnone ih =>
    rw [placesFrom_cons hnone] at hwhole
    obtain ⟨hplace, hlater⟩ := List.forall_mem_cons.mp hwhole
    rw [pieces_cons hnone]
    have hih : calls (left removed (line + [c].count '\n') t) =
        keptCalls removed line (.char c :: pieces t) := ih hlater
    rw [← hih]
    cases hline : removed line with
    | true => rw [left_cons_of_removed hline]
    | false => exact calls_left_cons hline (candidate?_left hnone (Place.kept_of_isWhole hplace hline))
  | candidate c t hsome ih =>
    rw [placesFrom_append hsome] at hwhole
    obtain ⟨hplace, hlater⟩ := List.forall_mem_cons.mp hwhole
    rw [pieces_append hsome, keptCalls_candidate, ← ih hlater, calls_left_candidate hsome hplace]

/-- Whether no line of an expression of a template goes. -/
def isOnKeptLines (removed : Nat → Bool) (t : Text) (p : Placed) : Bool :=
  allBetween (!removed ·) (lineOf (lineStarts t) p.start) (lineOf (lineStarts t) (p.stop - 1))

/-- The calls of a template all of whose lines stay, by the offsets of their expressions. -/
theorem keptCalls_pieces (t : Text) :
    keptCalls removed 0 (pieces t) =
      ((expressions t).filter (isOnKeptLines removed t)).filterMap fun p => p.expression.call? := by
  have hlast : ∀ p ∈ expressions t, allBetween (!removed ·) (lineOf (lineStarts t) p.start)
      (lineOf (lineStarts t) p.stop) = isOnKeptLines removed t p := by
    intro p hp
    rw [isOnKeptLines, lineOf_stop_sub_one hp]
  rw [keptCalls, ← lined, ← map_relocate_expressions, List.filter_map, List.filterMap_map,
    ← List.filter_congr hlast]
  rfl

/-- When the conditional pass cuts nothing, the calls of the text that it leaves are those of the
template all of whose lines stay, in their order. -/
theorem calls_resolveSections (hresolve : resolveSections d t = .ok u)
    (hwhole : ∀ p ∈ places t, p.isWhole (isRemoved d t) = true) :
    calls u = ((expressions t).filter (isOnKeptLines (isRemoved d t) t)).filterMap
      fun p => p.expression.call? := by
  rw [(resolveSections_eq_ok_iff.mp hresolve).2, ← left_zero, calls_left hwhole, keptCalls_pieces]

/-- A false section with a call in it and a call below it, of which the second is left. -/
theorem calls_resolveSections_section :
    calls "\x7b\x7b@c:d()\x7d\x7d".toList =
      ((expressions
        "\x7b\x7b@if a:b()\x7d\x7d\n\x7b\x7b@a:b()\x7d\x7d\n\x7b\x7b@end\x7d\x7d\n\x7b\x7b@c:d()\x7d\x7d".toList).filter
        (isOnKeptLines (isRemoved .empty
          "\x7b\x7b@if a:b()\x7d\x7d\n\x7b\x7b@a:b()\x7d\x7d\n\x7b\x7b@end\x7d\x7d\n\x7b\x7b@c:d()\x7d\x7d".toList)
          "\x7b\x7b@if a:b()\x7d\x7d\n\x7b\x7b@a:b()\x7d\x7d\n\x7b\x7b@end\x7d\x7d\n\x7b\x7b@c:d()\x7d\x7d".toList)).filterMap
            fun p => p.expression.call? := by
  refine calls_resolveSections (d := .empty) ?_ ?_
  · decide +kernel
  · rw [← List.all_eq_true]
    decide +kernel

/-- A mark in an argument of a call that is never closed: without the line of the mark, the call is
closed. -/
theorem resolveSections_forms_call :
    resolveSections .empty
        "\x7b\x7b @doc.a:get(\n' \x7b\x7b @end \x7d\x7d\n'x') \x7d\x7d".toList =
          .ok "\x7b\x7b @doc.a:get(\n'x') \x7d\x7d".toList ∧
      calls "\x7b\x7b @doc.a:get(\n'x') \x7d\x7d".toList =
        [⟨['a'], "get".toList, ["'x'".toList]⟩] ∧
      calls "\x7b\x7b @doc.a:get(\n' \x7b\x7b @end \x7d\x7d\n'x') \x7d\x7d".toList = [] := by
  refine ⟨?_, ?_, ?_⟩ <;> decide +kernel

end Marginalia.Template
