import Marginalia.Proofs.Template.Piece
import Marginalia.Proofs.Text.Slice

/-!
# The spans of expressions

The search for expressions looks for the next two opening braces with an at sign behind them. If
these are never closed it goes on right behind the two braces; if they are, it goes on behind the
closing braces, whether or not what is between is an expression. However often it starts again,
it ends, and it finds the expressions of the pieces of the text: at offsets between characters, one
behind the other, each with a text that is that expression also when it stands alone.
-/

namespace Marginalia.Template

open Text

variable {offset : Nat} {t u : Text} {ps : List Placed} {p : Placed}

/-- Whether two opening braces, blanks and an at sign stand at the start of a text. -/
def isOpening : Text → Bool
  | '\x7b' :: '\x7b' :: rest => (trimStart rest).head? == some '@'
  | _ => false

/-- The text in front of the next place where an expression may open, and the text from there on. -/
def nextOpening? : Text → Option (Text × Text)
  | [] => none
  | c :: rest =>
    if isOpening (c :: rest) then some ([], c :: rest)
    else (nextOpening? rest).map fun (front, behind) => (c :: front, behind)

/-- The search for expressions in a text that starts at an offset, with what it finds. -/
inductive Search : Nat → Text → List Placed → Prop
  /-- No expression opens any more. -/
  | ended {offset : Nat} {t : Text} (hopening : nextOpening? t = none) : Search offset t []
  /-- Braces that are never closed: the search goes on behind the two of them. -/
  | unclosed {offset : Nat} {t front rest : Text} {ps : List Placed}
    (hopening : nextOpening? t = some (front, openingBraces ++ rest))
    (hnone : candidate? (openingBraces ++ rest) = none)
    (hrest : Search (offset + byteLength (front ++ openingBraces)) rest ps) : Search offset t ps
  /-- Braces around what is no expression: the search goes on behind the closing ones. -/
  | dropped {offset : Nat} {t front rest : Text} {c : Candidate} {e : Failure} {ps : List Placed}
    (hopening : nextOpening? t = some (front, c.source ++ rest))
    (hsome : candidate? (c.source ++ rest) = some c) (hparse : Expression.parse c.inside = .error e)
    (hrest : Search (offset + byteLength (front ++ c.source)) rest ps) : Search offset t ps
  /-- Braces around an expression. -/
  | found {offset : Nat} {t front rest : Text} {c : Candidate} {e : Expression} {ps : List Placed}
    (hopening : nextOpening? t = some (front, c.source ++ rest))
    (hsome : candidate? (c.source ++ rest) = some c) (hparse : Expression.parse c.inside = .ok e)
    (hrest : Search (offset + byteLength (front ++ c.source)) rest ps) :
    Search offset t
      (⟨e, offset + byteLength front, offset + byteLength (front ++ c.source)⟩ :: ps)

/-- No candidate stands where no expression opens. -/
theorem candidate?_of_isOpening_eq_false (h : isOpening t = false) : candidate? t = none := by
  unfold candidate?
  split
  · rename_i rest
    split
    · rename_i behind hbehind
      rw [isOpening, hbehind] at h
      cases h
    · rfl
  · rfl

/-- The next opening is behind the text in front of it, and no candidate stands before. -/
theorem pieces_of_nextOpening? {front : Text} (h : nextOpening? t = some (front, u)) :
    t = front ++ u ∧ isOpening u = true ∧ pieces t = front.map .char ++ pieces u := by
  induction t generalizing front with
  | nil => cases h
  | cons c t ih =>
    rw [nextOpening?] at h
    split at h
    · rename_i hopening
      cases h
      exact ⟨rfl, hopening, rfl⟩
    · rename_i hopening
      obtain ⟨⟨front', u'⟩, hnext, hmap⟩ := Option.map_eq_some_iff.mp h
      cases hmap
      obtain ⟨rfl, hu, hpieces⟩ := ih hnext
      refine ⟨rfl, hu, ?_⟩
      have hnone := candidate?_of_isOpening_eq_false (Bool.eq_false_iff.mpr hopening)
      rw [pieces_cons hnone, hpieces]
      rfl

/-- Where no expression opens any more, all characters are pieces. -/
theorem pieces_of_nextOpening?_eq_none (h : nextOpening? t = none) : pieces t = t.map .char := by
  induction t with
  | nil => rfl
  | cons c t ih =>
    rw [nextOpening?] at h
    split at h
    · cases h
    · rename_i hopening
      have hnone := candidate?_of_isOpening_eq_false (Bool.eq_false_iff.mpr hopening)
      rw [pieces_cons hnone, ih (Option.map_eq_none_iff.mp h)]
      rfl

/-- An expression opens with two braces, and none opens at the second of them. -/
theorem exists_of_isOpening (h : isOpening t = true) :
    ∃ rest, t = openingBraces ++ rest ∧ isOpening ('\x7b' :: rest) = false := by
  unfold isOpening at h
  split at h
  · rename_i rest
    refine ⟨rest, rfl, ?_⟩
    rw [Bool.eq_false_iff]
    intro hsecond
    unfold isOpening at hsecond
    split at hsecond
    · rename_i behind heq
      obtain ⟨-, rfl⟩ := List.cons.inj heq
      rw [trimStart_cons (by decide)] at h
      cases h
    · cases hsecond
  · cases h

/-- Two opening braces that are never closed are two characters. -/
theorem pieces_of_unclosed (h : isOpening (openingBraces ++ t) = true)
    (hnone : candidate? (openingBraces ++ t) = none) :
    pieces (openingBraces ++ t) = openingBraces.map .char ++ pieces t := by
  obtain ⟨rest, hrest, hsecond⟩ := exists_of_isOpening h
  obtain rfl := List.append_cancel_left hrest
  rw [openingBraces, List.cons_append] at hnone ⊢
  rw [pieces_cons hnone, List.singleton_append,
    pieces_cons (candidate?_of_isOpening_eq_false hsecond)]
  rfl

/-- Expressions behind other pieces are placed behind those. -/
theorem placedFrom_append (offset : Nat) (ps qs : List Piece) :
    placedFrom offset (ps ++ qs) =
      placedFrom offset ps ++ placedFrom (offset + byteLength (ps.flatMap Piece.source)) qs := by
  induction ps generalizing offset with
  | nil => simp [placedFrom]
  | cons p ps ih =>
    cases p with
    | char c =>
      rw [List.cons_append, placedFrom, placedFrom, ih, List.flatMap_cons, byteLength_append,
        Nat.add_assoc]
      rfl
    | expression source e =>
      rw [List.cons_append, placedFrom, placedFrom, ih, List.flatMap_cons, byteLength_append,
        Nat.add_assoc, List.cons_append]
      rfl

/-- Characters are no expressions. -/
theorem placedFrom_map_char (offset : Nat) (t : Text) : placedFrom offset (t.map .char) = [] := by
  induction t generalizing offset with
  | nil => rfl
  | cons c t ih => exact ih _

/-- Expressions behind characters are placed behind those. -/
theorem placedFrom_map_char_append (offset : Nat) (t : Text) (qs : List Piece) :
    placedFrom offset (t.map .char ++ qs) = placedFrom (offset + byteLength t) qs := by
  rw [placedFrom_append, placedFrom_map_char, flatMap_source_map_char, List.nil_append]

/-- What a search finds are the expressions of the pieces of the text. -/
theorem Search.eq_placedFrom (h : Search offset t ps) : ps = placedFrom offset (pieces t) := by
  induction h with
  | ended hopening => rw [pieces_of_nextOpening?_eq_none hopening, placedFrom_map_char]
  | unclosed hopening hnone hrest ih =>
    obtain ⟨-, hopen, hpieces⟩ := pieces_of_nextOpening? hopening
    rw [hpieces, pieces_of_unclosed hopen hnone, placedFrom_map_char_append,
      placedFrom_map_char_append, ih, byteLength_append, Nat.add_assoc]
  | dropped hopening hsome hparse hrest ih =>
    obtain ⟨-, -, hpieces⟩ := pieces_of_nextOpening? hopening
    rw [hpieces, pieces_append hsome, Candidate.pieces, hparse, placedFrom_map_char_append]
    simp only
    rw [placedFrom_map_char_append, ih, byteLength_append, Nat.add_assoc]
  | found hopening hsome hparse hrest ih =>
    obtain ⟨-, -, hpieces⟩ := pieces_of_nextOpening? hopening
    rw [hpieces, pieces_append hsome, Candidate.pieces, hparse, placedFrom_map_char_append]
    simp only
    rw [List.singleton_append, placedFrom, ih, byteLength_append, Nat.add_assoc]

/-- Every search ends: wherever it starts again, less text is left. -/
theorem exists_search (offset : Nat) (t : Text) : ∃ ps, Search offset t ps := by
  induction hn : t.length using Nat.strong_induction_on generalizing offset t with
  | _ n ih =>
    cases hopening : nextOpening? t with
    | none => exact ⟨[], .ended hopening⟩
    | some found =>
      obtain ⟨front, u⟩ := found
      obtain ⟨rfl, hopen, -⟩ := pieces_of_nextOpening? hopening
      rw [List.length_append] at hn
      cases hsome : candidate? u with
      | none =>
        obtain ⟨rest, rfl, -⟩ := exists_of_isOpening hopen
        have hlt : rest.length < n := by
          rw [List.length_append, openingBraces, List.length_cons] at hn
          omega
        obtain ⟨ps, hps⟩ := ih rest.length hlt _ rest rfl
        exact ⟨ps, .unclosed hopening hsome hps⟩
      | some c =>
        obtain ⟨rest, rfl⟩ := exists_append_of_candidate? hsome
        have hpos := List.length_pos_iff.mpr (source_ne_nil_of_candidate? hsome)
        have hlt : rest.length < n := by
          rw [List.length_append] at hn
          omega
        obtain ⟨ps, hps⟩ := ih rest.length hlt _ rest rfl
        cases hparse : Expression.parse c.inside with
        | error e => exact ⟨ps, .dropped hopening hsome hparse hps⟩
        | ok e => exact ⟨_, .found hopening hsome hparse hps⟩

/-- A search ends, with the expressions of the pieces of the text and with nothing else. -/
theorem search_iff : Search offset t ps ↔ ps = placedFrom offset (pieces t) := by
  refine ⟨Search.eq_placedFrom, fun h => ?_⟩
  obtain ⟨qs, hqs⟩ := exists_search offset t
  rw [h, ← hqs.eq_placedFrom]
  exact hqs

/-- An expression among the pieces of a text is the candidate that its own text opens. -/
theorem exists_candidate_of_mem_pieces {source : Text} {e : Expression}
    (h : Piece.expression source e ∈ pieces t) :
    ∃ c, candidate? source = some c ∧ c.source = source ∧ Expression.parse c.inside = .ok e := by
  induction t using scan_induction with
  | nil => cases h
  | char c t hnone ih =>
    rw [pieces_cons hnone] at h
    exact ih (by simpa using h)
  | candidate c t hsome ih =>
    rw [pieces_append hsome, List.mem_append] at h
    rcases h with h | h
    · unfold Candidate.pieces at h
      split at h
      · rename_i e' hparse
        obtain ⟨rfl, rfl⟩ : source = c.source ∧ e = e' := by simpa using h
        have halone := candidate?_append hsome []
        rw [List.append_nil] at halone
        exact ⟨c, halone, rfl, hparse⟩
      · simp at h
    · exact ih h

/-- An expression stands behind the text of the pieces before it. -/
theorem exists_of_mem_placedFrom {front : Text} {qs : List Piece}
    (h : p ∈ placedFrom (byteLength front) qs) :
    ∃ before source behind, qs = before ++ .expression source p.expression :: behind ∧
      p.start = byteLength (front ++ before.flatMap Piece.source) ∧
      p.stop = byteLength (front ++ before.flatMap Piece.source ++ source) := by
  induction qs generalizing front with
  | nil => cases h
  | cons q qs ih =>
    have hnext (h : p ∈ placedFrom (byteLength (front ++ q.source)) qs) :
        ∃ before source behind, q :: qs = before ++ .expression source p.expression :: behind ∧
          p.start = byteLength (front ++ before.flatMap Piece.source) ∧
          p.stop = byteLength (front ++ before.flatMap Piece.source ++ source) := by
      obtain ⟨before, source, behind, rfl, hstart, hstop⟩ := ih h
      exact ⟨q :: before, source, behind, rfl, by simpa using hstart, by simpa using hstop⟩
    rw [byteLength_append] at hnext
    cases q with
    | char c => exact hnext h
    | expression source e =>
      rw [placedFrom] at h
      rcases List.mem_cons.mp h with rfl | h
      · exact ⟨[], source, qs, rfl, by simp, by simp⟩
      · exact hnext h

/-- A text is cut at an expression into what is before it, its own text and what is behind it. -/
theorem exists_append_of_mem_expressions (h : p ∈ expressions t) :
    ∃ front source rest, t = front ++ (source ++ rest) ∧
      Piece.expression source p.expression ∈ pieces t ∧
      p.start = byteLength front ∧ p.stop = byteLength (front ++ source) := by
  have hplaced : p ∈ placedFrom (byteLength []) (pieces t) := h
  obtain ⟨before, source, behind, hpieces, hstart, hstop⟩ := exists_of_mem_placedFrom hplaced
  refine ⟨before.flatMap Piece.source, source, behind.flatMap Piece.source, ?_, ?_, hstart, hstop⟩
  · have ht := flatMap_source_pieces t
    rw [hpieces, List.flatMap_append, List.flatMap_cons] at ht
    exact ht.symm
  · rw [hpieces]
    exact List.mem_append_right before List.mem_cons_self

/-- An expression is longer than its first character. -/
theorem byteLength_pos_of_mem_pieces {source : Text} {e : Expression}
    (h : Piece.expression source e ∈ pieces t) : 0 < byteLength source := by
  obtain ⟨c, hsome, rfl, -⟩ := exists_candidate_of_mem_pieces h
  obtain ⟨a, rest, hsource⟩ := List.exists_cons_of_ne_nil (source_ne_nil_of_candidate? hsome)
  have hpos := a.utf8Size_pos
  rw [hsource, byteLength_cons]
  omega

/-- Expressions start no earlier than their pieces. -/
theorem le_start_of_mem_placedFrom {qs : List Piece} (h : p ∈ placedFrom offset qs) :
    offset ≤ p.start := by
  induction qs generalizing offset with
  | nil => cases h
  | cons q qs ih =>
    cases q with
    | char c => exact Nat.le_trans (Nat.le_add_right _ _) (ih h)
    | expression source e =>
      rw [placedFrom] at h
      rcases List.mem_cons.mp h with rfl | h
      · exact Nat.le_refl _
      · exact Nat.le_trans (Nat.le_add_right _ _) (ih h)

/-- Expressions start no earlier than those before them end. -/
theorem pairwise_placedFrom (offset : Nat) (qs : List Piece) :
    (placedFrom offset qs).Pairwise fun p q => p.stop ≤ q.start := by
  induction qs generalizing offset with
  | nil => exact List.Pairwise.nil
  | cons q qs ih =>
    cases q with
    | char c => exact ih _
    | expression source e =>
      exact List.pairwise_cons.mpr ⟨fun p hp => le_start_of_mem_placedFrom hp, ih _⟩

/-- An expression of a template ends behind its start. -/
theorem start_lt_stop_of_mem_expressions (h : p ∈ expressions t) : p.start < p.stop := by
  obtain ⟨front, source, rest, -, hmem, hstart, hstop⟩ := exists_append_of_mem_expressions h
  have hpos := byteLength_pos_of_mem_pieces hmem
  rw [hstart, hstop, byteLength_append]
  omega

/-- The text of an expression, standing alone, is that expression. -/
theorem expressions_source_of_mem_pieces {source : Text} {e : Expression}
    (h : Piece.expression source e ∈ pieces t) :
    expressions source = [⟨e, 0, byteLength source⟩] := by
  obtain ⟨c, hsome, rfl, hparse⟩ := exists_candidate_of_mem_pieces h
  have hpieces := pieces_append (t := []) (by rwa [List.append_nil])
  rw [List.append_nil, pieces_nil, List.append_nil, Candidate.pieces, hparse] at hpieces
  rw [expressions, hpieces]
  simp only
  rw [placedFrom, placedFrom, Nat.zero_add]

/-- What it takes for an expression to be where a text is said to hold it. -/
structure Placed.IsSound (t : Text) (p : Placed) : Prop where
  /-- The span is not empty. -/
  start_lt_stop : p.start < p.stop
  /-- The span lies within the text. -/
  stop_le : p.stop ≤ byteLength t
  /-- The span starts between two characters. -/
  isBoundary_start : IsBoundary t p.start
  /-- The span stops between two characters. -/
  isBoundary_stop : IsBoundary t p.stop
  /-- Two braces, blanks, an at sign, a body that writes the expression, and two braces stand there. -/
  exists_slice_eq : ∃ blanks inside, (∀ b ∈ blanks, isBlank b = true) ∧
    slice t p.start p.stop = openingBraces ++ blanks ++ '@' :: inside ++ closingBraces ∧
    Expression.parse inside = .ok p.expression
  /-- The text of the span alone is the expression. -/
  expressions_slice : expressions (slice t p.start p.stop) = [⟨p.expression, 0, p.stop - p.start⟩]

/-- Every expression of a text is where the text is said to hold it. -/
theorem isSound_of_mem_expressions (h : p ∈ expressions t) : p.IsSound t := by
  have hlt := start_lt_stop_of_mem_expressions h
  obtain ⟨front, source, rest, rfl, hmem, hstart, hstop⟩ := exists_append_of_mem_expressions h
  have hslice : slice (front ++ (source ++ rest)) p.start p.stop = source := by
    rw [hstart, hstop, slice_append]
  have hsize : p.stop - p.start = byteLength source := by
    rw [hstart, hstop, byteLength_append, Nat.add_sub_cancel_left]
  refine ⟨hlt, ?_, ?_, ?_, ?_, ?_⟩
  · rw [hstop, ← List.append_assoc, byteLength_append (front ++ source)]
    exact Nat.le_add_right _ _
  · rw [hstart]
    exact isBoundary_append _ _
  · rw [hstop, ← List.append_assoc]
    exact isBoundary_append _ _
  · obtain ⟨c, hsome, hsource, hparse⟩ := exists_candidate_of_mem_pieces hmem
    obtain ⟨blanks, -, hblanks, -, hwritten, -⟩ := candidate?_eq_some_iff.mp hsome
    exact ⟨blanks, c.inside, hblanks, by rw [hslice, ← hsource, hwritten], hparse⟩
  · rw [hslice, hsize]
    exact expressions_source_of_mem_pieces hmem

/-- The search for expressions ends in every text. Their spans stand one behind the other in the
text, start and stop between characters, and hold what is read there, which is read alone just so.
-/
theorem expressions_are_sound (t : Text) :
    (∀ ps, Search 0 t ps ↔ ps = expressions t) ∧
      ((expressions t).Pairwise fun p q =>
        p.start < q.start ∧ p.stop < q.stop ∧ p.stop ≤ q.start) ∧
      ∀ p ∈ expressions t, p.IsSound t := by
  refine ⟨fun ps => search_iff, ?_, fun p hp => isSound_of_mem_expressions hp⟩
  refine (pairwise_placedFrom 0 (pieces t)).imp_of_mem fun hp hq hpq => ?_
  have hp' := start_lt_stop_of_mem_expressions hp
  have hq' := start_lt_stop_of_mem_expressions hq
  omega

end Marginalia.Template
