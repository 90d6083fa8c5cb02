import Marginalia.Proofs.Template.Lexeme
import Marginalia.Proofs.Text.Blank
import Marginalia.Template.Piece

/-!
# The scan of a template

A candidate is decided by its own text: where it stands, it is found whatever comes behind it. The
scan moves on by one character where no candidate opens and by a whole candidate where one does, and
every statement about the pieces of a text follows this course.
-/

namespace Marginalia.Template

open Text

/-- Two opening braces. -/
def openingBraces : Text :=
  ['\x7b', '\x7b']

/-- A text that starts with a character that is not blank behind blanks is those and the rest. -/
theorem eq_takeWhile_append_of_trimStart {t rest : Text} (h : trimStart t = rest) :
    t = t.takeWhile isBlank ++ rest := by
  rw [← h, trimStart, List.takeWhile_append_dropWhile]

/-- An at sign is not blank. -/
theorem isBlank_at : isBlank '@' = false := by decide

/-- The text of a candidate: two braces, blanks, an at sign, a body and the closing braces. -/
theorem candidate?_eq_some_iff {t : Text} {c : Candidate} :
    candidate? t = some c ↔
      ∃ blanks rest, (∀ b ∈ blanks, isBlank b = true) ∧ IsBody 0 c.inside ∧
        c.source = openingBraces ++ blanks ++ '@' :: c.inside ++ closingBraces ∧
        t = c.source ++ rest := by
  constructor
  · intro h
    unfold candidate? at h
    split at h
    · rename_i rest
      split at h
      · rename_i behind hbehind
        obtain ⟨inside, hinside, rfl⟩ := Option.map_eq_some_iff.mp h
        obtain ⟨more, hmore, hbody⟩ := bodyFrom_eq_some_iff.mp hinside
        have hrest := eq_takeWhile_append_of_trimStart hbehind
        refine ⟨rest.takeWhile isBlank, more, fun b hb => List.mem_takeWhile_imp hb, hbody, rfl, ?_⟩
        conv =>
          lhs
          rw [hrest, hmore]
        simp
      · cases h
    · cases h
  · intro h'
    obtain ⟨blanks, rest, hblanks, hbody, hsource, rfl⟩ := h'
    have htrim : trimStart (blanks ++ '@' :: (c.inside ++ closingBraces ++ rest)) =
        '@' :: (c.inside ++ closingBraces ++ rest) := trimStart_append hblanks isBlank_at _
    have htake : (blanks ++ '@' :: (c.inside ++ closingBraces ++ rest)).takeWhile isBlank =
        blanks := by
      rw [List.takeWhile_append_of_pos hblanks, List.takeWhile_cons_of_neg (by simp [isBlank_at]),
        List.append_nil]
    have hinside : body? (c.inside ++ closingBraces ++ rest) = some c.inside := hbody rest
    have ht : c.source ++ rest = '\x7b' :: '\x7b' ::
        (blanks ++ '@' :: (c.inside ++ closingBraces ++ rest)) := by
      simp [hsource, openingBraces]
    rw [ht, candidate?, htrim]
    simp only [hinside, htake, Option.map_some, Option.some.injEq]
    cases c
    simpa [openingBraces] using hsource.symm

/-- A candidate is found whatever follows it. -/
theorem candidate?_append {t : Text} {c : Candidate} (h : candidate? t = some c) (u : Text) :
    candidate? (c.source ++ u) = some c := by
  obtain ⟨blanks, rest, hblanks, hbody, hsource, -⟩ := candidate?_eq_some_iff.mp h
  exact candidate?_eq_some_iff.mpr ⟨blanks, u, hblanks, hbody, hsource, rfl⟩

/-- A text that a candidate opens is the candidate and what follows it. -/
theorem exists_append_of_candidate? {t : Text} {c : Candidate} (h : candidate? t = some c) :
    ∃ rest, t = c.source ++ rest := by
  obtain ⟨-, rest, -, -, -, ht⟩ := candidate?_eq_some_iff.mp h
  exact ⟨rest, ht⟩

/-- A candidate ends with a brace. -/
theorem exists_source_eq_of_candidate? {t : Text} {c : Candidate} (h : candidate? t = some c) :
    ∃ front, c.source = front ++ ['\x7d'] := by
  obtain ⟨blanks, rest, -, -, hsource, -⟩ := candidate?_eq_some_iff.mp h
  exact ⟨openingBraces ++ blanks ++ '@' :: c.inside ++ ['\x7d'], by simp [hsource, closingBraces]⟩

/-- A candidate is not empty. -/
theorem source_ne_nil_of_candidate? {t : Text} {c : Candidate} (h : candidate? t = some c) :
    c.source ≠ [] := by
  obtain ⟨front, hfront⟩ := exists_source_eq_of_candidate? h
  simp [hfront]

/-- No candidate opens where no two opening braces stand. -/
theorem candidate?_eq_none {t : Text} (h : ∀ rest, t ≠ '\x7b' :: '\x7b' :: rest) :
    candidate? t = none := by
  unfold candidate?
  split
  · exact absurd rfl (h _)
  · rfl

/-- No candidate opens where no at sign stands behind the blanks behind two opening braces. -/
theorem candidate?_openingBraces_eq_none {t : Text} (h : ∀ behind, trimStart t ≠ '@' :: behind) :
    candidate? (openingBraces ++ t) = none := by
  rw [openingBraces, List.cons_append, List.cons_append, List.nil_append, candidate?]
  split
  · rename_i behind hbehind
    exact absurd hbehind (h behind)
  · rfl

/-- No candidate opens at a brace in front of two opening braces. -/
theorem candidate?_brace_openingBraces (t : Text) :
    candidate? ('\x7b' :: (openingBraces ++ t)) = none := by
  refine candidate?_openingBraces_eq_none (t := '\x7b' :: t) fun behind hbehind => ?_
  rw [trimStart_cons (by decide)] at hbehind
  cases hbehind

@[simp] theorem candidate?_nil : candidate? [] = none := rfl

/-- Characters that belong to a piece already are passed over. -/
theorem piecesFrom_eq_pieces_drop (skip : Nat) (t : Text) :
    piecesFrom skip t = pieces (t.drop skip) := by
  induction t generalizing skip with
  | nil => simp [pieces, piecesFrom]
  | cons c t ih =>
    cases skip with
    | zero => rfl
    | succ skip => rw [piecesFrom, ih, List.drop_succ_cons]

@[simp] theorem pieces_nil : pieces [] = [] := rfl

/-- Where no candidate opens, the first character is a piece. -/
theorem pieces_cons {c : Char} {t : Text} (h : candidate? (c :: t) = none) :
    pieces (c :: t) = .char c :: pieces t := by
  rw [pieces, piecesFrom, h]
  rfl

/-- Where a candidate opens, the pieces are its own and those of what follows it. -/
theorem pieces_append {c : Candidate} {t : Text} (h : candidate? (c.source ++ t) = some c) :
    pieces (c.source ++ t) = c.pieces ++ pieces t := by
  obtain ⟨a, source, hsource⟩ := List.exists_cons_of_ne_nil (source_ne_nil_of_candidate? h)
  rw [hsource, List.cons_append] at h ⊢
  rw [pieces, piecesFrom, h]
  simp [piecesFrom_eq_pieces_drop, hsource]

/-- An expression whose inside ends where its closing braces stand is one piece. -/
theorem pieces_expression_append {blanks inside : Text} {e : Expression}
    (hblanks : ∀ b ∈ blanks, isBlank b = true) (hbody : IsBody 0 inside)
    (hparse : Expression.parse inside = .ok e) (t : Text) :
    pieces (openingBraces ++ blanks ++ '@' :: inside ++ closingBraces ++ t) =
      .expression (openingBraces ++ blanks ++ '@' :: inside ++ closingBraces) e :: pieces t := by
  generalize hsource : openingBraces ++ blanks ++ '@' :: inside ++ closingBraces = source
  have hcandidate : candidate? (source ++ t) = some ⟨inside, source⟩ :=
    candidate?_eq_some_iff.mpr ⟨blanks, t, hblanks, hbody, hsource.symm, rfl⟩
  have hpieces := pieces_append (c := ⟨inside, source⟩) hcandidate
  rw [Candidate.pieces, hparse] at hpieces
  exact hpieces

/-- Induction along the scan of a text: character by character where no candidate opens, and
candidate by candidate. -/
theorem scan_induction {motive : Text → Prop} (nil : motive [])
    (char : ∀ c t, candidate? (c :: t) = none → motive t → motive (c :: t))
    (candidate : ∀ (c : Candidate) (t : Text), candidate? (c.source ++ t) = some c → motive t →
      motive (c.source ++ t)) (t : Text) : motive t := by
  induction hn : t.length using Nat.strong_induction_on generalizing t with
  | _ n ih =>
    cases h : candidate? t with
    | none =>
      cases t with
      | nil => exact nil
      | cons c t => exact char c t h (ih t.length (by simp [← hn]) t rfl)
    | some c =>
      obtain ⟨rest, rfl⟩ := exists_append_of_candidate? h
      have hpos := List.length_pos_iff.mpr (source_ne_nil_of_candidate? h)
      have hlt : rest.length < n := by
        rw [← hn, List.length_append]
        omega
      exact candidate c rest h (ih rest.length hlt rest rfl)

/-- Characters that are pieces make up their text. -/
theorem flatMap_source_map_char (t : Text) : (t.map Piece.char).flatMap Piece.source = t := by
  rw [List.flatMap_map]
  exact List.flatMap_singleton' t

/-- The pieces of a candidate make up its text. -/
theorem flatMap_source_candidate (c : Candidate) : c.pieces.flatMap Piece.source = c.source := by
  unfold Candidate.pieces
  split
  · simp [Piece.source]
  · exact flatMap_source_map_char c.source

/-- The pieces of a text make it up. -/
theorem flatMap_source_pieces (t : Text) : (pieces t).flatMap Piece.source = t := by
  induction t using scan_induction with
  | nil => rfl
  | char c t h ih => rw [pieces_cons h, List.flatMap_cons, ih, Piece.source, List.singleton_append]
  | candidate c t h ih => rw [pieces_append h, List.flatMap_append, flatMap_source_candidate, ih]

end Marginalia.Template
