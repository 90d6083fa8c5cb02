import Mathlib.Data.List.Forall2
import Marginalia.Proofs.Outcome
import Marginalia.Proofs.Template.WrittenCall

/-!
# Written lines

A line of a template is literal text with calls between. The scan reads the calls where they were
written and every other character for itself, because no two opening braces stand in the literal
text and one brace in front of a call opens nothing. So a text of such lines renders line by line.
-/

namespace Marginalia.Template

open Text

variable {d : Document}

/-- Literal text of a line. -/
structure Literal where
  text : Text
  newline_notMem : '\n' ∉ text
  no_opening : ¬ openingBraces <:+: text

/-- A call that is written on one line. -/
structure LineCall extends WrittenCall where
  newline_notMem : ∀ a ∈ arguments, '\n' ∉ a.value

/-- A line of a template: literal text, and calls each with the literal text behind it. -/
structure Line where
  head : Literal
  tail : List (LineCall × Literal)

/-- The expression that a call of a line is written as. -/
def LineCall.written (c : LineCall) : WrittenExpression :=
  .value c.toWrittenCall

/-- The text of calls and of the literal text behind each. -/
def tailText : List (LineCall × Literal) → Text
  | [] => []
  | (c, l) :: rest => c.written.source ++ (l.text ++ tailText rest)

/-- The text of a line as it is written. -/
def Line.text (l : Line) : Text :=
  l.head.text ++ tailText l.tail

/-- The pieces of calls and of the literal text behind each. -/
def tailPieces : List (LineCall × Literal) → List Piece
  | [] => []
  | (c, l) :: rest =>
    .expression c.written.source c.written.expression :: (l.text.map .char ++ tailPieces rest)

/-- The pieces of a line. -/
def Line.pieces (l : Line) : List Piece :=
  l.head.text.map .char ++ tailPieces l.tail

/-- The text of calls and of the literal text behind each, with the calls replaced by their values.
Of several failures the last one is reported. -/
def tailValue (d : Document) : List (LineCall × Literal) → Except Failure Text
  | [] => .ok []
  | (c, l) :: rest => do
    let behind ← tailValue d rest
    return (← c.value d) ++ (l.text ++ behind)

/-- A line with its calls replaced by their values. -/
def Line.value (d : Document) (l : Line) : Except Failure Text := do
  return l.head.text ++ (← tailValue d l.tail)

/-- Text without two opening braces is read character by character, unless such braces arise at its
end. -/
theorem pieces_append_of_no_opening {t rest : Text} (ht : ¬ openingBraces <:+: t)
    (hrest : candidate? ('\x7b' :: rest) = none) :
    pieces (t ++ rest) = t.map .char ++ pieces rest := by
  induction t with
  | nil => rfl
  | cons c t ih =>
    have hnone : candidate? (c :: (t ++ rest)) = none := by
      cases t with
      | nil =>
        by_cases hc : c = '\x7b'
        · rw [hc]
          exact hrest
        · exact candidate?_eq_none fun more h => hc (List.cons.inj h).1
      | cons b t =>
        refine candidate?_eq_none fun more h => ht ?_
        simp only [List.cons_append, List.cons.injEq] at h
        exact ⟨[], t, by simp [openingBraces, h.1, h.2.1]⟩
    have hlater : ¬ openingBraces <:+: t := fun h => ht (h.trans (List.suffix_cons c t).isInfix)
    rw [List.cons_append, pieces_cons hnone, ih hlater]
    rfl

/-- No candidate opens at a brace in front of calls, if none does in front of what follows. -/
theorem candidate?_brace_tailText_append (tail : List (LineCall × Literal)) {rest : Text}
    (hrest : candidate? ('\x7b' :: rest) = none) :
    candidate? ('\x7b' :: (tailText tail ++ rest)) = none := by
  cases tail with
  | nil => exact hrest
  | cons s tail =>
    have h := s.1.written.candidate?_brace_source_append (s.2.text ++ tailText tail ++ rest)
    simpa [tailText] using h

/-- Calls are read where they are written. -/
theorem pieces_tailText_append (tail : List (LineCall × Literal)) {rest : Text}
    (hrest : candidate? ('\x7b' :: rest) = none) :
    pieces (tailText tail ++ rest) = tailPieces tail ++ pieces rest := by
  induction tail with
  | nil => rfl
  | cons s tail ih =>
    rw [tailText, List.append_assoc, WrittenExpression.pieces_source_append, List.append_assoc,
      pieces_append_of_no_opening s.2.no_opening (candidate?_brace_tailText_append tail hrest), ih,
      tailPieces, List.cons_append, List.append_assoc]

/-- A line is read as its pieces. -/
theorem pieces_line_append (l : Line) {rest : Text} (hrest : candidate? ('\x7b' :: rest) = none) :
    pieces (l.text ++ rest) = l.pieces ++ pieces rest := by
  rw [Line.text, List.append_assoc,
    pieces_append_of_no_opening l.head.no_opening (candidate?_brace_tailText_append l.tail hrest),
    pieces_tailText_append l.tail hrest, Line.pieces, List.append_assoc]

/-- No candidate opens at a brace at the end of a line. -/
theorem candidate?_brace_newline (t : Text) : candidate? ('\x7b' :: '\n' :: t) = none :=
  candidate?_eq_none fun more h => by simp at h

/-- A line feed is a piece of its own. -/
theorem pieces_newline_cons (t : Text) : pieces ('\n' :: t) = .char '\n' :: pieces t :=
  pieces_cons (candidate?_eq_none fun more h => by simp at h)

/-- A line of text of a template: a line with calls, or a mark around a section. -/
inductive Row
  | line (l : Line)
  | opening (guard : LineCall)
  | closing

namespace Row

/-- The text of a row as it is written. -/
def text : Row → Text
  | line l => l.text
  | opening guard => (WrittenExpression.sectionStart guard.toWrittenCall).source
  | closing => WrittenExpression.sectionEnd.source

/-- The pieces of a row. -/
def pieces : Row → List Piece
  | line l => l.pieces
  | opening guard =>
    [.expression (WrittenExpression.sectionStart guard.toWrittenCall).source
      (.sectionStart guard.call)]
  | closing => [.expression WrittenExpression.sectionEnd.source .sectionEnd]

end Row

/-- A line feed that is no part of a text is none of it with backslashes. -/
theorem newline_notMem_escape {t : Text} (ht : '\n' ∉ t) : '\n' ∉ escape t := by
  induction t with
  | nil => exact ht
  | cons c t ih =>
    rw [List.mem_cons, not_or] at ht
    have hrest := ih ht.2
    rw [escape]
    split <;> simp [hrest, ht.1]

/-- Written arguments that hold no line feed stand on one line. -/
theorem newline_notMem_joinArguments {as : List Argument} (has : ∀ a ∈ as, '\n' ∉ a.value) :
    '\n' ∉ joinArguments as := by
  have hsource (a : Argument) (ha : '\n' ∉ a.value) : '\n' ∉ a.source := by
    cases a with
    | bare word => exact ha
    | quoted string =>
      have hstring : '\n' ∉ escape string := newline_notMem_escape ha
      simp [Argument.source, hstring]
  induction as with
  | nil => simp [joinArguments]
  | cons a as ih =>
    obtain ⟨ha, hrest⟩ := List.forall_mem_cons.mp has
    cases as with
    | nil => simpa [joinArguments] using hsource a ha
    | cons b as => simp [joinArguments_cons_cons, hsource a ha, ih hrest]

/-- A call of a line stands on one line. -/
theorem LineCall.newline_notMem_text (c : LineCall) : '\n' ∉ c.text := by
  have hkey := c.prefixedKey.notMem (c := '\n') (by decide)
  have hmethod := c.method.notMem (c := '\n') (by decide)
  have harguments := newline_notMem_joinArguments c.newline_notMem
  rw [WrittenCall.prefixedKey] at hkey
  simp [WrittenCall.text, hkey, hmethod, harguments]

/-- An expression whose inside stands on one line stands on one line. -/
theorem WrittenExpression.newline_notMem_source {w : WrittenExpression} (h : '\n' ∉ w.inside) :
    '\n' ∉ w.source := by
  simp [WrittenExpression.source, openingBraces, closingBraces, h]

/-- Calls of a line stand on one line with the literal text behind each. -/
theorem newline_notMem_tailText (tail : List (LineCall × Literal)) : '\n' ∉ tailText tail := by
  induction tail with
  | nil => exact List.not_mem_nil
  | cons s tail ih =>
    have hcall : '\n' ∉ s.1.written.source :=
      WrittenExpression.newline_notMem_source s.1.newline_notMem_text
    simp [tailText, hcall, s.2.newline_notMem, ih]

/-- A row stands on one line. -/
theorem Row.newline_notMem_text (r : Row) : '\n' ∉ r.text := by
  cases r with
  | line l => simp [Row.text, Line.text, l.head.newline_notMem, newline_notMem_tailText]
  | opening guard =>
    refine WrittenExpression.newline_notMem_source ?_
    simp [WrittenExpression.inside, guard.newline_notMem_text]
  | closing => exact WrittenExpression.newline_notMem_source (by decide)

/-- A row is read as its pieces. -/
theorem pieces_row_append (r : Row) {rest : Text} (hrest : candidate? ('\x7b' :: rest) = none) :
    pieces (r.text ++ rest) = r.pieces ++ pieces rest := by
  cases r with
  | line l => exact pieces_line_append l hrest
  | opening guard => exact WrittenExpression.pieces_source_append _ rest
  | closing => exact WrittenExpression.pieces_source_append _ rest

/-- The pieces of a row are those of its text. -/
theorem pieces_row (r : Row) : pieces r.text = r.pieces := by
  have hend : candidate? ['\x7b'] = none := candidate?_eq_none fun more h => by simp at h
  have h := pieces_row_append r hend
  rwa [List.append_nil, pieces_nil, List.append_nil] at h

/-- Rows one below the other are read one after another. -/
theorem pieces_unlines (rows : List Row) :
    pieces (unlines (rows.map Row.text)) =
      List.intercalate [.char '\n'] (rows.map Row.pieces) := by
  induction rows with
  | nil => rfl
  | cons r rows ih =>
    by_cases hrows : rows = []
    · rw [hrows]
      simpa using pieces_row r
    · rw [List.map_cons, unlines_cons (by simpa using hrows),
        pieces_row_append r (candidate?_brace_newline _), pieces_newline_cons, ih, List.map_cons,
        List.intercalate_cons_of_ne_nil (by simpa using hrows)]
      simp

/-- What a piece stands for: the value of its call, or its own text. -/
def Piece.value (d : Document) : Piece → Except Failure Text
  | expression _ (.value call) => call.evaluate d
  | other => .ok other.source

/-- A piece is replaced after what follows it. -/
theorem splice_cons (p : Piece) (ps : List Piece) :
    splice d (p :: ps) = do
      let behind ← splice d ps
      return (← p.value d) ++ behind := by
  rw [splice]
  cases splice d ps with
  | error e => rfl
  | ok behind =>
    cases p with
    | char c => rfl
    | expression source e => cases e <;> rfl

/-- Of pieces one behind the other, the later part is replaced first. -/
theorem splice_append (ps qs : List Piece) :
    splice d (ps ++ qs) = do
      let behind ← splice d qs
      return (← splice d ps) ++ behind := by
  induction ps with
  | nil =>
    rw [List.nil_append]
    cases splice d qs <;> rfl
  | cons p ps ih =>
    rw [List.cons_append, splice_cons, ih, splice_cons]
    cases splice d qs with
    | error e => rfl
    | ok behind =>
      cases splice d ps with
      | error e => rfl
      | ok front =>
        cases p.value d with
        | error e => rfl
        | ok v => simp [bind, Except.bind, pure, Except.pure]

/-- Characters are left as they are. -/
theorem splice_map_char (t : Text) : splice d (t.map .char) = .ok t := by
  induction t with
  | nil => rfl
  | cons c t ih =>
    rw [List.map_cons, splice_cons, ih]
    rfl

/-- Calls with the literal text behind each have the value that their pieces have. -/
theorem splice_tailPieces (tail : List (LineCall × Literal)) :
    splice d (tailPieces tail) = tailValue d tail := by
  induction tail with
  | nil => rfl
  | cons s tail ih =>
    have hcall : (Piece.expression s.1.written.source s.1.written.expression).value d =
        s.1.value d := s.1.evaluate_call d
    rw [tailPieces, splice_cons, splice_append, splice_map_char, ih, hcall, tailValue]
    cases tailValue d tail <;> rfl

/-- A line has the value that its pieces have. -/
theorem splice_pieces_line (l : Line) : splice d l.pieces = l.value d := by
  rw [Line.pieces, splice_append, splice_tailPieces, splice_map_char, Line.value]
  cases tailValue d l.tail <;> rfl

/-- A line and what stands below it have values when both do. -/
theorem splice_line_append_eq_ok_iff {l : Line} {ps : List Piece} {out : Text} :
    splice d (l.pieces ++ .char '\n' :: ps) = .ok out ↔
      ∃ v below, l.value d = .ok v ∧ splice d ps = .ok below ∧ out = v ++ '\n' :: below := by
  have hbelow : splice d (.char '\n' :: ps) = (splice d ps).map ('\n' :: ·) := by
    rw [splice_cons]
    cases splice d ps <;> rfl
  rw [splice_append, splice_pieces_line, hbelow, bind_eq_ok_iff]
  constructor
  · intro h'
    obtain ⟨behind, hbehind, h⟩ := h'
    obtain ⟨below, hps, rfl⟩ := map_eq_ok_iff.mp hbehind
    obtain ⟨v, hv, h⟩ := bind_eq_ok_iff.mp h
    exact ⟨v, below, hv, hps, (pure_eq_ok_iff.mp h).symm⟩
  · intro h'
    obtain ⟨v, below, hv, hps, rfl⟩ := h'
    exact ⟨_, map_eq_ok_iff.mpr ⟨below, hps, rfl⟩, bind_eq_ok_iff.mpr ⟨v, hv, rfl⟩⟩

/-- Lines one below the other have values exactly when each line has, and these stand one below the
other. -/
theorem splice_intercalate_eq_ok_iff {ls : List Line} {out : Text} :
    splice d (List.intercalate [.char '\n'] (ls.map Line.pieces)) = .ok out ↔
      ∃ values, List.Forall₂ (fun l v => l.value d = .ok v) ls values ∧ out = unlines values := by
  induction ls generalizing out with
  | nil =>
    simp only [List.map_nil, List.intercalate_nil, splice, List.forall₂_nil_left_iff,
      exists_eq_left, unlines_nil, Except.ok.injEq, eq_comm]
  | cons l ls ih =>
    by_cases hls : ls = []
    · subst hls
      simp only [List.map_cons, List.map_nil, List.intercalate_singleton, splice_pieces_line]
      constructor
      · intro h
        exact ⟨[out], .cons h .nil, (unlines_singleton out).symm⟩
      · intro h'
        obtain ⟨values, hvalues, rfl⟩ := h'
        cases hvalues with
        | cons h hnil =>
          cases hnil
          rwa [unlines_singleton]
    · rw [List.map_cons, List.intercalate_cons_of_ne_nil (by simpa using hls), List.append_assoc,
        List.singleton_append, splice_line_append_eq_ok_iff]
      constructor
      · intro h'
        obtain ⟨v, below, hv, hbelow, rfl⟩ := h'
        obtain ⟨values, hvalues, rfl⟩ := ih.mp hbelow
        have hne : values ≠ [] := by
          intro heq
          subst heq
          exact hls (List.forall₂_nil_right_iff.mp hvalues)
        exact ⟨v :: values, .cons hv hvalues, (unlines_cons hne v).symm⟩
      · intro h'
        obtain ⟨values, hvalues, rfl⟩ := h'
        cases hvalues with
        | @cons _ v _ values hv hvalues =>
          have hne : values ≠ [] := by
            intro heq
            subst heq
            exact hls (List.forall₂_nil_right_iff.mp hvalues)
          exact ⟨v, unlines values, hv, ih.mpr ⟨values, hvalues, rfl⟩, unlines_cons hne v⟩

end Marginalia.Template
