import Marginalia.Comment.Fragment

/-!
# What a line opens

Outside of comments a line is passed over, is a line comment or starts a block. A line comment is
the whole line, and a block starts behind the opening delimiter, from where its line is read into it
like any line below.
-/

namespace Marginalia.Comment

open Text

variable {style : Style} {kind : Kind} {n : Nat} {line : Text} {o : Opening} {f : Fragment}

/-- A line comment is a line with a mark behind the blanks at its start; its content is what is
behind the mark. -/
theorem exists_of_lineComment? {marks : List Text} (h : lineComment? kind marks n line = some f) :
    ∃ mark ∈ marks, ∃ rest, mark ≠ [] ∧ trimStart line = mark ++ rest ∧
      f = ⟨line, n, byteLength line - byteLength (trimStart line) + 1, kind, trim rest, n⟩ := by
  obtain ⟨mark, hmark, hfound⟩ := List.exists_of_findSome?_eq_some h
  obtain ⟨rest, hrest, rfl⟩ := Option.map_eq_some_iff.mp hfound
  obtain ⟨hmark, hne⟩ := List.mem_filter.mp hmark
  exact ⟨mark, hmark, rest, by simpa using hne, after?_eq_some_iff.mp hrest, rfl⟩

/-- Where delimiters open a block, the line is what is before and behind their opening. -/
theorem eq_of_opening? {delimiters : Option Delimiters} (h : opening? kind delimiters line = some o) :
    o.kind = kind ∧ delimiters = some o.delimiters ∧ o.delimiters.opening ≠ [] ∧
      line = o.before ++ o.delimiters.opening ++ o.behind := by
  obtain ⟨d, hd, hcut⟩ := Option.bind_eq_some_iff.mp h
  obtain ⟨⟨before, behind⟩, hfound, ho⟩ := Option.bind_eq_some_iff.mp hcut
  obtain rfl := Option.some.inj ho
  obtain ⟨hd, hne⟩ := Option.filter_eq_some_iff.mp hd
  exact ⟨rfl, hd, by simpa using hne, eq_of_cut?_eq_some hfound⟩

/-- The block that a line opens first is a plain one or one of documentation. -/
theorem opening?_of_firstOpening? (h : firstOpening? style line = some o) :
    opening? .block style.block line = some o ∨
      opening? .docBlock style.docBlock line = some o := by
  rw [firstOpening?] at h
  cases hplain : opening? .block style.block line with
  | none =>
    rw [hplain] at h
    exact .inr (Option.filter_eq_some_iff.mp h).1
  | some p =>
    rw [hplain] at h
    cases hdoc : (opening? .docBlock style.docBlock line).filter fun o =>
        !startsEmptyBlock style (o.delimiters.opening ++ o.behind) with
    | none =>
      rw [hdoc] at h
      exact .inl h
    | some d =>
      rw [hdoc] at h
      dsimp only at h
      split at h
      · exact .inr (h ▸ (Option.filter_eq_some_iff.mp hdoc).1)
      · exact .inl h

/-- What is behind the first opening of a line ends the line. -/
theorem behind_suffix_of_firstOpening? (h : firstOpening? style line = some o) :
    o.behind <:+ line := by
  have hline : line = o.before ++ o.delimiters.opening ++ o.behind := by
    rcases opening?_of_firstOpening? h with hplain | hdoc
    · exact (eq_of_opening? hplain).2.2.2
    · exact (eq_of_opening? hdoc).2.2.2
  rw [hline]
  exact List.suffix_append _ _

/-- Whether a line is no line comment and opens a block. -/
structure Style.StartsBlock (style : Style) (n : Nat) (line : Text) (o : Opening) : Prop where
  no_docLine : lineComment? .docLine style.docLine n line = none
  no_line : lineComment? .line style.line n line = none
  opens : firstOpening? style line = some o

/-- What reading a line into an open block makes of it: the comment that ends on the line, or the
block that is open behind it. -/
def OpenBlock.read (b : OpenBlock) (source body : Text) : Option Fragment × Option OpenBlock :=
  (b.push source body).elim (fun f => (some f, none)) fun c => (none, some c)

/-- A line in an open block is read into it. -/
theorem readLine_some (style : Style) (n : Nat) (b : OpenBlock) (line : Text) :
    readLine style n (some b) line = b.read line line := by
  rw [readLine, OpenBlock.read]
  cases b.push line line <;> rfl

/-- Of a line that starts a block, what is behind the opening is read into it. -/
theorem Style.StartsBlock.readLine_eq (h : style.StartsBlock n line o) :
    readLine style n none line = (o.start n).read line o.behind := by
  rw [readLine, h.no_docLine, h.no_line, Option.orElse_eq_orElse, Option.orElse_eq_or,
    Option.none_or, h.opens, OpenBlock.read]
  dsimp only
  cases (o.start n).push line o.behind <;> rfl

/-- A line outside of comments is passed over, is a line comment or starts a block. -/
theorem readLine_none_cases (style : Style) (n : Nat) (line : Text) :
    readLine style n none line = (none, none) ∨
      (∃ f, (lineComment? .docLine style.docLine n line = some f ∨
          lineComment? .line style.line n line = some f) ∧
        readLine style n none line = (some f, none)) ∨
      ∃ o, style.StartsBlock n line o := by
  cases hdoc : lineComment? .docLine style.docLine n line with
  | some f =>
    refine .inr (.inl ⟨f, .inl rfl, ?_⟩)
    rw [readLine, hdoc]
    rfl
  | none =>
    cases hline : lineComment? .line style.line n line with
    | some f =>
      refine .inr (.inl ⟨f, .inr rfl, ?_⟩)
      rw [readLine, hdoc, hline]
      rfl
    | none =>
      cases hfirst : firstOpening? style line with
      | some o => exact .inr (.inr ⟨o, hdoc, hline, hfirst⟩)
      | none =>
        refine .inl ?_
        rw [readLine, hdoc, hline, hfirst]
        rfl

end Marginalia.Comment
