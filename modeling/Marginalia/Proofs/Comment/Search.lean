import Marginalia.Proofs.Comment.Closing

/-!
# Blocks end at the first closing delimiter

A block is read line by line, and each line is searched for the closing delimiter on its own. With a
delimiter without line feeds this finds what a search of the whole source behind the opening finds:
the block ends where the delimiter occurs first and, if it does not occur, where the source ends.
The content is what is before that place, line by line without gutters, and never holds the
delimiter.
-/

namespace Marginalia.Comment

open Text

/-- What is left of a text without the gutters and the blanks of its lines. -/
def cleanText (t : Text) : Text :=
  trim (unlines ((lines t).map cleanLine))

/-- The source behind an opening with `k` lines above: the rest of the line, and the lines below. -/
def Opening.source (o : Opening) (t : Text) (k : Nat) : Text :=
  unlines (o.behind :: (sourceLines t).drop (k + 1))

/-- Whether reading a text opens a block on the line with `k` lines above, behind which no other
block is open. -/
structure Style.OpensBlock (style : Style) (t : Text) (k : Nat) (o : Opening) : Prop where
  outside : openAfter style 1 none ((sourceLines t).take k) = none
  starts : ∃ line, (sourceLines t)[k]? = some line ∧ style.StartsBlock (k + 1) line o

/-- Whether a comment is what a search of the whole source behind an opening finds: it ends with the
line on which the closing delimiter occurs first, and reading goes on below, or it ends with the
source and is the last comment. -/
structure Opening.FindsEnd (style : Style) (t : Text) (k : Nat) (o : Opening) (f : Fragment) :
    Prop where
  kind_eq : f.kind = o.kind
  line_eq : f.line = k + 1
  column_eq : f.column = byteLength o.before + 1
  closed : o.delimiters.closing <:+: o.source t k →
    ∃ before, IsBeforeFirst o.delimiters.closing (o.source t k) before ∧
      f.content = cleanText before ∧ f.endLine = f.line + before.count '\n' ∧
      fragments style t = readLines style 1 none ((sourceLines t).take k) ++
        f :: readLines style (f.endLine + 1) none ((sourceLines t).drop f.endLine)
  unclosed : ¬ o.delimiters.closing <:+: o.source t k →
    f.content = cleanText (o.source t k) ∧ f.endLine = (lines t).length ∧
      fragments style t = readLines style 1 none ((sourceLines t).take k) ++ [f]
  content_free : ¬ o.delimiters.closing <:+: f.content

section

variable {style : Style} {t line closing : Text} {ls : List Text} {k : Nat} {o : Opening}
  {f : Fragment}

/-- The closing delimiter occurs first in lines behind those of the block. -/
theorem isBeforeFirst_bodyLines (hclosing : closing ≠ []) (hnewline : '\n' ∉ closing)
    (h : ∃ l ∈ ls, closing <:+: l) :
    IsBeforeFirst closing (unlines ls) (unlines (bodyLines closing ls)) := by
  induction ls with
  | nil =>
    obtain ⟨l, hl, -⟩ := h
    cases hl
  | cons l ls ih =>
    cases hclose : closeLine? closing l with
    | some last =>
      have hfirst := isBeforeFirst_of_closeLine? hclose
      rw [bodyLines_of_closes hclose, unlines_singleton]
      by_cases hls : ls = []
      · rwa [hls, unlines_singleton]
      · rw [unlines_cons hls]
        exact hfirst.append _
    | none =>
      have hl := not_isInfix_of_closeLine? hclosing hclose
      obtain ⟨m, hm, hpiece⟩ := h
      rcases List.mem_cons.mp hm with rfl | hm
      · exact absurd hpiece hl
      · obtain ⟨next, more, rfl⟩ := List.exists_cons_of_ne_nil (List.ne_nil_of_mem hm)
        rw [bodyLines_of_not_closes hclose, unlines_cons (bodyLines_ne_nil closing next more),
          unlines_cons (List.cons_ne_nil next more)]
        exact (ih ⟨m, hm, hpiece⟩).below hnewline hl

/-- Where the closing delimiter does not occur, all lines belong to the block. -/
theorem bodyLines_eq_self (h : ∀ l ∈ ls, ¬ closing <:+: l) : bodyLines closing ls = ls := by
  induction ls with
  | nil => rfl
  | cons l ls ih =>
    obtain ⟨hl, hrest⟩ := List.forall_mem_cons.mp h
    rw [bodyLines_of_not_closes (closeLine?_eq_none hl), ih hrest]

/-- The lines of a block do not hold the closing delimiter. -/
theorem not_isInfix_of_mem_bodyLines (hclosing : closing ≠ []) (ls : List Text) :
    ∀ l ∈ bodyLines closing ls, ¬ closing <:+: l := by
  induction ls with
  | nil => exact fun l hl => absurd hl List.not_mem_nil
  | cons l ls ih =>
    cases hclose : closeLine? closing l with
    | some last =>
      rw [bodyLines_of_closes hclose]
      exact List.forall_mem_singleton.mpr
        ((isBeforeFirst_of_closeLine? hclose).not_isInfix hclosing)
    | none =>
      rw [bodyLines_of_not_closes hclose]
      exact List.forall_mem_cons.mpr ⟨not_isInfix_of_closeLine? hclosing hclose, ih⟩

/-- The lines of a block hold no line feed. -/
theorem newline_notMem_body (below : List Text) (hlines : ∀ l ∈ o.behind :: below, '\n' ∉ l) :
    ∀ l ∈ o.body below, '\n' ∉ l := by
  intro l hl
  obtain ⟨i, hi⟩ := List.getElem?_of_mem hl
  obtain ⟨m, hm, hfront⟩ := exists_prefix_of_getElem?_bodyLines hi
  exact fun hmem => hlines m (List.mem_of_getElem? hm) (hfront.subset hmem)

/-- The content of a block is what is left of the text of its lines. -/
theorem content_comment_eq (n : Nat) (below : List Text)
    (hlines : ∀ l ∈ o.behind :: below, '\n' ∉ l) :
    (o.comment n line below).content = cleanText (unlines (o.body below)) := by
  rw [content_comment, cleanText,
    lines_unlines (body_ne_nil o below) (newline_notMem_body below hlines)]

/-- The content of a block does not hold its closing delimiter. -/
theorem not_isInfix_content_comment (n : Nat) (below : List Text)
    (hclosing : o.delimiters.closing ≠ []) (hnewline : '\n' ∉ o.delimiters.closing) :
    ¬ o.delimiters.closing <:+: (o.comment n line below).content := by
  intro hpiece
  rw [content_comment] at hpiece
  have hne : (o.body below).map cleanLine ≠ [] := by simpa using body_ne_nil o below
  obtain ⟨clean, hclean, hheld⟩ :=
    (isInfix_unlines_iff hnewline hne).mp (hpiece.trans (trim_isInfix _))
  obtain ⟨l, hl, rfl⟩ := List.mem_map.mp hclean
  exact not_isInfix_of_mem_bodyLines hclosing _ l hl (hheld.trans (cleanLine_isInfix l))

/-- The line on which a block opens stands between the lines above and those below. -/
theorem Style.OpensBlock.exists_sourceLines (h : style.OpensBlock t k o) :
    ∃ above line below, above.length = k ∧ sourceLines t = above ++ line :: below ∧
      openAfter style 1 none above = none ∧ style.StartsBlock (k + 1) line o := by
  obtain ⟨line, hline, hstarts⟩ := h.starts
  obtain ⟨hk, rfl⟩ := List.getElem?_eq_some_iff.mp hline
  refine ⟨_, _, (sourceLines t).drop (k + 1), List.length_take_of_le hk.le, ?_, h.outside, hstarts⟩
  rw [← List.drop_eq_getElem_cons, List.take_append_drop]

/-- The comment of a block on source lines ends with the last of its lines. -/
theorem endLine_comment (o : Opening) {above below : List Text}
    (hsource : sourceLines t = above ++ line :: below) :
    (o.comment (above.length + 1) line below).endLine = above.length + (o.body below).length := by
  have hlast := endLine_comment_add_one o (above.length + 1)
    (newline_notMem_of_sourceLines_eq hsource)
  omega

/-- Behind the comment of a block on source lines, reading goes on below its last line. -/
theorem fragments_eq_of_startsBlock {above below : List Text}
    (hstarts : style.StartsBlock (above.length + 1) line o)
    (hsource : sourceLines t = above ++ line :: below)
    (hnone : openAfter style 1 none above = none)
    (hf : o.comment (above.length + 1) line below = f) :
    fragments style t = readLines style 1 none above ++
      f :: readLines style (f.endLine + 1) none ((sourceLines t).drop f.endLine) := by
  have hread := readLines_append style 1 none (line :: below) hnone
  rw [← hsource, Nat.add_comm 1, hstarts.readLines, hf] at hread
  have hend := endLine_comment o hsource
  rw [hf] at hend
  have hdrop : (sourceLines t).drop f.endLine = (line :: below).drop (o.body below).length := by
    rw [hend, ← List.drop_drop, hsource, List.drop_left]
  rw [fragments, hread, hdrop, hend, Nat.add_right_comm]

/-- Behind an opening, reading line by line finds the end that a search of the whole source finds.
-/
theorem findsEnd_comment {above below : List Text}
    (hstarts : style.StartsBlock (above.length + 1) line o)
    (hsource : sourceLines t = above ++ line :: below) (hnone : openAfter style 1 none above = none)
    (hclosing : o.delimiters.closing ≠ []) (hnewline : '\n' ∉ o.delimiters.closing) :
    o.FindsEnd style t above.length (o.comment (above.length + 1) line below) := by
  have htake : (sourceLines t).take above.length = above := by rw [hsource, List.take_left]
  have hbehind : o.source t above.length = unlines (o.behind :: below) := by
    rw [Opening.source, hsource, ← List.drop_drop, List.drop_left, List.drop_one, List.tail_cons]
  have hlines : ∀ l ∈ o.behind :: below, '\n' ∉ l := by
    obtain ⟨hline, hbelow⟩ :=
      List.forall_mem_cons.mp (newline_notMem_of_sourceLines_eq hsource)
    refine List.forall_mem_cons.mpr ⟨fun hmem => hline ?_, hbelow⟩
    exact (behind_suffix_of_firstOpening? hstarts.opens).subset hmem
  have hend := endLine_comment o hsource
  have hread := fragments_eq_of_startsBlock hstarts hsource hnone rfl
  refine ⟨rfl, rfl, rfl, ?_, ?_,
    not_isInfix_content_comment (above.length + 1) below hclosing hnewline⟩
  · intro hoccurs
    rw [hbehind] at hoccurs ⊢
    rw [isInfix_unlines_iff hnewline (List.cons_ne_nil _ _)] at hoccurs
    have hcount := count_newline_unlines (body_ne_nil o below) (newline_notMem_body below hlines)
    refine ⟨unlines (o.body below), isBeforeFirst_bodyLines hclosing hnewline hoccurs,
      content_comment_eq (above.length + 1) below hlines, ?_, ?_⟩
    · rw [hend, line_comment]
      omega
    · rw [htake]
      exact hread
  · intro hfree
    rw [hbehind] at hfree ⊢
    rw [isInfix_unlines_iff hnewline (List.cons_ne_nil _ _)] at hfree
    have hall : o.body below = o.behind :: below :=
      bodyLines_eq_self fun l hl hpiece => hfree ⟨l, hl, hpiece⟩
    have hlast : (o.comment (above.length + 1) line below).endLine = (sourceLines t).length := by
      rw [hend, hall, hsource, List.length_append, List.length_cons, List.length_cons]
    refine ⟨?_, ?_, ?_⟩
    · rw [content_comment_eq (above.length + 1) below hlines, hall]
    · rw [hlast, sourceLines, List.length_map]
    · rw [hread, htake, hlast, List.drop_length]
      rfl

end

/-- Every block ends where a search of the whole source behind its opening finds the closing
delimiter first, and every comment that is no line comment is such a block. -/
theorem blocks_end_at_first_closing (style : Style) (t : Text) :
    (∀ k o, style.OpensBlock t k o → o.delimiters.closing ≠ [] → '\n' ∉ o.delimiters.closing →
        ∃ f, o.FindsEnd style t k f) ∧
      ∀ f ∈ fragments style t, f.kind.isLine = false →
        ∃ k o, style.OpensBlock t k o ∧ f.kind = o.kind ∧ f.line = k + 1 ∧
          f.column = byteLength o.before + 1 ∧
          (o.delimiters.closing ≠ [] → '\n' ∉ o.delimiters.closing → o.FindsEnd style t k f) := by
  constructor
  · intro k o h hclosing hnewline
    obtain ⟨above, line, below, rfl, hsource, hnone, hstarts⟩ := h.exists_sourceLines
    exact ⟨_, findsEnd_comment hstarts hsource hnone hclosing hnewline⟩
  · intro f hf hkind
    obtain ⟨above, line, below, hsource, hnone, hyields⟩ :=
      (yieldedIn_of_mem_readLines style (sourceLines t)).1 1 f hf
    rw [Nat.add_comm] at hyields
    cases hyields with
    | docLine h =>
      obtain ⟨mark, -, rest, -, -, rfl⟩ := exists_of_lineComment? h
      cases hkind
    | line h =>
      obtain ⟨mark, -, rest, -, -, rfl⟩ := exists_of_lineComment? h
      cases hkind
    | block hstarts =>
      rename_i o
      refine ⟨above.length, o, ⟨?_, line, ?_, hstarts⟩, rfl, rfl, rfl,
        findsEnd_comment hstarts hsource hnone⟩
      · rw [hsource, List.take_left, hnone]
      · rw [hsource, List.getElem?_append_right (Nat.le_refl _), Nat.sub_self]
        rfl

/-- A slash behind the opening does not close a block, the gutter of its last line is cut off with
the delimiter, and behind the delimiter nothing opens on that line. -/
theorem blocks_end_at_first_closing_slashes :
    let t := "a /*/ b\n * c\n *//* d\n// e".toList
    let o : Opening := ⟨.block, ⟨"/*".toList, "*/".toList⟩, "a ".toList, "/ b".toList⟩
    let f : Fragment :=
      ⟨"a /*/ b\n * c\n *//* d".toList, 1, 3, .block, "/ b\nc".toList, 1⟩
    (Style.cLike.OpensBlock t 0 o ∧ o.delimiters.closing ≠ [] ∧ '\n' ∉ o.delimiters.closing ∧
        ∃ g, o.FindsEnd .cLike t 0 g) ∧
      f ∈ fragments .cLike t ∧ f.kind.isLine = false ∧
        ∃ k o, Style.cLike.OpensBlock t k o ∧ f.kind = o.kind ∧ f.line = k + 1 ∧
          f.column = byteLength o.before + 1 ∧
          (o.delimiters.closing ≠ [] → '\n' ∉ o.delimiters.closing → o.FindsEnd .cLike t k f) := by
  intro t o f
  have hopens : Style.cLike.OpensBlock t 0 o :=
    ⟨rfl, "a /*/ b".toList, rfl, ⟨by decide, by decide, rfl⟩⟩
  have hne : o.delimiters.closing ≠ [] := by decide
  have hnewline : '\n' ∉ o.delimiters.closing := by decide
  have hf : f ∈ fragments .cLike t := by decide
  have hkind : f.kind.isLine = false := rfl
  obtain ⟨hends, hopened⟩ := blocks_end_at_first_closing .cLike t
  exact ⟨⟨hopens, hne, hnewline, hends 0 o hopens hne hnewline⟩, hf, hkind, hopened f hf hkind⟩

end Marginalia.Comment
