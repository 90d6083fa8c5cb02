import Marginalia.Proofs.Comment.Closing
import Marginalia.Proofs.Tag.Grammar
import Marginalia.Proofs.Tag.Trimmed

/-!
# Lines of contents and tags

Gutters, delimiters and blanks are cut off line by line, and only empty lines above and below are
cut off as lines. Those above are counted, so each line of the content of a comment is a piece of
the source line with its number, and a tag stands on the line that its number says.
-/

namespace Marginalia

open Text

namespace Text

/-- The line of a text with a number. Numbers count from one. -/
def line? (t : Text) : Nat → Option Text
  | 0 => none
  | n + 1 => (lines t)[n]?

/-- What stands in a list of one is the first and only one. -/
theorem eq_of_getElem?_singleton {α : Type} {i : Nat} {k l : α} (h : [k][i]? = some l) :
    i = 0 ∧ k = l := by
  cases i with
  | zero => exact ⟨rfl, Option.some.inj h⟩
  | succ i => cases h

/-- The lines of trimmed lines that are trimmed as a whole are these lines from the first that is
not empty on, if there is such a line. -/
theorem getElem?_of_getElem?_lines_trim {ls : List Text} (hls : ∀ l ∈ ls, IsTrimmed l ∧ '\n' ∉ l)
    (hne : ∃ l ∈ ls, l ≠ []) {i : Nat} {l : Text} (h : (lines (trim (unlines ls)))[i]? = some l) :
    ls[(ls.takeWhile fun l => l.isEmpty).length + i]? = some l := by
  obtain ⟨below, hbelow⟩ := lines_trim_unlines_prefix hls hne
  let blank := (ls.takeWhile fun l => l.isEmpty).length
  have hsplit : ls = (ls.takeWhile fun l => l.isEmpty) ++ (ls.dropWhile fun l => l.isEmpty) :=
    List.takeWhile_append_dropWhile.symm
  have hi : i < (lines (trim (unlines ls))).length := (List.getElem?_eq_some_iff.mp h).1
  calc ls[blank + i]?
      = ((ls.takeWhile fun l => l.isEmpty) ++ (ls.dropWhile fun l => l.isEmpty))[blank + i]? :=
        congrArg (·[blank + i]?) hsplit
    _ = (ls.dropWhile fun l => l.isEmpty)[i]? := by
        rw [List.getElem?_append_right (Nat.le_add_right blank i), Nat.add_sub_cancel_left]
    _ = some l := by rw [← hbelow, List.getElem?_append_left hi, h]

/-- Lines that are all empty are trimmed to nothing as a whole. -/
theorem trim_unlines_eq_nil {ls : List Text} (h : ∀ l ∈ ls, l = []) : trim (unlines ls) = [] := by
  have hdrop : (ls.dropWhile fun l => l.isEmpty) = [] :=
    List.dropWhile_eq_nil_iff.mpr fun l hl => by simp [h l hl]
  rw [← trim_unlines_dropWhile, hdrop]
  rfl

end Text

namespace Comment

variable {style : Style} {n : Nat} {line : Text} {below : List Text} {o : Opening} {f : Fragment}

/-- Where a block opens, its text on a line is a piece of the line. -/
theorem exists_of_getElem?_behind (hbehind : o.behind <:+ line) {i : Nat} {body : Text}
    (h : (o.behind :: below)[i]? = some body) :
    ∃ s, (line :: below)[i]? = some s ∧ body <:+: s := by
  cases i with
  | zero =>
    obtain rfl := Option.some.inj h
    exact ⟨line, rfl, hbehind.isInfix⟩
  | succ i => exact ⟨body, h, List.infix_refl body⟩

/-- The lines of a block without gutters and blanks at their ends. -/
def Opening.cleanBody (o : Opening) (below : List Text) : List Text :=
  (o.body below).map cleanLine

/-- A clean line of a block is a piece of the source line in its place. -/
theorem exists_of_getElem?_cleanBody (hbehind : o.behind <:+ line) {i : Nat} {l : Text}
    (h : (o.cleanBody below)[i]? = some l) :
    i < (o.body below).length ∧ ∃ s, (line :: below)[i]? = some s ∧ l <:+: s := by
  rw [Opening.cleanBody, List.getElem?_map] at h
  obtain ⟨body, hbody, rfl⟩ := Option.map_eq_some_iff.mp h
  obtain ⟨full, hfull, hfront⟩ := exists_prefix_of_getElem?_bodyLines hbody
  obtain ⟨s, hs, hpiece⟩ := exists_of_getElem?_behind hbehind hfull
  exact ⟨(List.getElem?_eq_some_iff.mp hbody).1, s, hs,
    (cleanLine_isInfix body).trans (hfront.isInfix.trans hpiece)⟩

/-- The content of a block starts on its first line that is not blank. -/
theorem contentLine_comment (o : Opening) (n : Nat) (line : Text) (below : List Text) :
    (o.comment n line below).contentLine =
      if ((o.cleanBody below).takeWhile fun l => l.isEmpty).length < (o.cleanBody below).length then
        n + ((o.cleanBody below).takeWhile fun l => l.isEmpty).length
      else n :=
  rfl

/-- Each line of the content of a block is a piece of the line with its number. -/
theorem exists_of_getElem?_content_comment (n : Nat) (hbehind : o.behind <:+ line)
    (hlines : ∀ l ∈ line :: below, '\n' ∉ l) {i : Nat} {l : Text}
    (h : (lines (o.comment n line below).content)[i]? = some l) :
    ∃ j s, (o.comment n line below).contentLine + i = n + j ∧
      n + j ≤ (o.comment n line below).endLine ∧ (line :: below)[j]? = some s ∧ l <:+: s := by
  have hend := endLine_comment_add_one o n hlines
  have hlength : (o.cleanBody below).length = (o.body below).length := List.length_map cleanLine
  have hclean : ∀ c ∈ o.cleanBody below, IsTrimmed c ∧ '\n' ∉ c := by
    intro c hc
    obtain ⟨body, -, rfl⟩ := List.mem_map.mp hc
    refine ⟨isTrimmed_cleanLine body, ?_⟩
    obtain ⟨j, hj⟩ := List.getElem?_of_mem hc
    obtain ⟨-, s, hs, hpiece⟩ := exists_of_getElem?_cleanBody hbehind hj
    exact fun hmem => hlines s (List.mem_of_getElem? hs) (hpiece.subset hmem)
  rw [contentLine_comment]
  by_cases hne : ∃ c ∈ o.cleanBody below, c ≠ []
  · have hl := getElem?_of_getElem?_lines_trim hclean hne h
    obtain ⟨hlt, s, hs, hpiece⟩ := exists_of_getElem?_cleanBody hbehind hl
    rw [if_pos (by omega)]
    exact ⟨_, s, Nat.add_assoc _ _ _, by omega, hs, hpiece⟩
  · -- No line is left of the content, which is on the line of the opening then.
    have hall : ∀ c ∈ o.cleanBody below, c = [] := fun c hc => by_contra fun h => hne ⟨c, hc, h⟩
    have hblank : ((o.cleanBody below).takeWhile fun c => c.isEmpty) = o.cleanBody below :=
      List.takeWhile_eq_self_iff.mpr fun c hc => by simp [hall c hc]
    have hnil : (o.comment n line below).content = [] := trim_unlines_eq_nil hall
    rw [hblank, if_neg (Nat.lt_irrefl _)]
    rw [hnil, lines_nil] at h
    obtain ⟨rfl, rfl⟩ := eq_of_getElem?_singleton h
    have hpos := (length_body_bounds o below).1
    exact ⟨0, line, rfl, by omega, rfl, List.nil_infix⟩

/-- The content of a line comment is a piece of the line, which is all that the comment holds. -/
theorem eq_of_lineComment? {kind : Kind} {marks : List Text}
    (h : lineComment? kind marks n line = some f) :
    f.raw = line ∧ f.line = n ∧ f.contentLine = n ∧ f.content <:+: line := by
  obtain ⟨mark, -, rest, -, hrest, rfl⟩ := exists_of_lineComment? h
  have hstart : rest <:+ trimStart line := hrest ▸ List.suffix_append mark rest
  exact ⟨rfl, rfl, rfl, (trim_isInfix rest).trans
    (hstart.isInfix.trans (List.dropWhile_suffix isBlank).isInfix)⟩

/-- The content of a line comment is one line, a piece of the line. -/
theorem exists_of_getElem?_content_lineComment {kind : Kind} {marks : List Text}
    (h : lineComment? kind marks n line = some f) (hlines : ∀ l ∈ line :: below, '\n' ∉ l) {i : Nat}
    {l : Text} (hl : (lines f.content)[i]? = some l) :
    ∃ j s, f.contentLine + i = n + j ∧ n + j ≤ f.endLine ∧ (line :: below)[j]? = some s ∧
      l <:+: s := by
  obtain ⟨-, hline, hcontentLine, hpiece⟩ := eq_of_lineComment? h
  have hnewline : '\n' ∉ f.content := fun hmem =>
    hlines line List.mem_cons_self (hpiece.subset hmem)
  rw [lines_eq_singleton hnewline] at hl
  obtain ⟨rfl, rfl⟩ := eq_of_getElem?_singleton hl
  exact ⟨0, line, by rw [hcontentLine], hline ▸ Nat.le_add_right f.line _, rfl, hpiece⟩

/-- Each line of the content of a comment is a piece of the line with its number, if lines are
numbered from the one on which it stands. -/
theorem Style.Yields.exists_of_getElem?_content (h : style.Yields n line below f)
    (hlines : ∀ l ∈ line :: below, '\n' ∉ l) {i : Nat} {l : Text}
    (hl : (lines f.content)[i]? = some l) :
    ∃ j s, f.contentLine + i = n + j ∧ n + j ≤ f.endLine ∧ (line :: below)[j]? = some s ∧
      l <:+: s := by
  cases h with
  | docLine h => exact exists_of_getElem?_content_lineComment h hlines hl
  | line h => exact exists_of_getElem?_content_lineComment h hlines hl
  | block h =>
    exact exists_of_getElem?_content_comment n (behind_suffix_of_firstOpening? h.opens) hlines hl

/-- No opening opens a line comment. -/
theorem isLine_of_firstOpening? (h : firstOpening? style line = some o) :
    o.kind.isLine = false := by
  rcases opening?_of_firstOpening? h with hplain | hdoc
  · rw [(eq_of_opening? hplain).1]
    rfl
  · rw [(eq_of_opening? hdoc).1]
    rfl

/-- A line comment of a source is one line. -/
theorem of_mem_fragments_of_isLine {t : Text} (hf : f ∈ fragments style t)
    (hkind : f.kind.isLine = true) :
    f.contentLine = f.line ∧ f.endLine = f.line ∧ '\n' ∉ f.content := by
  obtain ⟨above, line, below, hsource, -, hyields⟩ :=
    (yieldedIn_of_mem_readLines style (sourceLines t)).1 1 f hf
  have hnewline : '\n' ∉ line :=
    newline_notMem_of_sourceLines_eq hsource line List.mem_cons_self
  have hline {kind : Kind} {marks : List Text} {n : Nat}
      (h : lineComment? kind marks n line = some f) :
      f.contentLine = f.line ∧ f.endLine = f.line ∧ '\n' ∉ f.content := by
    obtain ⟨hraw, hnumber, hcontentLine, hpiece⟩ := eq_of_lineComment? h
    refine ⟨hcontentLine.trans hnumber.symm, ?_, fun hmem => hnewline (hpiece.subset hmem)⟩
    rw [Fragment.endLine, hraw, List.count_eq_zero.mpr hnewline, Nat.add_zero]
  cases hyields with
  | docLine h => exact hline h
  | line h => exact hline h
  | block h =>
    exact absurd (hkind.symm.trans (isLine_of_firstOpening? h.opens)) (by decide)

/-- Each line of the content of a comment is a piece of the source line with its number, which is at
most that of the last line of the comment. -/
theorem exists_of_getElem?_content {t : Text} (hf : f ∈ fragments style t) {i : Nat} {l : Text}
    (hl : (lines f.content)[i]? = some l) :
    f.contentLine + i ≤ f.endLine ∧ ∃ s, line? t (f.contentLine + i) = some s ∧ l <:+: s := by
  obtain ⟨above, line, below, hsource, -, hyields⟩ :=
    (yieldedIn_of_mem_readLines style (sourceLines t)).1 1 f hf
  obtain ⟨j, s, hnumber, hend, hs, hpiece⟩ :=
    hyields.exists_of_getElem?_content (newline_notMem_of_sourceLines_eq hsource) hl
  have hplace : (sourceLines t)[above.length + j]? = some s := by
    rw [hsource, List.getElem?_append_right (Nat.le_add_right _ j), Nat.add_sub_cancel_left, hs]
  rw [sourceLines, List.getElem?_map] at hplace
  obtain ⟨full, hfull, rfl⟩ := Option.map_eq_some_iff.mp hplace
  refine ⟨by omega, full, ?_, hpiece.trans (chomp_isPrefix full).isInfix⟩
  rw [hnumber, Nat.add_comm 1, Nat.add_right_comm]
  exact hfull

/-- Line numbers are right: each line of the content of a comment is a piece of the source line with
its number, and each tag is named on the source line with its number. -/
theorem contents_and_tags_stand_on_their_lines {t : Text} (hf : f ∈ fragments style t) :
    (∀ i l, (lines f.content)[i]? = some l →
        f.contentLine + i ≤ f.endLine ∧
          ∃ s, line? t (f.contentLine + i) = some s ∧ l <:+: s) ∧
      ∀ initTag, ∀ tag ∈ Tag.ofFragment initTag f,
        tag.line ≤ f.endLine ∧ ∃ s, line? t tag.line = some s ∧ '@' :: tag.name <:+: s := by
  refine ⟨fun i l hl => exists_of_getElem?_content hf hl, fun initTag tag htag => ?_⟩
  obtain ⟨i, l, hl, hline, hname⟩ := Tag.exists_of_mem_readLines htag
  obtain ⟨hend, s, hs, hpiece⟩ := exists_of_getElem?_content hf hl
  rw [hline]
  exact ⟨hend, s, hs, hname.trans hpiece⟩

/-- Of a block behind code that is not closed, the content starts on the third line, and its tags
stand on the third and the fifth. -/
theorem contents_and_tags_stand_on_their_lines_unclosed :
    let t := "x /**\n *\n *  @doc a\r\n\n * @t b".toList
    let f : Fragment :=
      ⟨"x /**\n *\n *  @doc a\n\n * @t b".toList, 1, 3, .docBlock, "@doc a\n\n@t b".toList, 3⟩
    f ∈ fragments .cLike t ∧ (Tag.ofFragment "doc".toList f).map Tag.line = [3, 5] ∧
      (∀ i l, (lines f.content)[i]? = some l →
        f.contentLine + i ≤ f.endLine ∧
          ∃ s, line? t (f.contentLine + i) = some s ∧ l <:+: s) ∧
      ∀ initTag, ∀ tag ∈ Tag.ofFragment initTag f,
        tag.line ≤ f.endLine ∧ ∃ s, line? t tag.line = some s ∧ '@' :: tag.name <:+: s := by
  intro t f
  have hf : f ∈ fragments .cLike t := by decide
  exact ⟨hf, by decide, contents_and_tags_stand_on_their_lines hf⟩

end Comment

end Marginalia
