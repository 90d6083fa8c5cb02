import Marginalia.Proofs.Comment.Below
import Marginalia.Proofs.Comment.Opening

/-!
# Comments as slices of their source

The lines of a source are cut into runs that make one comment each and lines between them that hold
none. What a run makes depends on its own lines only and, for the place of the comment, on the
number of the first. So the comments of a text are disjoint slices of it, in their order, and each
is the only comment of its own lines.

While a block is open, the run since its opening carries this: its lines are those of the block, and
to read them and then others is to read the others into the block.
-/

namespace Marginalia.Comment

open Text

/-- The marks that open the comments of a kind. -/
def Style.openers (style : Style) : Kind → List Text
  | .line => style.line
  | .docLine => style.docLine
  | .block => style.block.toList.map Delimiters.opening
  | .docBlock => style.docBlock.toList.map Delimiters.opening

/-- Whether a mark that is not empty opens a comment of a kind at a column of a line. Columns count
bytes from one. -/
def Style.OpensAt (style : Style) (kind : Kind) (column : Nat) (line : Text) : Prop :=
  ∃ mark ∈ style.openers kind, mark ≠ [] ∧
    ∃ front rest, line = front ++ mark ++ rest ∧ column = byteLength front + 1

/-- A run of lines, from line `n` on, makes one comment: it opens on the first line and holds all of
them. -/
structure MakesComment (style : Style) (n : Nat) (run : List Text) (f : Fragment) : Prop where
  raw_eq : f.raw = unlines run
  line_eq : f.line = n
  opens : ∃ first more, run = first :: more ∧ style.OpensAt f.kind f.column first
  readLines_eq : readLines style n none run = [f]

/-- A run of lines, from line `n` on, opens a block on its first line and leaves it open. -/
structure LeavesOpen (style : Style) (n : Nat) (run : List Text) (b : OpenBlock) : Prop where
  raw_eq : b.raw = run
  line_eq : b.line = n
  opens : ∃ first more, run = first :: more ∧ style.OpensAt b.kind b.column first
  readLines_eq : ∀ ls, readLines style n none (run ++ ls) =
    readLines style (n + run.length) (some b) ls

/-- Lines, from line `n` on, cut into runs that make comments and lines between them that hold
none. -/
inductive CutInto (style : Style) : Nat → List Text → List Fragment → Prop
  | nil (n : Nat) : CutInto style n [] []
  | skip {n : Nat} {l : Text} {ls : List Text} {fs : List Fragment}
      (hskip : readLine style n none l = (none, none)) (hrest : CutInto style (n + 1) ls fs) :
      CutInto style n (l :: ls) fs
  | comment {n : Nat} {run ls : List Text} {f : Fragment} {fs : List Fragment}
      (hcomment : MakesComment style n run f) (hrest : CutInto style (n + run.length) ls fs) :
      CutInto style n (run ++ ls) (f :: fs)

section

variable {style : Style} {n : Nat} {run ls : List Text} {line : Text} {f : Fragment}
  {b : OpenBlock}

/-- A line comment is the whole line, with its mark where the column says. -/
theorem opensAt_of_lineComment? {kind : Kind}
    (h : lineComment? kind (style.openers kind) n line = some f) :
    f.raw = line ∧ f.line = n ∧ style.OpensAt f.kind f.column line := by
  obtain ⟨mark, hmark, rest, hne, hrest, rfl⟩ := exists_of_lineComment? h
  have hline : line.takeWhile isBlank ++ trimStart line = line :=
    List.takeWhile_append_dropWhile
  refine ⟨rfl, rfl, mark, hmark, hne, line.takeWhile isBlank, rest, ?_, ?_⟩
  · rw [List.append_assoc, ← hrest, hline]
  · have hlength := congrArg byteLength hline
    rw [byteLength_append] at hlength
    change byteLength line - byteLength (trimStart line) + 1 = _
    omega

/-- Where delimiters open a block, their opening stands. -/
theorem opensAt_of_opening? {kind : Kind} {delimiters : Option Delimiters} {o : Opening}
    (hkind : style.openers kind = delimiters.toList.map Delimiters.opening)
    (h : opening? kind delimiters line = some o) :
    style.OpensAt o.kind (byteLength o.before + 1) line := by
  obtain ⟨rfl, hd, hne, hline⟩ := eq_of_opening? h
  have hmem : o.delimiters.opening ∈ style.openers o.kind := by
    rw [hkind]
    exact List.mem_map_of_mem (Option.mem_toList.mpr hd)
  exact ⟨o.delimiters.opening, hmem, hne, o.before, o.behind, hline, rfl⟩

/-- Where a line opens a block first, an opening of the kind stands. -/
theorem opensAt_of_firstOpening? {o : Opening} (h : firstOpening? style line = some o) :
    style.OpensAt o.kind (byteLength o.before + 1) line := by
  rcases opening?_of_firstOpening? h with hplain | hdoc
  · exact opensAt_of_opening? rfl hplain
  · exact opensAt_of_opening? rfl hdoc

/-- A line that is read into a block behind a run of lines, which are those of the block: with the
line, the run makes a comment or leaves the block open. -/
theorem readLine_push (b : OpenBlock) (bodyLine : Text) {pending : Option OpenBlock}
    (hraw : b.raw = run) (hline : b.line = n)
    (hopens : ∃ first more, run ++ [line] = first :: more ∧ style.OpensAt b.kind b.column first)
    (hrun : ∀ ls, readLines style n none (run ++ ls) =
      readLines style (n + run.length) pending ls)
    (hread : readLine style (n + run.length) pending line = b.read line bodyLine) :
    (∃ f, readLine style (n + run.length) pending line = (some f, none) ∧
        MakesComment style n (run ++ [line]) f) ∨
      ∃ c, readLine style (n + run.length) pending line = (none, some c) ∧
        LeavesOpen style n (run ++ [line]) c := by
  rw [OpenBlock.read, OpenBlock.push, hraw] at hread
  cases hclose : closeLine? b.closing bodyLine with
  | some last =>
    rw [hclose] at hread
    refine .inl ⟨_, hread, rfl, hline, hopens, ?_⟩
    rw [hrun, readLines_cons, hread]
    rfl
  | none =>
    rw [hclose] at hread
    refine .inr ⟨_, hread, rfl, hline, hopens, fun ls => ?_⟩
    rw [List.append_assoc, hrun, List.singleton_append, readLines_cons, hread, List.length_append,
      Nat.add_assoc]
    rfl

/-- A line outside of comments is passed over, makes a comment or opens a block. -/
theorem readLine_none (style : Style) (n : Nat) (line : Text) :
    readLine style n none line = (none, none) ∨
      (∃ f, readLine style n none line = (some f, none) ∧ MakesComment style n [line] f) ∨
      ∃ b, readLine style n none line = (none, some b) ∧ LeavesOpen style n [line] b := by
  rcases readLine_none_cases style n line with hskip | ⟨f, hcomment, hread⟩ | ⟨o, hstarts⟩
  · exact .inl hskip
  · have hf : f.raw = line ∧ f.line = n ∧ style.OpensAt f.kind f.column line := by
      rcases hcomment with hdoc | hplain
      · exact opensAt_of_lineComment? hdoc
      · exact opensAt_of_lineComment? hplain
    obtain ⟨hraw, hline, hopens⟩ := hf
    refine .inr (.inl ⟨f, hread, ?_, hline, ⟨line, [], rfl, hopens⟩, ?_⟩)
    · rw [hraw, unlines_singleton]
    · rw [readLines_cons, hread]
      rfl
  · have hopens := opensAt_of_firstOpening? hstarts.opens
    exact .inr (readLine_push (o.start n) o.behind rfl rfl ⟨line, [], rfl, hopens⟩
      (fun _ => rfl) hstarts.readLine_eq)

/-- A line behind a run that leaves a block open: with the line, the run makes a comment or leaves
the block open. -/
theorem LeavesOpen.readLine_some (h : LeavesOpen style n run b) (line : Text) :
    (∃ f, readLine style (n + run.length) (some b) line = (some f, none) ∧
        MakesComment style n (run ++ [line]) f) ∨
      ∃ c, readLine style (n + run.length) (some b) line = (none, some c) ∧
        LeavesOpen style n (run ++ [line]) c := by
  obtain ⟨first, more, hrun, hopens⟩ := h.opens
  exact readLine_push b line h.raw_eq h.line_eq
    ⟨first, more ++ [line], by rw [hrun, List.cons_append], hopens⟩ h.readLines_eq
    (Comment.readLine_some style (n + run.length) b line)

/-- A run that leaves a block open makes a comment where the lines end. -/
theorem LeavesOpen.finish (h : LeavesOpen style n run b) : MakesComment style n run b.finish := by
  refine ⟨congrArg unlines h.raw_eq, h.line_eq, h.opens, ?_⟩
  have hread := h.readLines_eq []
  rwa [List.append_nil] at hread

/-- Reading lines cuts them, be it outside of comments or behind a run that leaves a block open. -/
theorem cutInto_readLines (style : Style) (ls : List Text) :
    (∀ n, CutInto style n ls (readLines style n none ls)) ∧
      ∀ n run b, LeavesOpen style n run b →
        CutInto style n (run ++ ls) (readLines style (n + run.length) (some b) ls) := by
  induction ls with
  | nil => exact ⟨.nil, fun n run b h => .comment h.finish (.nil _)⟩
  | cons l ls ih =>
    obtain ⟨ihOutside, ihOpen⟩ := ih
    constructor
    · intro n
      rw [readLines_cons]
      rcases readLine_none style n l with hskip | ⟨f, hread, hmakes⟩ | ⟨b, hread, hleaves⟩
      · rw [hskip]
        exact .skip hskip (ihOutside (n + 1))
      · rw [hread]
        exact .comment hmakes (ihOutside (n + 1))
      · rw [hread]
        exact ihOpen n [l] b hleaves
    · intro n run b h
      rw [readLines_cons, List.append_cons]
      rcases h.readLine_some l with ⟨f, hread, hmakes⟩ | ⟨c, hread, hleaves⟩
      · rw [hread]
        have hrest := ihOutside (n + (run ++ [l]).length)
        rw [List.length_append, ← Nat.add_assoc] at hrest
        exact .comment hmakes (by rwa [List.length_append, ← Nat.add_assoc])
      · rw [hread]
        have hrest := ihOpen n (run ++ [l]) c hleaves
        rwa [List.length_append, ← Nat.add_assoc] at hrest

/-- A comment that lines make is made by a run of them. -/
theorem CutInto.exists_run {fs : List Fragment} (h : CutInto style n ls fs) (hf : f ∈ fs) :
    ∃ above run below, ls = above ++ run ++ below ∧
      MakesComment style (n + above.length) run f := by
  induction h with
  | nil n => cases hf
  | @skip n l ls fs _ _ ih =>
    obtain ⟨above, run, below, rfl, hrun⟩ := ih hf
    refine ⟨l :: above, run, below, rfl, ?_⟩
    rwa [List.length_cons, Nat.add_comm above.length, ← Nat.add_assoc]
  | @comment n run ls g fs hcomment _ ih =>
    rcases List.mem_cons.mp hf with rfl | hf
    · exact ⟨[], run, ls, rfl, hcomment⟩
    · obtain ⟨above, made, below, rfl, hmade⟩ := ih hf
      refine ⟨run ++ above, made, below, by simp, ?_⟩
      rwa [List.length_append, ← Nat.add_assoc]

/-- A comment ends on the last line of the run that makes it. -/
theorem MakesComment.endLine_add_one (h : MakesComment style n run f)
    (hrun : ∀ l ∈ run, '\n' ∉ l) : f.endLine + 1 = n + run.length := by
  obtain ⟨first, more, hne, -⟩ := h.opens
  have hcount := count_newline_unlines (by rw [hne]; exact List.cons_ne_nil _ _) hrun
  rw [Fragment.endLine, h.raw_eq, h.line_eq, Nat.add_assoc, hcount]

/-- The comments that lines make stand one below the other. -/
theorem CutInto.pairwise {fs : List Fragment} (h : CutInto style n ls fs)
    (hls : ∀ l ∈ ls, '\n' ∉ l) : fs.Pairwise fun f g => f.endLine < g.line := by
  induction h with
  | nil n => exact .nil
  | skip _ _ ih => exact ih fun l hl => hls l (List.mem_cons_of_mem _ hl)
  | @comment n run ls f fs hcomment hrest ih =>
    refine List.pairwise_cons.mpr ⟨?_, ih fun l hl => hls l (List.mem_append_right run hl)⟩
    intro g hg
    obtain ⟨above, made, below, -, hmade⟩ := hrest.exists_run hg
    have hend := hcomment.endLine_add_one fun l hl => hls l (List.mem_append_left ls hl)
    rw [hmade.line_eq]
    omega

/-- A comment that a run of lines makes is, further up, the only comment of these lines. -/
theorem MakesComment.fragments_raw {k : Nat} (h : MakesComment style (1 + k) run f)
    (hrun : ∀ l ∈ run, '\n' ∉ l ∧ chomp l = l) :
    ∃ g, fragments style f.raw = [g] ∧ g.line = 1 ∧ g.moveDown k = f := by
  obtain ⟨first, more, hne, -⟩ := h.opens
  have hsource : sourceLines f.raw = run := by
    rw [h.raw_eq]
    exact sourceLines_unlines (by rw [hne]; exact List.cons_ne_nil _ _) hrun
  have hmoved : (readLines style 1 none run).map (Fragment.moveDown k) = [f] := by
    rw [← readLines_add k style 1 none run]
    exact h.readLines_eq
  obtain ⟨g, hg, hdown⟩ := List.map_eq_singleton_iff.mp hmoved
  have hline : g.line + k = 1 + k := by
    rw [← h.line_eq, ← hdown]
    rfl
  exact ⟨g, by rw [fragments, hsource, hg], by omega, hdown⟩

end

/-- What a comment of a text is in the text: the lines from its first to its last, with an opener of
its kind at its column, and, further up, the only comment of these lines. -/
structure Fragment.IsSlice (style : Style) (t : Text) (f : Fragment) : Prop where
  one_le_line : 1 ≤ f.line
  endLine_le : f.endLine ≤ (lines t).length
  raw_eq : f.raw = unlines (((lines t).take f.endLine).drop (f.line - 1))
  opens : ∃ first, (lines f.raw).head? = some first ∧ style.OpensAt f.kind f.column first
  alone : ∃ g, fragments style f.raw = [g] ∧ g.line = 1 ∧ g.moveDown (f.line - 1) = f

/-- The comments of a text without carriage returns are slices of it, each above the next. -/
theorem fragments_are_slices (style : Style) {t : Text} (ht : '\r' ∉ t) :
    (∀ f ∈ fragments style t, f.IsSlice style t) ∧
      (fragments style t).Pairwise fun f g => f.endLine < g.line := by
  have hplain : ∀ l ∈ lines t, '\n' ∉ l ∧ chomp l = l := by
    intro l hl
    refine ⟨fun hc => (mem_of_mem_lines hl _ hc).2 rfl, ?_⟩
    rw [chomp, if_neg fun hlast => ht (mem_of_mem_lines hl _ (List.mem_of_getLast? hlast)).1]
  have hlines : sourceLines t = lines t :=
    (List.map_congr_left fun l hl => (hplain l hl).2).trans (List.map_id _)
  have hcut := (cutInto_readLines style (lines t)).1 1
  rw [fragments, hlines]
  refine ⟨?_, hcut.pairwise fun l hl => (hplain l hl).1⟩
  intro f hf
  obtain ⟨above, run, below, htext, hmakes⟩ := hcut.exists_run hf
  have hrun : ∀ l ∈ run, '\n' ∉ l ∧ chomp l = l := by
    intro l hl
    exact hplain l (by simp [htext, hl])
  obtain ⟨first, more, hfirst, hopens⟩ := hmakes.opens
  have hraw : lines f.raw = run := by
    rw [hmakes.raw_eq]
    exact lines_unlines (by rw [hfirst]; exact List.cons_ne_nil _ _) fun l hl => (hrun l hl).1
  have hline : f.line - 1 = above.length := by
    rw [hmakes.line_eq, Nat.add_sub_cancel_left]
  have hend : f.endLine = (above ++ run).length := by
    have hlast := hmakes.endLine_add_one fun l hl => (hrun l hl).1
    rw [List.length_append]
    omega
  exact {
    one_le_line := by
      rw [hmakes.line_eq]
      exact Nat.le_add_right 1 _
    endLine_le := by
      rw [hend, htext]
      exact (List.prefix_append (above ++ run) below).length_le
    raw_eq := by
      rw [hend, hline, htext, List.take_left, List.drop_left, hmakes.raw_eq]
    opens := ⟨first, by rw [hraw, hfirst, List.head?_cons], hopens⟩
    alone := by
      rw [hline]
      exact hmakes.fragments_raw hrun }

/-- Quotes that open and close blocks, number signs, and openers that are empty. -/
def quotedStyle : Style where
  line := [[], "#".toList]
  block := some ⟨"\"\"\"".toList, "\"\"\"".toList⟩
  docBlock := some ⟨[], []⟩

/-- A block over two lines, a line comment with quotes in it and a block that is open at the end are
three slices of their text. -/
theorem fragments_are_slices_openBlock :
    let t := "x \"\"\" a\n b \"\"\" y\n\n\t# c \"\"\"\n\"\"\" d\n".toList
    '\r' ∉ t ∧ (fragments quotedStyle t).map (fun f => (f.line, f.column, f.endLine)) =
        [(1, 3, 2), (4, 2, 4), (5, 1, 6)] ∧
      (∀ f ∈ fragments quotedStyle t, f.IsSlice quotedStyle t) ∧
        (fragments quotedStyle t).Pairwise fun f g => f.endLine < g.line := by
  intro t
  have ht : '\r' ∉ t := by decide
  exact ⟨ht, by decide, fragments_are_slices quotedStyle ht⟩

end Marginalia.Comment
