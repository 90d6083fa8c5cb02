import Marginalia.Proofs.Comment.Closing
import Marginalia.Proofs.Comment.DocLine

/-!
# Blocks with a gutter of stars

In the slash style, a documentation block is often written with a star in front of each line. The
block is one comment, and its content are the lines without the stars, as long as none of them
closes the block.
-/

namespace Marginalia.Comment

open Text

/-- A line of a comment that has no blanks at its ends and closes no block. -/
structure BodyLine where
  text : Text
  isTrimmed_text : IsTrimmed text
  newline_notMem : '\n' ∉ text
  no_closing : ¬ "*/".toList <:+: text

/-- A line without slashes closes no block. -/
def BodyLine.ofNoSlash (t : Text) (htrimmed : IsTrimmed t) (hnewline : '\n' ∉ t)
    (hslash : '/' ∉ t) : BodyLine :=
  ⟨t, htrimmed, hnewline, fun h => hslash (h.subset (by decide))⟩

/-- A line behind the star of a gutter. -/
def starLine (body : Text) : Text :=
  " * ".toList ++ body

/-- The lines of a documentation block with a gutter of stars. -/
def starBlock (bodies : List Text) : List Text :=
  "/**".toList :: bodies.map starLine ++ [" */".toList]

/-- The comment that a block with a gutter of stars on the first line is. -/
def starFragment (bodies : List Text) : Fragment where
  raw := unlines (starBlock bodies)
  line := 1
  column := 1
  kind := .docBlock
  content := trim (unlines bodies)
  contentLine := 2

/-- A line behind a star closes a block only if the line itself does. -/
theorem BodyLine.closeLine?_starLine (l : BodyLine) :
    closeLine? "*/".toList (starLine l.text) = none := by
  apply closeLine?_eq_none
  intro h
  rw [starLine] at h
  have hstart : "*/".toList <:+: l.text := by simpa [List.infix_cons_iff] using h
  exact l.no_closing hstart

/-- A line behind a star without the star. -/
theorem cleanLine_starLine {body : Text} (hbody : IsTrimmed body) :
    cleanLine (starLine body) = body := by
  have hstart : trimStart (starLine body) = '*' :: ' ' :: body := rfl
  rw [cleanLine, hstart]
  exact trim_space_cons hbody

/-- An open block with more lines read into it. -/
def OpenBlock.extend (b : OpenBlock) (ls : List Text) : OpenBlock :=
  { b with raw := b.raw ++ ls, body := b.body ++ ls }

/-- Lines that do not close the open block are read into it. -/
theorem readLines_extend (style : Style) (n : Nat) (b : OpenBlock) {ls : List Text}
    (hls : ∀ l ∈ ls, closeLine? b.closing l = none) (rest : List Text) :
    readLines style n (some b) (ls ++ rest) =
      readLines style (n + ls.length) (some (b.extend ls)) rest := by
  induction ls generalizing b n with
  | nil =>
    have hb : b.extend [] = b := by simp [OpenBlock.extend]
    rw [hb]
    rfl
  | cons l ls ih =>
    obtain ⟨hl, hrest⟩ := List.forall_mem_cons.mp hls
    have hpush : readLine style n (some b) l = (none, some (b.extend [l])) := by
      rw [readLine, OpenBlock.push, hl]
      rfl
    have hextend : (b.extend [l]).extend ls = b.extend (l :: ls) := by
      simp [OpenBlock.extend]
    rw [List.cons_append, readLines_cons, hpush, Option.toList_none, List.nil_append,
      ih (n + 1) (b.extend [l]) hrest, hextend, List.length_cons, Nat.add_right_comm, Nat.add_assoc]

/-- The block that a documentation block opens on the first line. -/
def openedBlock : OpenBlock :=
  ⟨.docBlock, "*/".toList, 1, 1, ["/**".toList], [[]]⟩

/-- Empty lines around lines are cut off with the blanks at their ends. -/
theorem trim_unlines_between {ls : List Text} (hne : ls ≠ []) :
    trim (unlines ([] :: ls ++ [[]])) = trim (unlines ls) := by
  have hnewline : ∀ b ∈ ['\n'], isBlank b = true := List.forall_mem_singleton.mpr rfl
  have hjoin : unlines ([] :: ls ++ [[]]) = '\n' :: (unlines ls ++ ['\n']) := by
    rw [List.cons_append, unlines_cons (by simp), unlines_append hne (by simp), unlines_singleton]
    rfl
  have hfront : trimStart ('\n' :: (unlines ls ++ ['\n'])) = trimStart (unlines ls ++ ['\n']) :=
    trimStart_blanks_append hnewline _
  rw [hjoin, trim, hfront]
  exact trim_append_blanks (unlines ls) hnewline

/-- The line that closes a block with a gutter of stars makes it a comment. -/
theorem readLine_closing (n : Nat) {l : Text} {ls : List Text} (hl : l ≠ [])
    (hls : ∀ m ∈ l :: ls, IsTrimmed m) :
    readLine .cLike n (some (openedBlock.extend ((l :: ls).map starLine))) " */".toList =
      (some (starFragment (l :: ls)), none) := by
  have hclose : closeLine? (openedBlock.extend ((l :: ls).map starLine)).closing " */".toList =
      some [' '] := rfl
  have hstars : ((l :: ls).map starLine).map cleanLine = l :: ls := by
    rw [List.map_map]
    exact (List.map_congr_left fun m hm => cleanLine_starLine (hls m hm)).trans (List.map_id _)
  have hclean : ((openedBlock.extend ((l :: ls).map starLine)).body ++ [[' ']]).map cleanLine =
      [] :: (l :: ls) ++ [[]] := by
    rw [List.map_append, OpenBlock.extend, List.map_append, hstars]
    rfl
  have hblank : (([] :: (l :: ls) ++ [[]]).takeWhile fun t => List.isEmpty t).length = 1 := by
    rw [List.cons_append, List.takeWhile_cons_of_pos rfl, List.cons_append,
      List.takeWhile_cons_of_neg (by simpa using hl)]
    rfl
  rw [readLine, OpenBlock.push, hclose]
  change (some (OpenBlock.finish _), none) = _
  rw [OpenBlock.finish]
  simp only [hclean, hblank, trim_unlines_between (List.cons_ne_nil l ls)]
  rw [if_pos (by simp)]
  rfl

/-- The lines of a block with a gutter of stars are lines. -/
theorem forall_mem_starBlock (ls : List BodyLine) :
    ∀ t ∈ starBlock (ls.map BodyLine.text), '\n' ∉ t ∧ chomp t = t := by
  intro t ht
  rw [starBlock, List.mem_append, List.mem_cons, List.mem_singleton] at ht
  rcases ht with (rfl | ht) | rfl
  · decide
  · rw [List.map_map] at ht
    obtain ⟨m, -, rfl⟩ := List.mem_map.mp ht
    exact ⟨by simp [starLine, m.newline_notMem], chomp_append (by decide) m.isTrimmed_text⟩
  · decide

/-- A block with a gutter of stars is read as one comment, also with empty lines below. -/
theorem fragments_starBlock {l : BodyLine} (hl : l.text ≠ []) (ls : List BodyLine) (k : Nat) :
    fragments .cLike (unlines (starBlock ((l :: ls).map BodyLine.text) ++ List.replicate k [])) =
      [starFragment ((l :: ls).map BodyLine.text)] := by
  have hopen : readLine .cLike 1 none "/**".toList = (none, some openedBlock) := rfl
  have hlines : ∀ t ∈ ((l :: ls).map BodyLine.text).map starLine,
      closeLine? openedBlock.closing t = none := by
    intro t ht
    rw [List.map_map] at ht
    obtain ⟨m, -, rfl⟩ := List.mem_map.mp ht
    exact m.closeLine?_starLine
  have htrimmed : ∀ t ∈ (l :: ls).map BodyLine.text, IsTrimmed t := by
    intro t ht
    obtain ⟨m, -, rfl⟩ := List.mem_map.mp ht
    exact m.isTrimmed_text
  have hne : starBlock ((l :: ls).map BodyLine.text) ≠ [] := List.cons_ne_nil _ _
  rw [fragments, sourceLines_unlines_append_replicate hne (forall_mem_starBlock (l :: ls)),
    starBlock, List.cons_append, List.cons_append, List.append_assoc, readLines_cons, hopen,
    readLines_extend .cLike 2 openedBlock hlines, List.singleton_append, readLines_cons,
    List.map_cons, readLine_closing _ hl htrimmed, readLines_replicate_nil]
  rfl

end Marginalia.Comment
