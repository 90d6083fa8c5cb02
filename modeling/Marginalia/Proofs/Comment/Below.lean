import Marginalia.Comment.Fragment
import Marginalia.Proofs.Text.Lines

/-!
# Comments of texts one below the other

Between two lines of a source, the only state is the block comment that is open. Where none is open
behind a first text, the comments of a text below it are its own, only further down by the number of
lines of the first.
-/

namespace Marginalia.Comment

open Text

/-- A comment further down by a number of lines. -/
def Fragment.moveDown (k : Nat) (f : Fragment) : Fragment :=
  { f with line := f.line + k, contentLine := f.contentLine + k }

/-- An open block further down by a number of lines. -/
def OpenBlock.moveDown (k : Nat) (b : OpenBlock) : OpenBlock :=
  { b with line := b.line + k }

variable (k : Nat)

/-- A line comment further down. -/
theorem lineComment?_add (kind : Kind) (marks : List Text) (n : Nat) (line : Text) :
    lineComment? kind marks (n + k) line =
      (lineComment? kind marks n line).map (Fragment.moveDown k) := by
  rw [lineComment?, lineComment?]
  generalize marks.filter (!·.isEmpty) = fitting
  induction fitting with
  | nil => rfl
  | cons mark fitting ih =>
    rw [List.findSome?_cons, List.findSome?_cons]
    cases after? mark (trimStart line) with
    | none => exact ih
    | some rest => rfl

/-- The comment that a block further down makes. -/
theorem OpenBlock.finish_moveDown (b : OpenBlock) :
    (b.moveDown k).finish = b.finish.moveDown k := by
  rw [OpenBlock.finish, OpenBlock.finish, Fragment.moveDown, OpenBlock.moveDown]
  congr 1
  split
  · exact Nat.add_right_comm _ _ _
  · rfl

/-- Reading a line into a block further down. -/
theorem OpenBlock.push_moveDown (b : OpenBlock) (sourceLine bodyLine : Text) :
    (b.moveDown k).push sourceLine bodyLine =
      (b.push sourceLine bodyLine).map (Fragment.moveDown k) (OpenBlock.moveDown k) := by
  have hclosing : (b.moveDown k).closing = b.closing := rfl
  rw [OpenBlock.push, OpenBlock.push, hclosing]
  cases closeLine? b.closing bodyLine with
  | none => rfl
  | some last =>
    exact congrArg Sum.inl (OpenBlock.finish_moveDown k
      { b with raw := b.raw ++ [sourceLine], body := b.body ++ [last] })

/-- Reading a line further down. -/
theorem readLine_add (style : Style) (n : Nat) (pending : Option OpenBlock) (line : Text) :
    readLine style (n + k) (pending.map (OpenBlock.moveDown k)) line =
      (readLine style n pending line).map (Option.map (Fragment.moveDown k))
        (Option.map (OpenBlock.moveDown k)) := by
  cases pending with
  | some b =>
    rw [Option.map_some, readLine, readLine, OpenBlock.push_moveDown]
    cases b.push line line with
    | inl f => rfl
    | inr b => rfl
  | none =>
    have hcomment : (lineComment? .docLine style.docLine (n + k) line <|>
        lineComment? .line style.line (n + k) line) =
          (lineComment? .docLine style.docLine n line <|>
            lineComment? .line style.line n line).map (Fragment.moveDown k) := by
      rw [lineComment?_add, lineComment?_add]
      cases lineComment? .docLine style.docLine n line <;> rfl
    rw [Option.map_none, readLine, readLine, hcomment]
    cases lineComment? .docLine style.docLine n line <|> lineComment? .line style.line n line with
    | some f => rfl
    | none =>
      cases firstOpening? style line with
      | none => rfl
      | some o =>
        have hpush := OpenBlock.push_moveDown k (o.start n) line o.behind
        change ((o.start (n + k)).push line o.behind) = _ at hpush
        simp only [Option.map_none, hpush]
        cases (o.start n).push line o.behind with
        | inl f => rfl
        | inr b => rfl

/-- The comments of lines are the one that ends on the first line, if any, and those of the others.
-/
theorem readLines_cons (style : Style) (n : Nat) (pending : Option OpenBlock) (l : Text)
    (ls : List Text) :
    readLines style n pending (l :: ls) =
      (readLine style n pending l).1.toList ++
        readLines style (n + 1) (readLine style n pending l).2 ls :=
  rfl

/-- Reading lines further down. -/
theorem readLines_add (style : Style) (n : Nat) (pending : Option OpenBlock) (ls : List Text) :
    readLines style (n + k) (pending.map (OpenBlock.moveDown k)) ls =
      (readLines style n pending ls).map (Fragment.moveDown k) := by
  induction ls generalizing n pending with
  | nil =>
    cases pending with
    | none => rfl
    | some b => exact congrArg (fun f => [f]) (OpenBlock.finish_moveDown k b)
  | cons l ls ih =>
    rw [readLines_cons, readLines_cons, readLine_add, Prod.map_fst, Prod.map_snd,
      Nat.add_right_comm, ih, List.map_append]
    cases (readLine style n pending l).1 <;> rfl

/-- Lines below lines that leave no block open are read on their own. -/
theorem readLines_append (style : Style) (n : Nat) (pending : Option OpenBlock)
    {ks : List Text} (ls : List Text) (h : openAfter style n pending ks = none) :
    readLines style n pending (ks ++ ls) =
      readLines style n pending ks ++ readLines style (n + ks.length) none ls := by
  induction ks generalizing n pending with
  | nil =>
    rw [openAfter] at h
    rw [h]
    rfl
  | cons k ks ih =>
    rw [openAfter] at h
    rw [List.cons_append, readLines_cons, readLines_cons, ih _ _ h, List.append_assoc, List.length_cons,
      Nat.add_right_comm, Nat.add_assoc]

/-- The source lines of joined lines without carriage returns at their ends are these lines. -/
theorem sourceLines_unlines {ls : List Text} (hne : ls ≠ [])
    (hls : ∀ l ∈ ls, '\n' ∉ l ∧ chomp l = l) : sourceLines (unlines ls) = ls := by
  rw [sourceLines, lines_unlines hne fun l hl => (hls l hl).1]
  exact (List.map_congr_left fun l hl => (hls l hl).2).trans (List.map_id _)

/-- The source lines of two texts one below the other. -/
theorem sourceLines_append_newline (a b : Text) :
    sourceLines (a ++ '\n' :: b) = sourceLines a ++ sourceLines b := by
  rw [sourceLines, lines_append_newline, List.map_append]
  rfl

/-- The comments of two texts one below the other, where the first leaves no block open. -/
theorem fragments_append_newline {style : Style} {a : Text} (b : Text)
    (h : openAfter style 1 none (sourceLines a) = none) :
    fragments style (a ++ '\n' :: b) =
      fragments style a ++ (fragments style b).map (Fragment.moveDown (lines a).length) := by
  have hbelow := readLines_add (lines a).length style 1 none (sourceLines b)
  rw [Option.map_none] at hbelow
  rw [fragments, sourceLines_append_newline, readLines_append style 1 none _ h, fragments,
    fragments, ← hbelow, sourceLines, List.length_map]

end Marginalia.Comment
