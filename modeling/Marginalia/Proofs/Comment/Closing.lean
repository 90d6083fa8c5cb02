import Marginalia.Proofs.Comment.Below
import Marginalia.Proofs.Comment.Opening
import Marginalia.Proofs.Text.Cut

/-!
# Lines read into an open block

An open block takes in the lines below it up to the first that closes it, and reading goes on below
that line as if there had been no block. Every comment is a line comment or what an opening makes of
its line and the lines below.

So lines are read on their own exactly where no block is open above them. An open block would take
in at least one of them.
-/

namespace Marginalia.Comment

open Text

/-- The lines of a block: those up to the first with the closing delimiter, and of that line what is
before the delimiter. -/
def bodyLines (closing : Text) : List Text → List Text
  | [] => []
  | l :: ls =>
    match closeLine? closing l with
    | some last => [last]
    | none => l :: bodyLines closing ls

/-- The comment that a block makes of source lines which are read into it, each with the part of it
that belongs to the body. -/
def OpenBlock.close (b : OpenBlock) (sources bodies : List Text) : Fragment :=
  let body := bodyLines b.closing bodies
  { b with raw := b.raw ++ sources.take body.length, body := b.body ++ body }.finish

/-- The lines of a block that opens with lines below. -/
def Opening.body (o : Opening) (below : List Text) : List Text :=
  bodyLines o.delimiters.closing (o.behind :: below)

/-- The comment that a block makes which opens on a line with lines below. -/
def Opening.comment (o : Opening) (n : Nat) (line : Text) (below : List Text) : Fragment :=
  (o.start n).close (line :: below) (o.behind :: below)

/-- The comments that a line and the lines below it yield where no block is open: the line comment
that it is, or what a block makes that starts on it. -/
inductive Style.Yields (style : Style) (n : Nat) (line : Text) (below : List Text) :
    Fragment → Prop
  | docLine {f : Fragment} (h : lineComment? .docLine style.docLine n line = some f) :
      Yields style n line below f
  | line {f : Fragment} (h : lineComment? .line style.line n line = some f) :
      Yields style n line below f
  | block {o : Opening} (h : style.StartsBlock n line o) :
      Yields style n line below (o.comment n line below)

/-- Whether lines yield a comment on one of them, above which no block is open. -/
def Style.YieldedIn (style : Style) (n : Nat) (pending : Option OpenBlock) (ls : List Text)
    (f : Fragment) : Prop :=
  ∃ above line below, ls = above ++ line :: below ∧ openAfter style n pending above = none ∧
    style.Yields (n + above.length) line below f

section

variable {style : Style} {n : Nat} {line : Text} {ls : List Text} {o : Opening} {f : Fragment}
  {b c : OpenBlock}

/-- A delimiter that does not occur in a line closes nothing there. -/
theorem closeLine?_eq_none {closing line : Text} (h : ¬ closing <:+: line) :
    closeLine? closing line = none := by
  rw [closeLine?]
  split
  · rfl
  · rw [cut?_eq_none_iff.mpr h, Option.map_none]

/-- A delimiter that is not empty closes a line where it occurs first. -/
theorem isBeforeFirst_of_closeLine? {closing line last : Text}
    (h : closeLine? closing line = some last) : IsBeforeFirst closing line last := by
  rw [closeLine?] at h
  split at h
  · cases h
  · obtain ⟨⟨before, behind⟩, hcut, rfl⟩ := Option.map_eq_some_iff.mp h
    exact isBeforeFirst_of_cut? hcut

/-- A delimiter that is not empty occurs in no line that it does not close. -/
theorem not_isInfix_of_closeLine? {closing line : Text} (hclosing : closing ≠ [])
    (h : closeLine? closing line = none) : ¬ closing <:+: line := by
  rw [closeLine?, if_neg (by simpa using hclosing)] at h
  exact cut?_eq_none_iff.mp (Option.map_eq_none_iff.mp h)

/-- A line that closes a block is its last. -/
theorem bodyLines_of_closes {closing last : Text} (h : closeLine? closing line = some last) :
    bodyLines closing (line :: ls) = [last] := by
  rw [bodyLines, h]

/-- Behind a line that does not close it a block goes on. -/
theorem bodyLines_of_not_closes {closing : Text} (h : closeLine? closing line = none) :
    bodyLines closing (line :: ls) = line :: bodyLines closing ls := by
  rw [bodyLines, h]

/-- A block has no more lines than there are. -/
theorem length_bodyLines_le (closing : Text) (ls : List Text) :
    (bodyLines closing ls).length ≤ ls.length := by
  induction ls with
  | nil => exact Nat.le_refl 0
  | cons l ls ih =>
    cases h : closeLine? closing l with
    | some last =>
      rw [bodyLines_of_closes h]
      exact Nat.succ_le_succ (Nat.zero_le _)
    | none =>
      rw [bodyLines_of_not_closes h]
      exact Nat.succ_le_succ ih

/-- A block takes in a line that is there. -/
theorem bodyLines_ne_nil (closing line : Text) (ls : List Text) :
    bodyLines closing (line :: ls) ≠ [] := by
  cases h : closeLine? closing line with
  | some last =>
    rw [bodyLines_of_closes h]
    exact List.cons_ne_nil _ _
  | none =>
    rw [bodyLines_of_not_closes h]
    exact List.cons_ne_nil _ _

/-- A line of a block is the front of the line that is read into it. -/
theorem exists_prefix_of_getElem?_bodyLines {closing body : Text} {i : Nat}
    (h : (bodyLines closing ls)[i]? = some body) : ∃ l, ls[i]? = some l ∧ body <+: l := by
  induction ls generalizing i with
  | nil => cases h
  | cons l ls ih =>
    cases hclose : closeLine? closing l with
    | some last =>
      rw [bodyLines_of_closes hclose] at h
      cases i with
      | zero =>
        obtain rfl := Option.some.inj h
        exact ⟨l, rfl, (List.prefix_append _ _).trans (isBeforeFirst_of_closeLine? hclose).occurs⟩
      | succ i => cases h
    | none =>
      rw [bodyLines_of_not_closes hclose] at h
      cases i with
      | zero =>
        obtain rfl := Option.some.inj h
        exact ⟨l, rfl, List.prefix_refl l⟩
      | succ i => exact ih h

/-- Where no lines are left, a block ends as it is. -/
theorem OpenBlock.close_nil (b : OpenBlock) (sources : List Text) : b.close sources [] = b.finish := by
  simp [close, bodyLines]

/-- A line that is read into a block ends it with the comment that the block makes of the lines from
this one on, or leaves it open, longer by the line, to make of the lines below what it would have
made of all. -/
theorem OpenBlock.read_cases (b : OpenBlock) (source body : Text) :
    (∃ f, b.read source body = (some f, none) ∧ ∀ sources bodies,
        b.close (source :: sources) (body :: bodies) = f ∧
          (bodyLines b.closing (body :: bodies)).length = 1) ∨
      ∃ c, b.read source body = (none, some c) ∧ c.raw = b.raw ++ [source] ∧ ∀ sources bodies,
        b.close (source :: sources) (body :: bodies) = c.close sources bodies ∧
          (bodyLines b.closing (body :: bodies)).length =
            (bodyLines c.closing bodies).length + 1 := by
  rw [read, push]
  cases hclose : closeLine? b.closing body with
  | some last =>
    refine .inl ⟨_, rfl, fun sources bodies => ?_⟩
    rw [close, bodyLines_of_closes hclose]
    exact ⟨rfl, rfl⟩
  | none =>
    refine .inr ⟨_, rfl, rfl, fun sources bodies => ?_⟩
    rw [close, close, bodyLines_of_not_closes hclose]
    simp

@[simp] theorem line_comment (o : Opening) (n : Nat) (line : Text) (ls : List Text) :
    (o.comment n line ls).line = n := rfl

/-- A comment that opens on a line holds as many source lines as the block has lines. -/
theorem raw_comment (o : Opening) (n : Nat) (line : Text) (ls : List Text) :
    (o.comment n line ls).raw = unlines ((line :: ls).take (o.body ls).length) := rfl

/-- The content of a block is that of its lines. -/
theorem content_comment (o : Opening) (n : Nat) (line : Text) (ls : List Text) :
    (o.comment n line ls).content = trim (unlines ((o.body ls).map cleanLine)) := rfl

/-- A block has a line. -/
theorem body_ne_nil (o : Opening) (ls : List Text) : o.body ls ≠ [] :=
  bodyLines_ne_nil _ _ ls

/-- A block has a line, and no more than are there. -/
theorem length_body_bounds (o : Opening) (ls : List Text) :
    0 < (o.body ls).length ∧ (o.body ls).length ≤ ls.length + 1 :=
  ⟨List.length_pos_iff.mpr (body_ne_nil o ls), length_bodyLines_le _ (o.behind :: ls)⟩

/-- A comment that opens on a line ends on the last line of its block. -/
theorem endLine_comment_add_one (o : Opening) (n : Nat) (hline : ∀ l ∈ line :: ls, '\n' ∉ l) :
    (o.comment n line ls).endLine + 1 = n + (o.body ls).length := by
  obtain ⟨hpos, hle⟩ := length_body_bounds o ls
  have hlength : ((line :: ls).take (o.body ls).length).length = (o.body ls).length :=
    List.length_take_of_le hle
  have hcount := count_newline_unlines (List.ne_nil_of_length_pos (hlength.symm ▸ hpos))
    fun l hl => hline l (List.mem_of_mem_take hl)
  rw [Fragment.endLine, raw_comment, line_comment, Nat.add_assoc, hcount, hlength]

/-- A clean line is a piece of the line. -/
theorem cleanLine_isInfix (line : Text) : cleanLine line <:+: line := by
  have hstart : trimStart line <:+: line := (List.dropWhile_suffix isBlank).isInfix
  rw [cleanLine]
  split
  · rename_i rest hrest
    rw [hrest] at hstart
    exact (trim_isInfix rest).trans ((List.suffix_cons '*' rest).isInfix.trans hstart)
  · exact (trim_isInfix _).trans hstart

/-- A clean line has no blanks at its ends. -/
theorem isTrimmed_cleanLine (line : Text) : IsTrimmed (cleanLine line) := by
  rw [cleanLine]
  split
  · exact isTrimmed_trim _
  · exact isTrimmed_trim _

/-- A source line holds no line feed. -/
theorem newline_notMem_of_mem_sourceLines {t l : Text} (hl : l ∈ sourceLines t) : '\n' ∉ l := by
  obtain ⟨m, hm, rfl⟩ := List.mem_map.mp hl
  exact fun hmem => (mem_of_mem_lines hm '\n' ((chomp_isPrefix m).subset hmem)).2 rfl

/-- Source lines below others hold no line feed. -/
theorem newline_notMem_of_sourceLines_eq {t : Text} {above : List Text}
    (hsource : sourceLines t = above ++ ls) : ∀ l ∈ ls, '\n' ∉ l := by
  intro l hl
  apply newline_notMem_of_mem_sourceLines (t := t)
  rw [hsource]
  exact List.mem_append_right above hl

/-- A block into which a line is read takes in this line and lines below up to the first that closes
it, and below that line no block is open. -/
theorem readLines_of_read {pending : Option OpenBlock} {body : Text}
    (hread : readLine style n pending line = b.read line body) :
    readLines style n pending (line :: ls) = b.close (line :: ls) (body :: ls) ::
      readLines style (n + (bodyLines b.closing (body :: ls)).length) none
        ((line :: ls).drop (bodyLines b.closing (body :: ls)).length) := by
  induction ls generalizing n pending b line body with
  | nil =>
    rw [readLines_cons, hread]
    rcases b.read_cases line body with ⟨f, hf, hends⟩ | ⟨c, hc, -, hgoes⟩
    · obtain ⟨hclose, hlength⟩ := hends [] []
      rw [hf, hclose, hlength]
      rfl
    · obtain ⟨hclose, hlength⟩ := hgoes [] []
      rw [hc, hclose, hlength, c.close_nil]
      rfl
  | cons l ls ih =>
    rw [readLines_cons, hread]
    rcases b.read_cases line body with ⟨f, hf, hends⟩ | ⟨c, hc, -, hgoes⟩
    · obtain ⟨hclose, hlength⟩ := hends (l :: ls) (l :: ls)
      rw [hf, hclose, hlength]
      rfl
    · obtain ⟨hclose, hlength⟩ := hgoes (l :: ls) (l :: ls)
      rw [hc, hclose, hlength, ih (readLine_some style (n + 1) c l), List.drop_succ_cons,
        Nat.add_assoc, Nat.add_comm 1]
      rfl

/-- A block takes in its line and lines below up to the first that closes it. -/
theorem Style.StartsBlock.readLines (h : style.StartsBlock n line o) (ls : List Text) :
    readLines style n none (line :: ls) = o.comment n line ls ::
      readLines style (n + (o.body ls).length) none ((line :: ls).drop (o.body ls).length) :=
  readLines_of_read h.readLine_eq

/-- What lines yield below a line, they yield with the line above. -/
theorem Style.YieldedIn.cons {pending next : Option OpenBlock} (h : style.YieldedIn (n + 1) next ls f)
    (hread : (readLine style n pending line).2 = next) :
    style.YieldedIn n pending (line :: ls) f := by
  obtain ⟨above, first, below, rfl, hnone, hyields⟩ := h
  refine ⟨line :: above, first, below, rfl, ?_, ?_⟩
  · rw [openAfter, hread, hnone]
  · rwa [List.length_cons, Nat.add_comm above.length, ← Nat.add_assoc]

/-- A comment that lines make, of which the first is read into a block, is what the block makes of
them or is yielded on one of them, if this is so below the first line. -/
theorem close_or_yieldedIn_of_read {pending : Option OpenBlock} {body : Text}
    (hread : readLine style n pending line = b.read line body)
    (ihOutside : ∀ f ∈ readLines style (n + 1) none ls, style.YieldedIn (n + 1) none ls f)
    (ihOpen : ∀ c, ∀ f ∈ readLines style (n + 1) (some c) ls,
      f = c.close ls ls ∨ style.YieldedIn (n + 1) (some c) ls f)
    (hf : f ∈ readLines style n pending (line :: ls)) :
    f = b.close (line :: ls) (body :: ls) ∨ style.YieldedIn n pending (line :: ls) f := by
  rw [readLines_cons] at hf
  rcases b.read_cases line body with ⟨g, hg, hends⟩ | ⟨c, hc, -, hgoes⟩
  · rw [hg] at hread
    rw [hread] at hf
    rcases List.mem_cons.mp hf with rfl | hf
    · exact .inl (hends ls ls).1.symm
    · exact .inr ((ihOutside f hf).cons (congrArg Prod.snd hread))
  · rw [hc] at hread
    rw [hread] at hf
    rcases ihOpen c f hf with rfl | hbelow
    · exact .inl (hgoes ls ls).1.symm
    · exact .inr (hbelow.cons (congrArg Prod.snd hread))

/-- A comment that lines make is yielded on one of them, or is what the block makes of them that is
open above. -/
theorem yieldedIn_of_mem_readLines (style : Style) (ls : List Text) :
    (∀ n, ∀ f ∈ readLines style n none ls, style.YieldedIn n none ls f) ∧
      ∀ n b, ∀ f ∈ readLines style n (some b) ls,
        f = b.close ls ls ∨ style.YieldedIn n (some b) ls f := by
  induction ls with
  | nil =>
    refine ⟨fun n f hf => absurd hf List.not_mem_nil, fun n b f hf => .inl ?_⟩
    rw [b.close_nil]
    exact List.mem_singleton.mp hf
  | cons l ls ih =>
    obtain ⟨ihOutside, ihOpen⟩ := ih
    constructor
    · intro n f hf
      rcases readLine_none_cases style n l with hskip | ⟨g, hg, hread⟩ | ⟨o, hstarts⟩
      · rw [readLines_cons, hskip] at hf
        exact (ihOutside (n + 1) f hf).cons (congrArg Prod.snd hskip)
      · rw [readLines_cons, hread] at hf
        rcases List.mem_cons.mp hf with rfl | hf
        · refine ⟨[], l, ls, rfl, rfl, ?_⟩
          rcases hg with hdoc | hline
          · exact .docLine hdoc
          · exact .line hline
        · exact (ihOutside (n + 1) f hf).cons (congrArg Prod.snd hread)
      · rcases close_or_yieldedIn_of_read hstarts.readLine_eq (ihOutside (n + 1)) (ihOpen (n + 1)) hf
          with rfl | hyielded
        · exact ⟨[], l, ls, rfl, rfl, .block hstarts⟩
        · exact hyielded
    · intro n b f hf
      exact close_or_yieldedIn_of_read (readLine_some style n b l) (ihOutside (n + 1))
        (ihOpen (n + 1)) hf

/-- Lines below others are read with the block that is open behind these. -/
theorem exists_readLines_append (style : Style) (n : Nat) (pending : Option OpenBlock)
    (ks : List Text) :
    ∃ closed, ∀ ls, readLines style n pending (ks ++ ls) =
      closed ++ readLines style (n + ks.length) (openAfter style n pending ks) ls := by
  induction ks generalizing n pending with
  | nil => exact ⟨[], fun ls => rfl⟩
  | cons k ks ih =>
    obtain ⟨closed, hclosed⟩ := ih (n + 1) (readLine style n pending k).2
    refine ⟨(readLine style n pending k).1.toList ++ closed, fun ls => ?_⟩
    rw [List.cons_append, readLines_cons, hclosed, List.append_assoc, List.length_cons,
      Nat.add_right_comm, Nat.add_assoc]
    rfl

/-- A block that is open behind a line holds a line. -/
theorem raw_ne_nil_of_readLine {pending : Option OpenBlock}
    (h : (readLine style n pending line).2 = some b) : b.raw ≠ [] := by
  have hnotNil {c : OpenBlock} {body : Text} (hb : (c.read line body).2 = some b) : b.raw ≠ [] := by
    rcases c.read_cases line body with ⟨f, hf, -⟩ | ⟨d, hd, hraw, -⟩
    · rw [hf] at hb
      cases hb
    · rw [hd] at hb
      rw [← Option.some.inj hb, hraw]
      exact List.append_ne_nil_of_right_ne_nil _ (List.cons_ne_nil _ _)
  cases pending with
  | some c =>
    rw [readLine_some] at h
    exact hnotNil h
  | none =>
    rcases readLine_none_cases style n line with hread | ⟨f, -, hread⟩ | ⟨o, hstarts⟩
    · rw [hread] at h
      cases h
    · rw [hread] at h
      cases h
    · rw [hstarts.readLine_eq] at h
      exact hnotNil h

/-- A block that is open behind lines, of which there was none above, holds a line. -/
theorem raw_ne_nil_of_openAfter {pending : Option OpenBlock} {ks : List Text}
    (hpending : ∀ c ∈ pending, c.raw ≠ []) (h : openAfter style n pending ks = some b) :
    b.raw ≠ [] := by
  induction ks generalizing n pending with
  | nil => exact hpending b h
  | cons k ks ih => exact ih (fun c hc => raw_ne_nil_of_readLine hc) h

/-- An open block makes another comment of a line below than it does where it ends. -/
theorem OpenBlock.close_ne_finish (hb : b.raw ≠ []) (line : Text) (ls : List Text) :
    b.close (line :: ls) (line :: ls) ≠ b.finish := by
  intro h
  have hraw : unlines (b.raw ++ (line :: ls).take (bodyLines b.closing (line :: ls)).length) =
      unlines b.raw := congrArg Fragment.raw h
  have htaken : (line :: ls).take (bodyLines b.closing (line :: ls)).length ≠ [] := by
    intro hnil
    rcases List.take_eq_nil_iff.mp hnil with hlength | hlines
    · exact bodyLines_ne_nil b.closing line ls (List.length_eq_zero_iff.mp hlength)
    · cases hlines
  have hlength := congrArg List.length hraw
  rw [unlines_append hb htaken, List.length_append, List.length_cons] at hlength
  omega

end

/-- Two texts one below the other have the comments of both exactly when the first leaves no block
open, those of the second further down by the number of lines of the first. -/
theorem fragments_append_newline_iff (style : Style) (a b : Text) :
    fragments style (a ++ '\n' :: b) =
        fragments style a ++ (fragments style b).map (Fragment.moveDown (lines a).length) ↔
      openAfter style 1 none (sourceLines a) = none := by
  refine ⟨fun h => ?_, fragments_append_newline b⟩
  cases hopen : openAfter style 1 none (sourceLines a) with
  | none => rfl
  | some c =>
    obtain ⟨closed, hclosed⟩ := exists_readLines_append style 1 none (sourceLines a)
    have hraw : c.raw ≠ [] := raw_ne_nil_of_openAfter (fun d hd => absurd hd (by simp)) hopen
    have habove : fragments style a = closed ++ [c.finish] := by
      have hread := hclosed []
      rwa [List.append_nil, hopen] at hread
    obtain ⟨line, ls, hlines⟩ : ∃ line ls, sourceLines b = line :: ls :=
      List.exists_cons_of_ne_nil (by simp [sourceLines, lines_ne_nil])
    rw [habove, fragments, sourceLines_append_newline, hclosed, hopen, hlines,
      readLines_of_read (readLine_some style _ c line), List.append_assoc,
      List.append_cancel_left_eq] at h
    exact absurd (List.cons.inj h).1 (OpenBlock.close_ne_finish hraw line ls)

end Marginalia.Comment
