import Marginalia.Proofs.Comment.Below
import Marginalia.Proofs.Text.Cut

/-!
# Documentation lines in source code

In the slash style, a line behind the documentation mark is a comment of its own, and a line with
neither a mark at its start nor an opening delimiter anywhere is none. So the comments of a source
text that consists of such lines are its documentation lines, each with its number.
-/

namespace Marginalia.Comment

open Text

/-- A documentation line with some text. -/
def docLine (body : Text) : Text :=
  "/// ".toList ++ body

/-- The comment that a documentation line with this number is. -/
def docFragment (n : Nat) (body : Text) : Fragment where
  raw := docLine body
  line := n
  column := 1
  kind := .docLine
  content := body
  contentLine := n

/-- The comments that documentation lines are, the first of which has this number. -/
def docFragments : Nat → List Text → List Fragment
  | _, [] => []
  | n, body :: rest => docFragment n body :: docFragments (n + 1) rest

/-- A line of code: it neither starts with two slashes nor opens a block comment. -/
structure CodeLine where
  text : Text
  newline_notMem : '\n' ∉ text
  no_mark : ¬ "//".toList <+: trimStart text
  no_block : ¬ "/*".toList <:+: text

/-- A documentation line is read as a comment. -/
theorem readLine_docLine (n : Nat) {body : Text} (hbody : IsTrimmed body) :
    readLine .cLike n none (docLine body) = (some (docFragment n body), none) := by
  have hstart : trimStart (docLine body) = docLine body := trimStart_cons (by decide) _
  have htrim : trim (' ' :: body) = body := trim_space_cons hbody
  have hafter : after? "///".toList (docLine body) = some (' ' :: body) :=
    after?_eq_some_iff.mpr rfl
  have hcomment : lineComment? .docLine ["///".toList] n (docLine body) =
      some (docFragment n body) := by
    have hmarks : ["///".toList].filter (!·.isEmpty) = ["///".toList] := rfl
    rw [lineComment?, hmarks, hstart]
    simp only [List.findSome?_cons, hafter, Option.map_some, htrim, Nat.sub_self, Nat.zero_add,
      docFragment]
  have hstyle : Style.cLike.docLine = ["///".toList] := rfl
  rw [readLine, hstyle, hcomment]
  rfl

/-- A text behind a mark ends with no carriage return if it has no blanks at its ends. -/
theorem chomp_append {mark body : Text} (hmark : mark.getLast? ≠ some '\r')
    (hbody : IsTrimmed body) : chomp (mark ++ body) = mark ++ body := by
  apply if_neg
  intro hlast
  rw [List.getLast?_append] at hlast
  cases hb : body.getLast? with
  | none =>
    rw [hb, Option.none_or] at hlast
    exact hmark hlast
  | some c =>
    rw [hb, Option.some_or] at hlast
    have hblank := hbody.2 c hb
    rw [Option.some.inj hlast] at hblank
    cases hblank

/-- A documentation line ends with no carriage return. -/
theorem chomp_docLine {body : Text} (hbody : IsTrimmed body) :
    chomp (docLine body) = docLine body :=
  chomp_append (by decide) hbody

/-- What stands at the start of a front behind blanks stands at the start of the whole text. -/
theorem prefix_trimStart_append {mark t : Text} (hmark : mark ≠ []) (h : mark <+: trimStart t)
    (rest : Text) : mark <+: trimStart (t ++ rest) := by
  have hne : trimStart t ≠ [] := fun hnil => hmark (List.prefix_nil.mp (hnil ▸ h))
  rw [trimStart_append_of_ne_nil hne]
  exact h.trans (List.prefix_append _ _)

namespace CodeLine

/-- A line of code without its carriage return does not start with two slashes. -/
theorem not_prefix_chomp (c : CodeLine) : ¬ "//".toList <+: trimStart (chomp c.text) := by
  obtain ⟨rest, hrest⟩ := chomp_isPrefix c.text
  intro h
  have hlong := prefix_trimStart_append (by decide) h rest
  rw [hrest] at hlong
  exact c.no_mark hlong

/-- A line of code without its carriage return opens no block comment. -/
theorem not_isInfix_chomp (c : CodeLine) : ¬ "/*".toList <:+: chomp c.text :=
  fun h => c.no_block (h.trans (chomp_isPrefix c.text).isInfix)

/-- A line of code is no comment behind a mark that starts with two slashes. -/
theorem lineComment?_eq_none (c : CodeLine) (kind : Kind) (n : Nat) {mark : Text}
    (hmark : "//".toList <+: mark) : lineComment? kind [mark] n (chomp c.text) = none := by
  have hafter : after? mark (trimStart (chomp c.text)) = none := by
    cases h : after? mark (trimStart (chomp c.text)) with
    | none => rfl
    | some rest =>
      refine absurd ?_ c.not_prefix_chomp
      rw [after?_eq_some_iff.mp h]
      exact hmark.trans (List.prefix_append _ _)
  rw [lineComment?, List.findSome?_eq_none_iff]
  intro m hm
  have hm := List.mem_singleton.mp (List.mem_filter.mp hm).1
  rw [hm, hafter]
  rfl

/-- No delimiters whose opening starts with a slash and a star open a comment in a line of code. -/
theorem opening?_eq_none (c : CodeLine) (kind : Kind) {opening closing : Text}
    (hopening : "/*".toList <:+: opening) :
    opening? kind (some ⟨opening, closing⟩) (chomp c.text) = none := by
  have hcut : cut? opening (chomp c.text) = none :=
    cut?_eq_none_iff.mpr fun hinfix => c.not_isInfix_chomp (hopening.trans hinfix)
  simp only [opening?, Option.bind_eq_bind, Option.bind_eq_none_iff]
  intro d hd
  obtain ⟨hsome, -⟩ := Option.filter_eq_some_iff.mp hd
  obtain rfl := Option.some.inj hsome
  rw [hcut]
  intro found hfound
  cases hfound

/-- A line of code is no comment. -/
theorem readLine_chomp (c : CodeLine) (n : Nat) :
    readLine .cLike n none (chomp c.text) = (none, none) := by
  have hdocLine : lineComment? .docLine Style.cLike.docLine n (chomp c.text) = none :=
    c.lineComment?_eq_none .docLine n ⟨['/'], rfl⟩
  have hline : lineComment? .line Style.cLike.line n (chomp c.text) = none :=
    c.lineComment?_eq_none .line n (List.prefix_refl _)
  have hblock : opening? .block Style.cLike.block (chomp c.text) = none :=
    c.opening?_eq_none .block (List.infix_refl _)
  have hdocBlock : opening? .docBlock Style.cLike.docBlock (chomp c.text) = none :=
    c.opening?_eq_none .docBlock ⟨[], ['*'], rfl⟩
  rw [readLine, hdocLine, hline, firstOpening?, hblock, hdocBlock]
  rfl

end CodeLine

/-- Documentation lines are read as one comment each, and then what follows them. -/
theorem readLines_docLines_append (n : Nat) {bodies : List Text}
    (hbodies : ∀ body ∈ bodies, IsTrimmed body) (rest : List Text) :
    readLines .cLike n none (bodies.map docLine ++ rest) =
      docFragments n bodies ++ readLines .cLike (n + bodies.length) none rest := by
  induction bodies generalizing n with
  | nil => rfl
  | cons body bodies ih =>
    obtain ⟨hbody, hlater⟩ := List.forall_mem_cons.mp hbodies
    rw [List.map_cons, List.cons_append, readLines, readLine_docLine n hbody]
    simp only [ih (n + 1) hlater, Option.toList_some, docFragments, List.cons_append,
      List.nil_append, List.length_cons, Nat.add_right_comm n 1, Nat.add_assoc]

/-- Empty lines are no comments. -/
theorem readLines_replicate_nil (n k : Nat) :
    readLines .cLike n none (List.replicate k []) = [] := by
  induction k generalizing n with
  | zero => rfl
  | succ k ih => exact ih (n + 1)

/-- The source lines of joined lines with empty lines below are these lines. -/
theorem sourceLines_unlines_append_replicate {ls : List Text} (hne : ls ≠ [])
    (hls : ∀ l ∈ ls, '\n' ∉ l ∧ chomp l = l) (k : Nat) :
    sourceLines (unlines (ls ++ List.replicate k [])) = ls ++ List.replicate k [] := by
  apply sourceLines_unlines (by simp [hne])
  intro l hl
  rcases List.mem_append.mp hl with hl | hl
  · exact hls l hl
  · rw [List.eq_of_mem_replicate hl]
    exact ⟨List.not_mem_nil, rfl⟩

/-- Documentation lines are read as one comment each, also with empty lines below. -/
theorem fragments_docLines {bodies : List Text} (hne : bodies ≠ [])
    (hbodies : ∀ body ∈ bodies, IsTrimmed body ∧ '\n' ∉ body) (k : Nat) :
    fragments .cLike (unlines (bodies.map docLine ++ List.replicate k [])) =
      docFragments 1 bodies := by
  have hlines : ∀ l ∈ bodies.map docLine, '\n' ∉ l ∧ chomp l = l := by
    intro l hl
    obtain ⟨body, hbody, rfl⟩ := List.mem_map.mp hl
    obtain ⟨htrimmed, hnewline⟩ := hbodies body hbody
    exact ⟨by simp [docLine, hnewline], chomp_docLine htrimmed⟩
  rw [fragments, sourceLines_unlines_append_replicate (by simpa using hne) hlines,
    readLines_docLines_append 1 (fun body hbody => (hbodies body hbody).1),
    readLines_replicate_nil, List.append_nil]

end Marginalia.Comment
