import Mathlib.Data.List.Induction
import Marginalia.Proofs.Text.Blank
import Marginalia.Proofs.Text.Lines
import Marginalia.Tag.Basic

/-!
# Tags of trimmed texts

Empty lines at the end of a text are cut off when the text is trimmed. No tag is lost by that: an
empty line is no tag line, and the text of a block tag is trimmed in any case.
-/

namespace Marginalia

open Text

namespace Text

/-- A newline is blank. -/
theorem forall_mem_replicate_newline (k : Nat) : ∀ b ∈ List.replicate k '\n', isBlank b = true := by
  intro b hb
  rw [List.eq_of_mem_replicate hb]
  rfl

/-- Lines with empty lines below them are joined to the joined lines and line feeds. -/
theorem unlines_append_replicate {ls : List Text} (hne : ls ≠ []) (k : Nat) :
    unlines (ls ++ List.replicate k []) = unlines ls ++ List.replicate k '\n' := by
  induction k with
  | zero => rw [List.replicate_zero, List.replicate_zero, List.append_nil, List.append_nil]
  | succ k ih =>
    rw [List.replicate_succ', List.replicate_succ', ← List.append_assoc,
      unlines_append (by simp [hne]) (by simp), ih, unlines_singleton, List.append_assoc]

/-- Lines are a front whose last line is not empty, and empty lines below. -/
theorem exists_eq_append_replicate (ls : List Text) :
    ∃ front k, ls = front ++ List.replicate k [] ∧ ∀ l ∈ front.getLast?, l ≠ [] := by
  induction ls using List.reverseRecOn with
  | nil => exact ⟨[], 0, rfl, by simp⟩
  | append_singleton ls l ih =>
    by_cases hl : l = []
    · obtain ⟨front, k, rfl, hlast⟩ := ih
      refine ⟨front, k + 1, ?_, hlast⟩
      rw [hl, List.append_assoc, ← List.replicate_succ']
    · refine ⟨ls ++ [l], 0, by simp, ?_⟩
      simpa using hl

/-- Joined lines end like the last line if that is not empty. -/
theorem getLast?_unlines_concat (front : List Text) {last : Text} (hne : last ≠ []) :
    (unlines (front ++ [last])).getLast? = last.getLast? := by
  by_cases hfront : front = []
  · rw [hfront, List.nil_append, unlines_singleton]
  · obtain ⟨c, hc⟩ := Option.ne_none_iff_exists'.mp (List.getLast?_eq_none_iff.not.mpr hne)
    rw [unlines_append hfront (by simp), unlines_singleton, List.getLast?_append,
      List.getLast?_cons_of_ne_nil hne, hc, Option.some_or]

/-- Joined lines have no blanks at their ends when none of them has and the first and the last are
not empty. -/
theorem isTrimmed_unlines {ls : List Text} (htrimmed : ∀ l ∈ ls, IsTrimmed l)
    (hfirst : ∀ l ∈ ls.head?, l ≠ []) (hlast : ∀ l ∈ ls.getLast?, l ≠ []) :
    IsTrimmed (unlines ls) := by
  by_cases hne : ls = []
  · rw [hne]
    exact isTrimmed_of_forall (by simp)
  constructor
  · obtain ⟨l, rest, rfl⟩ := List.exists_cons_of_ne_nil hne
    obtain ⟨c, t, rfl⟩ := List.exists_cons_of_ne_nil (hfirst l rfl)
    rw [unlines_cons_cons]
    exact (htrimmed (c :: t) List.mem_cons_self).1
  · obtain ⟨last, hend⟩ := Option.ne_none_iff_exists'.mp (List.getLast?_eq_none_iff.not.mpr hne)
    have hlastne : last ≠ [] := hlast last hend
    obtain ⟨front, rfl⟩ := List.getLast?_eq_some_iff.mp hend
    rw [getLast?_unlines_concat front hlastne]
    exact (htrimmed last (by simp)).2

/-- Trimmed lines, of which the first is not empty, are trimmed as a whole by leaving out the empty
lines at the end. -/
theorem exists_trim_unlines_eq {ls : List Text} (hls : ∀ l ∈ ls, IsTrimmed l)
    (hfirst : ∃ l ∈ ls.head?, l ≠ []) :
    ∃ front k, front ≠ [] ∧ ls = front ++ List.replicate k [] ∧
      trim (unlines ls) = unlines front := by
  obtain ⟨front, k, rfl, hlast⟩ := exists_eq_append_replicate ls
  obtain ⟨first, hhead, hne⟩ := hfirst
  have hfront : front ≠ [] := by
    rintro rfl
    exact hne (List.eq_of_mem_replicate (List.mem_of_mem_head? hhead))
  obtain ⟨l, rest, rfl⟩ := List.exists_cons_of_ne_nil hfront
  obtain rfl : l = first := Option.some.inj hhead
  have hfirst : ∀ m ∈ (l :: rest).head?, m ≠ [] := fun m hm => Option.some.inj hm ▸ hne
  refine ⟨l :: rest, k, hfront, rfl, ?_⟩
  rw [unlines_append_replicate hfront, trim_append_blanks _ (forall_mem_replicate_newline k)]
  exact trim_of_isTrimmed
    (isTrimmed_unlines (fun l hl => hls l (List.mem_append_left _ hl)) hfirst hlast)

/-- Empty lines above are left out of lines that are trimmed as a whole. -/
theorem trim_unlines_dropWhile (ls : List Text) :
    trim (unlines (ls.dropWhile fun l => l.isEmpty)) = trim (unlines ls) := by
  induction ls with
  | nil => rfl
  | cons l ls ih =>
    by_cases hl : l = []
    · rw [hl, List.dropWhile_cons_of_pos rfl, ih]
      by_cases hls : ls = []
      · rw [hls, unlines_singleton, unlines_nil]
      · have hnewline : ∀ b ∈ ['\n'], isBlank b = true := List.forall_mem_singleton.mpr rfl
        have hcut := trimStart_blanks_append hnewline (unlines ls)
        rw [unlines_cons hls, List.nil_append, trim, trim, ← hcut, List.singleton_append]
    · rw [List.dropWhile_cons_of_neg (by simpa using hl)]

/-- The lines of trimmed lines that are trimmed as a whole, of which one is not empty, are these
lines without some empty ones above and below. -/
theorem lines_trim_unlines_prefix {ls : List Text} (hls : ∀ l ∈ ls, IsTrimmed l ∧ '\n' ∉ l)
    (hne : ∃ l ∈ ls, l ≠ []) :
    lines (trim (unlines ls)) <+: ls.dropWhile fun l => l.isEmpty := by
  have hmem : ∀ l ∈ ls.dropWhile fun l => l.isEmpty, IsTrimmed l ∧ '\n' ∉ l := fun l hl =>
    hls l ((List.dropWhile_suffix _).subset hl)
  have hfirst : ∃ l ∈ (ls.dropWhile fun l => l.isEmpty).head?, l ≠ [] := by
    obtain ⟨l, hl, hlne⟩ := hne
    cases hkept : ls.dropWhile fun l => l.isEmpty with
    | nil => exact absurd (by simpa using List.dropWhile_eq_nil_iff.mp hkept l hl) hlne
    | cons first more =>
      have hhead := List.head?_dropWhile_not (fun l : Text => l.isEmpty) ls
      rw [hkept] at hhead
      exact ⟨first, rfl, by simpa using hhead⟩
  obtain ⟨front, k, hfront, heq, htrim⟩ := exists_trim_unlines_eq (fun l hl => (hmem l hl).1) hfirst
  rw [← trim_unlines_dropWhile, htrim, heq]
  rw [heq] at hmem
  rw [lines_unlines hfront fun l hl => (hmem l (List.mem_append_left _ hl)).2]
  exact List.prefix_append _ _

end Text

namespace Tag

variable (initTag : Text)

/-- Lines with empty lines below them have more empty lines before the first tag line, if any. -/
theorem exists_fst_readLines_append_replicate (n : Nat) (ls : List Text) (k : Nat) :
    ∃ j, (readLines initTag n (ls ++ List.replicate k [])).1 =
      (readLines initTag n ls).1 ++ List.replicate j [] := by
  induction ls generalizing n with
  | nil =>
    refine ⟨k, ?_⟩
    rw [readLines, List.nil_append]
    induction k generalizing n with
    | zero => rfl
    | succ k ih => exact congrArg ([] :: ·) (ih (n + 1))
  | cons l ls ih =>
    rw [List.cons_append, readLines, readLines]
    cases ofLine? l with
    | none =>
      obtain ⟨j, hj⟩ := ih (n + 1)
      exact ⟨j, congrArg (l :: ·) hj⟩
    | some parts => exact ⟨0, rfl⟩

/-- Empty lines behind a tag line do not change its tag. -/
theorem ofParts_append_replicate (name inline : Text) (n : Nat) (following : List Text) (j : Nat) :
    ofParts initTag name inline n (following ++ List.replicate j []) =
      ofParts initTag name inline n following := by
  have hjoin : unlines (inline :: (following ++ List.replicate j [])) =
      unlines (inline :: following) ++ List.replicate j '\n' :=
    unlines_append_replicate (List.cons_ne_nil inline following) j
  rw [ofParts, ofParts, hjoin, trim_append_blanks _ (forall_mem_replicate_newline j)]

/-- Lines have the same tags when empty lines stand below them. -/
theorem snd_readLines_append_replicate (n : Nat) (ls : List Text) (k : Nat) :
    (readLines initTag n (ls ++ List.replicate k [])).2 = (readLines initTag n ls).2 := by
  induction ls generalizing n with
  | nil =>
    rw [readLines, List.nil_append]
    induction k generalizing n with
    | zero => rfl
    | succ k ih => exact ih (n + 1)
  | cons l ls ih =>
    rw [List.cons_append, readLines, readLines]
    cases ofLine? l with
    | none => exact ih (n + 1)
    | some parts =>
      obtain ⟨j, hj⟩ := exists_fst_readLines_append_replicate initTag (n + 1) ls k
      have htag := ofParts_append_replicate initTag parts.1 parts.2 n
        (readLines initTag (n + 1) ls).1 j
      rw [← hj] at htag
      exact congrArg₂ List.cons htag (ih (n + 1))

/-- Lines without blanks at their ends, of which the first is not empty, have the same tags when
they are joined and trimmed. -/
theorem ofText_trim_unlines (n : Nat) {ls : List Text} (hls : ∀ l ∈ ls, IsTrimmed l ∧ '\n' ∉ l)
    (hfirst : ∃ l ∈ ls.head?, l ≠ []) :
    ofText initTag n (trim (unlines ls)) = ofText initTag n (unlines ls) := by
  obtain ⟨front, k, hfront, rfl, htrim⟩ := exists_trim_unlines_eq (fun l hl => (hls l hl).1) hfirst
  have hlines : ∀ l ∈ front, '\n' ∉ l := fun l hl => (hls l (List.mem_append_left _ hl)).2
  rw [htrim, ofText, ofText, lines_unlines hfront hlines,
    lines_unlines (by simp [hfront]) fun m hm => (hls m hm).2, snd_readLines_append_replicate]

end Tag

end Marginalia
