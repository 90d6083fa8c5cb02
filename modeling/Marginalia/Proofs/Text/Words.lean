import Marginalia.Proofs.Text.Blank
import Marginalia.Proofs.Text.Lines

/-!
# Words of a text

A text is cut into words at each blank, so the words of two texts with a blank between are those of
the one and those of the other. Blanks at the ends do not count. A text that starts with some words
has these words and those of what stands behind them.
-/

namespace Marginalia.Text

@[simp] theorem words_nil : words [] = [] := by
  rw [words, List.splitOnP_nil]
  rfl

/-- A text is cut into words at each blank. -/
theorem words_append_cons {c : Char} (hc : isBlank c = true) (t u : Text) :
    words (t ++ c :: u) = words t ++ words u := by
  rw [words, List.splitOnP_append_cons t u hc, List.filter_append, words, words]

/-- A blank in front of a text belongs to no word. -/
theorem words_cons {c : Char} (hc : isBlank c = true) (t : Text) : words (c :: t) = words t := by
  have hcut := words_append_cons hc [] t
  rwa [words_nil, List.nil_append, List.nil_append] at hcut

/-- Blanks in front of a text belong to no word. -/
theorem words_blanks_append {front : Text} (hfront : ∀ b ∈ front, isBlank b = true) (t : Text) :
    words (front ++ t) = words t := by
  induction front with
  | nil => rfl
  | cons c front ih =>
    obtain ⟨hc, hrest⟩ := List.forall_mem_cons.mp hfront
    rw [List.cons_append, words_cons hc, ih hrest]

/-- A text of blanks has no words. -/
theorem words_of_blanks {t : Text} (ht : ∀ b ∈ t, isBlank b = true) : words t = [] := by
  have hcut := words_blanks_append ht []
  rwa [List.append_nil, words_nil] at hcut

/-- Blanks behind a text belong to no word. -/
theorem words_append_blanks (t : Text) {back : Text} (hback : ∀ b ∈ back, isBlank b = true) :
    words (t ++ back) = words t := by
  cases back with
  | nil => rw [List.append_nil]
  | cons c back =>
    obtain ⟨hc, hrest⟩ := List.forall_mem_cons.mp hback
    rw [words_append_cons hc, words_of_blanks hrest, List.append_nil]

/-- A word has itself as its only word. -/
theorem words_of_isWordText {w : Text} (hw : IsWordText w) : words w = [w] := by
  have hjoined : words (unwords [w]) = [w] := words_unwords (List.forall_mem_singleton.mpr hw)
  rwa [unwords_singleton] at hjoined

/-- Words have themselves as their words. -/
theorem flatMap_words {ws : List Text} (hws : ∀ w ∈ ws, IsWordText w) : ws.flatMap words = ws := by
  induction ws with
  | nil => rfl
  | cons w ws ih =>
    obtain ⟨hw, hrest⟩ := List.forall_mem_cons.mp hws
    rw [List.flatMap_cons, words_of_isWordText hw, ih hrest, List.singleton_append]

/-- A word in front of a text that is empty or goes on with a blank is its first word. -/
theorem words_append_of_isWordText {w : Text} (hw : IsWordText w) {behind : Text}
    (hbehind : ∀ c ∈ behind.head?, isBlank c = true) : words (w ++ behind) = w :: words behind := by
  cases behind with
  | nil => rw [List.append_nil, words_of_isWordText hw, words_nil]
  | cons c behind =>
    have hc : isBlank c = true := hbehind c rfl
    rw [words_append_cons hc, words_of_isWordText hw, words_cons hc, List.singleton_append]

/-- A text is what is left of it when trimmed, with blanks around. -/
theorem exists_eq_append_trim (t : Text) : ∃ front back, t = front ++ trim t ++ back ∧
    (∀ b ∈ front, isBlank b = true) ∧ ∀ b ∈ back, isBlank b = true := by
  have hstart : t.takeWhile isBlank ++ trimStart t = t := List.takeWhile_append_dropWhile
  have hend : trim t ++ ((trimStart t).reverse.takeWhile isBlank).reverse = trimStart t := by
    rw [trim, trimEnd, ← List.reverse_append, List.takeWhile_append_dropWhile, List.reverse_reverse]
  refine ⟨t.takeWhile isBlank, ((trimStart t).reverse.takeWhile isBlank).reverse, ?_, ?_, ?_⟩
  · rw [List.append_assoc, hend, hstart]
  · exact fun b hb => List.mem_takeWhile_imp hb
  · exact fun b hb => List.mem_takeWhile_imp (List.mem_reverse.mp hb)

/-- A text has the words that it has when trimmed. -/
@[simp] theorem words_trim (t : Text) : words (trim t) = words t := by
  obtain ⟨front, back, ht, hfront, hback⟩ := exists_eq_append_trim t
  calc words (trim t)
      = words (front ++ trim t ++ back) := by
        rw [words_append_blanks _ hback, words_blanks_append hfront]
    _ = words t := by rw [← ht]

/-- No piece of a text that is cut at its blanks holds a blank. -/
theorem isBlank_of_mem_splitOnP {t piece : Text} (h : piece ∈ t.splitOnP isBlank) :
    ∀ c ∈ piece, isBlank c = false := by
  induction t generalizing piece with
  | nil =>
    rw [List.splitOnP_nil] at h
    simp [List.mem_singleton.mp h]
  | cons d t ih =>
    rw [List.splitOnP_cons_eq_if_modifyHead] at h
    by_cases hd : isBlank d = true
    · rw [if_pos hd] at h
      rcases List.mem_cons.mp h with rfl | h
      · simp
      · exact ih h
    · obtain ⟨first, more, hpieces⟩ := List.exists_cons_of_ne_nil (List.splitOnP_ne_nil isBlank t)
      rw [hpieces] at ih
      rw [if_neg hd, hpieces, List.modifyHead_cons] at h
      rcases List.mem_cons.mp h with rfl | h
      · exact List.forall_mem_cons.mpr ⟨by simpa using hd, ih List.mem_cons_self⟩
      · exact ih (List.mem_cons_of_mem first h)

/-- The words of a text are words. -/
theorem isWordText_of_mem_words {t w : Text} (h : w ∈ words t) : IsWordText w := by
  obtain ⟨hpiece, hne⟩ := List.mem_filter.mp h
  exact ⟨by simpa using hne, isBlank_of_mem_splitOnP hpiece⟩

/-- What a text starts with that does not start with a blank is a word. -/
theorem isWordText_breakWord {c : Char} (hc : isBlank c = false) (t : Text) :
    IsWordText (breakWord (c :: t)).1 := by
  refine ⟨?_, fun b hb => by simpa using List.mem_takeWhile_imp hb⟩
  rw [breakWord, List.takeWhile_cons_of_pos (by simp [hc])]
  exact List.cons_ne_nil _ _

/-- Behind the word with which a text starts stands a blank, or the text ends. -/
theorem isBlank_of_mem_head?_breakWord (t : Text) :
    ∀ c ∈ (breakWord t).2.head?, isBlank c = true := by
  intro c hc
  have hhead := List.head?_dropWhile_not (!isBlank ·) t
  rw [breakWord] at hc
  rw [hc] at hhead
  simpa using hhead

/-- Exactly a text of blanks has no words. -/
theorem words_eq_nil_iff {t : Text} : words t = [] ↔ trim t = [] := by
  constructor
  · intro h
    by_contra hne
    obtain ⟨c, rest, hc⟩ := List.exists_cons_of_ne_nil hne
    have hcut := words_append_of_isWordText (isWordText_breakWord (isBlank_of_trim hc) rest)
      (isBlank_of_mem_head?_breakWord (c :: rest))
    rw [breakWord_append, ← hc, words_trim, h] at hcut
    cases hcut
  · intro h
    exact words_of_blanks (trim_eq_nil_iff.mp h)

/-- Joined lines have the words of the lines. -/
theorem words_unlines (ls : List Text) : words (unlines ls) = ls.flatMap words := by
  induction ls with
  | nil => exact words_nil
  | cons l ls ih =>
    by_cases hls : ls = []
    · rw [hls, unlines_singleton, List.flatMap_singleton]
    · rw [unlines_cons hls, words_append_cons rfl, ih, List.flatMap_cons]

/-- Joined lines are all blank exactly when each line is. -/
theorem trim_unlines_eq_nil_iff {ls : List Text} :
    trim (unlines ls) = [] ↔ ∀ l ∈ ls, trim l = [] := by
  simp only [← words_eq_nil_iff, words_unlines, List.flatMap_eq_nil_iff]

/-- A text stays the same when trimmed exactly when what is put behind a blank is all blank. -/
theorem trim_append_cons_eq_iff {c : Char} (hc : isBlank c = true) (t u : Text) :
    trim (t ++ c :: u) = trim t ↔ trim u = [] := by
  constructor
  · intro h
    have hwords : words (t ++ c :: u) = words t := by rw [← words_trim, h, words_trim]
    rw [words_append_cons hc, eq_comm, List.self_eq_append_right] at hwords
    exact words_eq_nil_iff.mp hwords
  · intro h
    exact trim_append_blanks t (List.forall_mem_cons.mpr ⟨hc, trim_eq_nil_iff.mp h⟩)

/-- Whether a text starts with words, each behind blanks, and goes on with a rest. Behind each of
the words stands a blank, or the text ends. -/
inductive StartsWithWords : Text → List Text → Text → Prop
  | nil (t : Text) : StartsWithWords t [] t
  | cons {gap word behind rest : Text} {ws : List Text} (hgap : ∀ b ∈ gap, isBlank b = true)
      (hword : IsWordText word) (hbehind : ∀ c ∈ behind.head?, isBlank c = true)
      (hrest : StartsWithWords behind ws rest) :
      StartsWithWords (gap ++ (word ++ behind)) (word :: ws) rest

/-- A text that is not all blank starts with its first word. -/
theorem StartsWithWords.of_trimStart {t more rest : Text} {c : Char} {ws : List Text}
    (h : trimStart t = c :: more) (hrest : StartsWithWords (breakWord (c :: more)).2 ws rest) :
    StartsWithWords t ((breakWord (c :: more)).1 :: ws) rest := by
  have ht : t.takeWhile isBlank ++ ((breakWord (c :: more)).1 ++ (breakWord (c :: more)).2) = t := by
    rw [breakWord_append, ← h]
    exact List.takeWhile_append_dropWhile
  have hgap : ∀ b ∈ t.takeWhile isBlank, isBlank b = true := fun b hb => List.mem_takeWhile_imp hb
  have hstarts : StartsWithWords
      (t.takeWhile isBlank ++ ((breakWord (c :: more)).1 ++ (breakWord (c :: more)).2))
      ((breakWord (c :: more)).1 :: ws) rest :=
    .cons hgap (isWordText_breakWord (isBlank_of_trimStart h) more)
      (isBlank_of_mem_head?_breakWord (c :: more)) hrest
  rwa [ht] at hstarts

/-- A text that starts with words has these words and those of the rest. -/
theorem StartsWithWords.words_eq {t rest : Text} {ws : List Text} (h : StartsWithWords t ws rest) :
    words t = ws ++ words rest := by
  induction h with
  | nil t => rfl
  | cons hgap hword hbehind _ ih =>
    rw [words_blanks_append hgap, words_append_of_isWordText hword hbehind, ih, List.cons_append]

/-- A text that goes on behind words has more words than these. -/
theorem StartsWithWords.length_lt {t rest : Text} {ws : List Text} (h : StartsWithWords t ws rest)
    (hrest : trim rest ≠ []) : ws.length < (words t).length := by
  have hpositive : 0 < (words rest).length :=
    List.length_pos_iff.mpr fun hnil => hrest (words_eq_nil_iff.mp hnil)
  rw [h.words_eq, List.length_append]
  omega

/-- The words with which a text starts are words. -/
theorem StartsWithWords.isWordText {t rest : Text} {ws : List Text} (h : StartsWithWords t ws rest) :
    ∀ w ∈ ws, IsWordText w := by
  intro w hw
  refine isWordText_of_mem_words (t := t) ?_
  rw [h.words_eq]
  exact List.mem_append_left _ hw

end Marginalia.Text
