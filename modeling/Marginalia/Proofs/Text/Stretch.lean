import Marginalia.Proofs.Text.Blank

/-!
# Stretches

Keys, names and words are nonempty stretches of characters of one class. A stretch is taken whole
where the text goes on with a character of another class, which is how they are all read.
-/

namespace Marginalia.Text

/-- A nonempty text of characters of one class. -/
structure Stretch (test : Char → Bool) where
  text : Text
  ne_nil : text ≠ []
  forall_mem : ∀ c ∈ text, test c = true

namespace Stretch

variable {test : Char → Bool} {rest : Text}

/-- A stretch is taken whole from a text that goes on with another character. -/
theorem takeWhile_append (r : Stretch test) (h : ∀ c ∈ rest.head?, test c = false) :
    (r.text ++ rest).takeWhile test = r.text := by
  rw [List.takeWhile_append_of_pos r.forall_mem]
  cases rest with
  | nil => simp
  | cons c rest => rw [List.takeWhile_cons_of_neg (by simp [h c rfl]), List.append_nil]

/-- Behind a stretch stands what the text goes on with. -/
theorem dropWhile_append (r : Stretch test) (h : ∀ c ∈ rest.head?, test c = false) :
    (r.text ++ rest).dropWhile test = rest := by
  rw [List.dropWhile_append_of_pos r.forall_mem]
  cases rest with
  | nil => rfl
  | cons c rest => exact List.dropWhile_cons_of_neg (by simp [h c rfl])

/-- A character outside the class does not stand in a stretch. -/
theorem notMem (r : Stretch test) {c : Char} (hc : test c = false) : c ∉ r.text := by
  intro hmem
  rw [r.forall_mem c hmem] at hc
  cases hc

end Stretch

/-- Whether a character may stand in a key or in the name of a tag. -/
def isNameChar (c : Char) : Bool :=
  isWord c || c == '.'

/-- A character of a key or a name is not blank. -/
theorem isBlank_of_isNameChar {c : Char} (h : isNameChar c = true) : isBlank c = false := by
  rw [isNameChar, Bool.or_eq_true, beq_iff_eq] at h
  rcases h with h | rfl
  · exact isBlank_of_isWord h
  · decide

/-- A key or a name is a word. -/
theorem Stretch.isWordText (r : Stretch isNameChar) : IsWordText r.text :=
  ⟨r.ne_nil, fun c hc => isBlank_of_isNameChar (r.forall_mem c hc)⟩

end Marginalia.Text
