import Mathlib.Data.List.Basic
import Marginalia.Proofs.Text.Words
import Marginalia.Tag.Fields

/-!
# What the fields of a tag hold

The first words of a text are taken exactly as long as it has that many, and what stands behind them
is trimmed. So the fields of a tag hold the words of its text, all of them and in order: a parameter
with three words or more has two of them and the trimmed rest as its fields, a result with two words
or more has one and the rest, and every other tag that is no block tag has a field for each word.
-/

namespace Marginalia.Tag

open Text

/-- Words that are taken from a text stand at its start, and the rest is trimmed. -/
theorem exists_of_takeWords {n : Nat} {t last : Text} {ws : List Text}
    (h : takeWords n t = some (ws, last)) :
    ∃ rest, StartsWithWords t ws rest ∧ ws.length = n ∧ last = trim rest := by
  induction n generalizing t ws with
  | zero =>
    obtain ⟨rfl, rfl⟩ := Prod.mk.inj (Option.some.inj h)
    exact ⟨t, .nil t, rfl, rfl⟩
  | succ n ih =>
    rw [takeWords] at h
    cases hstart : trimStart t with
    | nil =>
      rw [hstart] at h
      cases h
    | cons c more =>
      rw [hstart] at h
      obtain ⟨⟨ws', last'⟩, htaken, hparts⟩ := Option.map_eq_some_iff.mp h
      obtain ⟨rfl, rfl⟩ := Prod.mk.inj hparts
      obtain ⟨rest, hrest, hlength, hlast⟩ := ih htaken
      exact ⟨rest, .of_trimStart hstart hrest, by rw [List.length_cons, hlength], hlast⟩

/-- Words are taken from a text that has as many. -/
theorem exists_takeWords {n : Nat} {t : Text} (h : n ≤ (words t).length) :
    ∃ found, takeWords n t = some found := by
  induction n generalizing t with
  | zero => exact ⟨_, rfl⟩
  | succ n ih =>
    rw [takeWords]
    cases hstart : trimStart t with
    | nil =>
      have hnone : words t = [] := words_of_blanks (List.dropWhile_eq_nil_iff.mp hstart)
      rw [hnone] at h
      cases h
    | cons c more =>
      have hwords := (StartsWithWords.of_trimStart hstart (.nil _)).words_eq
      rw [hwords, List.singleton_append, List.length_cons] at h
      obtain ⟨found, hfound⟩ := ih (Nat.le_of_succ_le_succ h)
      exact ⟨_, Option.map_eq_some_iff.mpr ⟨found, hfound, rfl⟩⟩

/-- The fields of a tag that is no block tag are some leading words and the trimmed rest, if its
name asks for that and there is a rest, and otherwise its words. -/
theorem fields_cases {tag : Tag} (hblock : tag.isBlock = false) :
    (∃ ws rest, StartsWithWords tag.content ws rest ∧ ws.length = leadingWords tag.name ∧
      0 < ws.length ∧ trim rest ≠ [] ∧ tag.fields = ws ++ [trim rest]) ∨
    ((leadingWords tag.name = 0 ∨ (words tag.content).length ≤ leadingWords tag.name) ∧
      tag.fields = words tag.content) := by
  rw [fields, if_neg (by simp [hblock])]
  cases hleading : leadingWords tag.name with
  | zero => exact .inr ⟨.inl rfl, rfl⟩
  | succ n =>
    cases htaken : takeWords (n + 1) tag.content with
    | none =>
      have hfew : (words tag.content).length < n + 1 := by
        by_contra hnot
        obtain ⟨found, hfound⟩ := exists_takeWords (Nat.le_of_not_lt hnot)
        rw [htaken] at hfound
        cases hfound
      exact .inr ⟨.inr hfew.le, by simp only [htaken]⟩
    | some found =>
      obtain ⟨ws, last⟩ := found
      obtain ⟨rest, hstarts, hlength, rfl⟩ := exists_of_takeWords htaken
      cases hrest : trim rest with
      | nil =>
        have hwords := hstarts.words_eq
        rw [words_eq_nil_iff.mpr hrest, List.append_nil] at hwords
        exact .inr ⟨.inr (by rw [hwords, hlength]), by simp only [htaken, hrest]⟩
      | cons c more =>
        have hpositive : 0 < ws.length := by omega
        refine .inl ⟨ws, rest, hstarts, hlength, hpositive, by simp [hrest], ?_⟩
        simp only [htaken, hrest]

/-- The fields of a tag that is no block tag have no blanks at their ends and are not empty. -/
theorem isTrimmed_of_mem_fields {tag : Tag} (hblock : tag.isBlock = false) :
    ∀ field ∈ tag.fields, field ≠ [] ∧ IsTrimmed field := by
  have hword {w : Text} (hw : IsWordText w) : w ≠ [] ∧ IsTrimmed w :=
    ⟨hw.1, isTrimmed_of_forall hw.2⟩
  intro field hfield
  rcases fields_cases hblock with ⟨ws, rest, hstarts, -, -, hrest, hfields⟩ | ⟨-, hfields⟩
  · rw [hfields, List.mem_append, List.mem_singleton] at hfield
    rcases hfield with hmem | rfl
    · exact hword (hstarts.isWordText field hmem)
    · exact ⟨hrest, isTrimmed_trim rest⟩
  · rw [hfields] at hfield
    exact hword (isWordText_of_mem_words hfield)

/-- The words of the fields of a tag are the words of its text. -/
theorem flatMap_words_fields (tag : Tag) : tag.fields.flatMap words = words tag.content := by
  cases hblock : tag.isBlock with
  | true => rw [fields, if_pos hblock, List.flatMap_singleton]
  | false =>
    rcases fields_cases hblock with ⟨ws, rest, hstarts, -, -, -, hfields⟩ | ⟨-, hfields⟩
    · rw [hfields, List.flatMap_append, flatMap_words hstarts.isWordText, List.flatMap_singleton,
        words_trim, hstarts.words_eq]
    · rw [hfields, flatMap_words fun w hw => isWordText_of_mem_words hw]

/-- A tag that is no block tag, with a name that asks for leading words and with more words than
these, has the leading words and the trimmed rest as its fields. -/
theorem exists_fields_eq {tag : Tag} (hblock : tag.isBlock = false)
    (hleading : 0 < leadingWords tag.name)
    (hmore : leadingWords tag.name < (words tag.content).length) :
    ∃ ws rest, StartsWithWords tag.content ws rest ∧ ws.length = leadingWords tag.name ∧
      words tag.content = ws ++ words rest ∧ tag.fields = ws ++ [trim rest] := by
  rcases fields_cases hblock with ⟨ws, rest, hstarts, hlength, -, -, hfields⟩ | ⟨hfew, -⟩
  · exact ⟨ws, rest, hstarts, hlength, hstarts.words_eq, hfields⟩
  · omega

/-- No word is lost in the fields of a tag: those of all its fields are those of its text, in order.
A parameter with at least three words has three fields, its first two words and the trimmed rest of
its text; a result with at least two words has two fields, its first word and the trimmed rest; and
every other tag that is no block tag has its words as fields. -/
theorem fields_keep_all_words (tag : Tag) :
    tag.fields.flatMap words = words tag.content ∧
    (tag.name = "param".toList → 3 ≤ (words tag.content).length →
      ∃ first second rest, StartsWithWords tag.content [first, second] rest ∧
        words tag.content = first :: second :: words rest ∧
        tag.fields = [first, second, trim rest]) ∧
    (tag.name = "returns".toList → 2 ≤ (words tag.content).length →
      ∃ first rest, StartsWithWords tag.content [first] rest ∧
        words tag.content = first :: words rest ∧ tag.fields = [first, trim rest]) ∧
    (tag.isBlock = false → ¬ (tag.name = "param".toList ∧ 3 ≤ (words tag.content).length) →
      ¬ (tag.name = "returns".toList ∧ 2 ≤ (words tag.content).length) →
      tag.fields = words tag.content) := by
  refine ⟨flatMap_words_fields tag, ?_, ?_, ?_⟩
  · intro hname hmany
    have hleading : leadingWords tag.name = 2 := by rw [hname]; rfl
    have hblock : tag.isBlock = false := by rw [isBlock, hname]; rfl
    obtain ⟨ws, rest, hstarts, hlength, hwords, hfields⟩ :=
      exists_fields_eq hblock (by omega) (by omega)
    obtain ⟨first, second, rfl⟩ := List.length_eq_two.mp (hlength.trans hleading)
    exact ⟨first, second, rest, hstarts, hwords, hfields⟩
  · intro hname hmany
    have hleading : leadingWords tag.name = 1 := by rw [hname]; rfl
    have hblock : tag.isBlock = false := by rw [isBlock, hname]; rfl
    obtain ⟨ws, rest, hstarts, hlength, hwords, hfields⟩ :=
      exists_fields_eq hblock (by omega) (by omega)
    obtain ⟨first, rfl⟩ := List.length_eq_one_iff.mp (hlength.trans hleading)
    exact ⟨first, rest, hstarts, hwords, hfields⟩
  · intro hblock hparam hreturns
    rcases fields_cases hblock with ⟨ws, rest, hstarts, hlength, hpositive, hrest, -⟩ | ⟨-, hfields⟩
    · exfalso
      have hmore := hstarts.length_lt hrest
      rw [leadingWords] at hlength
      split at hlength
      · rename_i hname
        exact hparam ⟨hname, by omega⟩
      · split at hlength
        · rename_i hname
          exact hreturns ⟨hname, by omega⟩
        · omega
    · exact hfields

/-- A parameter with blanks of several kinds keeps those inside its free text, one with too few
words has a field for each, and a result has one word before its free text. -/
theorem fields_keep_all_words_blanks :
    let param : Tag := ⟨"param".toList, [], "a\t int  First  number\n".toList, 1⟩
    let short : Tag := ⟨"param".toList, [], "a int ".toList, 1⟩
    let result : Tag := ⟨"returns".toList, [], "int The   sum".toList, 1⟩
    3 ≤ (words param.content).length ∧
      param.fields = [['a'], "int".toList, "First  number".toList] ∧
      (∃ first second rest, StartsWithWords param.content [first, second] rest ∧
        words param.content = first :: second :: words rest ∧
        param.fields = [first, second, trim rest]) ∧
      short.fields = words short.content ∧
      ∃ first rest, StartsWithWords result.content [first] rest ∧
        words result.content = first :: words rest ∧ result.fields = [first, trim rest] := by
  intro param short result
  obtain ⟨-, hparam, -, -⟩ := fields_keep_all_words param
  obtain ⟨-, -, -, hshort⟩ := fields_keep_all_words short
  obtain ⟨-, -, hresult, -⟩ := fields_keep_all_words result
  have hmany : 3 ≤ (words param.content).length := by decide
  exact ⟨hmany, by decide, hparam rfl hmany, hshort rfl (by decide) (by decide),
    hresult rfl (by decide)⟩

end Marginalia.Tag
