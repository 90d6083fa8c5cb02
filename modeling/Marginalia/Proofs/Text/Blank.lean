import Mathlib.Data.List.TakeWhile
import Mathlib.Data.Nat.Basic
import Marginalia.Text.Blank
import Marginalia.Text.Word

/-!
# Blanks around a text

Blanks at the ends of a text are cut off, whatever their number, and nothing else is when the text
starts and ends with characters that are none. No word character is blank, so names and numbers
are never cut.
-/

namespace Marginalia.Text

/-- The blank characters. -/
def blanks : List Char :=
  ([0x09, 0x0A, 0x0B, 0x0C, 0x0D, 0x20, 0x85, 0xA0, 0x1680, 0x2000, 0x2001, 0x2002, 0x2003, 0x2004,
    0x2005, 0x2006, 0x2007, 0x2008, 0x2009, 0x200A, 0x2028, 0x2029, 0x202F, 0x205F, 0x3000]).map
      Char.ofNat

/-- The blank characters are listed. -/
theorem mem_blanks_of_isBlank {c : Char} (h : isBlank c = true) : c ∈ blanks := by
  rw [blanks, ← Char.ofNat_toNat c]
  refine List.mem_map_of_mem ?_
  simp only [isBlank, Bool.or_eq_true, Bool.and_eq_true, decide_eq_true_eq, beq_iff_eq] at h
  simp only [List.mem_cons, List.not_mem_nil, or_false]
  omega

/-- No word character is blank. -/
theorem isBlank_of_isWord {c : Char} (h : isWord c = true) : isBlank c = false := by
  have hall : blanks.all (fun b => !isWord b) = true := by decide +kernel
  by_contra hc
  have hblank := List.all_eq_true.mp hall c (mem_blanks_of_isBlank (by simpa using hc))
  rw [h] at hblank
  cases hblank

/-- Blanks in front of a text are cut off. -/
theorem trimStart_blanks_append {front : Text} (hfront : ∀ b ∈ front, isBlank b = true) (t : Text) :
    trimStart (front ++ t) = trimStart t :=
  List.dropWhile_append_of_pos hfront

/-- A text that starts with a character that is not blank is left as it is. -/
theorem trimStart_cons {c : Char} (hc : isBlank c = false) (t : Text) :
    trimStart (c :: t) = c :: t :=
  List.dropWhile_cons_of_neg (by simp [hc])

/-- Blanks in front of a character that is none are cut off. -/
theorem trimStart_append {front : Text} (hfront : ∀ b ∈ front, isBlank b = true) {c : Char}
    (hc : isBlank c = false) (t : Text) : trimStart (front ++ c :: t) = c :: t := by
  rw [trimStart_blanks_append hfront, trimStart_cons hc]

/-- Behind the blanks in front stands a character that is none. -/
theorem isBlank_of_trimStart {c : Char} {t rest : Text} (h : trimStart t = c :: rest) :
    isBlank c = false := by
  have hhead := List.head?_dropWhile_not isBlank t
  rw [trimStart] at h
  rw [h] at hhead
  simpa using hhead

/-- Whether a text has no blanks at its ends. -/
def IsTrimmed (t : Text) : Prop :=
  (∀ c ∈ t.head?, isBlank c = false) ∧ ∀ c ∈ t.getLast?, isBlank c = false

instance (t : Text) : Decidable (IsTrimmed t) :=
  decidable_of_iff (t.head?.all (!isBlank ·) = true ∧ t.getLast?.all (!isBlank ·) = true) <| by
    simp [IsTrimmed, Option.all_eq_true]

/-- A text of characters that are not blank has no blanks at its ends. -/
theorem isTrimmed_of_forall {t : Text} (h : ∀ c ∈ t, isBlank c = false) : IsTrimmed t :=
  ⟨fun c hc => h c (List.mem_of_mem_head? hc), fun c hc => h c (List.mem_of_mem_getLast? hc)⟩

/-- A text between two characters that are not blank has no blanks at its ends. -/
theorem isTrimmed_cons_append {a b : Char} (ha : isBlank a = false) (hb : isBlank b = false)
    (t : Text) : IsTrimmed (a :: t ++ [b]) := by
  constructor
  · intro c hc
    simp only [List.cons_append, List.head?_cons, Option.mem_def, Option.some.injEq] at hc
    rwa [← hc]
  · intro c hc
    simp only [List.getLast?_append, List.getLast?_singleton, Option.some_or, Option.mem_def,
      Option.some.injEq] at hc
    rwa [← hc]

/-- A text without blanks in front is left as it is at its start. -/
theorem trimStart_of_head? {t : Text} (h : ∀ c ∈ t.head?, isBlank c = false) : trimStart t = t := by
  cases t with
  | nil => rfl
  | cons c t => exact trimStart_cons (h c rfl) t

/-- Exactly the blanks around a text that has none at its ends are cut off. -/
theorem trim_append (front back : Text) {t : Text} (hfront : ∀ b ∈ front, isBlank b = true)
    (hback : ∀ b ∈ back, isBlank b = true) (hne : t ≠ []) (h : IsTrimmed t) :
    trim (front ++ t ++ back) = t := by
  have hstart : trimStart (front ++ t ++ back) = t ++ back := by
    rw [List.append_assoc, trimStart_blanks_append hfront]
    refine trimStart_of_head? fun c hc => h.1 c ?_
    obtain ⟨a, rest, rfl⟩ := List.exists_cons_of_ne_nil hne
    exact hc
  have hreverse : trimStart t.reverse = t.reverse := by
    refine trimStart_of_head? fun c hc => h.2 c ?_
    rwa [List.head?_reverse] at hc
  have hend : ∀ b ∈ back.reverse, isBlank b = true := fun b hb => hback b (List.mem_reverse.mp hb)
  have hcut : (t ++ back).reverse.dropWhile isBlank = t.reverse := by
    rw [List.reverse_append, List.dropWhile_append_of_pos hend]
    exact hreverse
  rw [trim, hstart, trimEnd, hcut, List.reverse_reverse]

/-- A text without blanks at its ends is left as it is. -/
theorem trim_of_isTrimmed {t : Text} (h : IsTrimmed t) : trim t = t := by
  by_cases hne : t = []
  · rw [hne]
    rfl
  · simpa using trim_append [] [] (by simp) (by simp) hne h

/-- Where a text is not all blank, only the blanks at its own front are cut off. -/
theorem trimStart_append_of_ne_nil {t : Text} (h : trimStart t ≠ []) (u : Text) :
    trimStart (t ++ u) = trimStart t ++ u := by
  rw [trimStart] at h
  rw [trimStart, trimStart, List.dropWhile_append, if_neg (by simpa using h)]

/-- Cutting off the blanks at the end leaves a front of the text. -/
theorem trimEnd_isPrefix (t : Text) : trimEnd t <+: t := by
  simpa [trimEnd] using List.reverse_prefix.mpr (List.dropWhile_suffix isBlank (l := t.reverse))

/-- What is left of a text without the blanks at its end stays when text is added. -/
theorem trimEnd_prefix_append (t u : Text) : trimEnd t <+: trimEnd (t ++ u) := by
  have hfront : trimEnd t <+: t := trimEnd_isPrefix t
  rw [trimEnd] at hfront
  rw [trimEnd, trimEnd, List.reverse_append, List.dropWhile_append]
  split
  · exact List.prefix_refl _
  · rw [List.reverse_append, List.reverse_reverse]
    exact hfront.trans (List.prefix_append _ _)

/-- Exactly a text of blanks is left empty without the blanks at its ends. -/
theorem trim_eq_nil_iff {t : Text} : trim t = [] ↔ ∀ c ∈ t, isBlank c = true := by
  constructor
  · intro h c hc
    by_contra hblank
    have hstart : trimStart t ≠ [] := by
      intro hnil
      exact hblank (List.dropWhile_eq_nil_iff.mp hnil c hc)
    obtain ⟨a, rest, ha⟩ := List.exists_cons_of_ne_nil hstart
    have hself : trimEnd [a] = [a] := by simp [trimEnd, isBlank_of_trimStart ha]
    have hkept : trimEnd [a] <+: trimEnd ([a] ++ rest) := trimEnd_prefix_append [a] rest
    rw [hself, List.singleton_append, ← ha] at hkept
    change [a] <+: trim t at hkept
    rw [h, List.prefix_nil] at hkept
    cases hkept
  · intro h
    have hstart : trimStart t = [] := List.dropWhile_eq_nil_iff.mpr h
    rw [trim, hstart]
    rfl

/-- What is left of a trimmed text starts with a character that is not blank. -/
theorem isBlank_of_trim {t rest : Text} {c : Char} (h : trim t = c :: rest) : isBlank c = false := by
  have hfront : c :: rest <+: trimStart t := h ▸ trimEnd_isPrefix (trimStart t)
  obtain ⟨behind, hbehind⟩ := hfront
  exact isBlank_of_trimStart hbehind.symm

/-- A trimmed text has no blanks at its ends. -/
theorem isTrimmed_trim (t : Text) : IsTrimmed (trim t) := by
  constructor
  · intro c hc
    obtain ⟨rest, hrest⟩ := List.head?_eq_some_iff.mp hc
    exact isBlank_of_trim hrest
  · intro c hc
    rw [trim, trimEnd, List.getLast?_reverse] at hc
    have hhead := List.head?_dropWhile_not isBlank (trimStart t).reverse
    rw [hc] at hhead
    simpa using hhead

/-- A trimmed text is a piece of the text. -/
theorem trim_isInfix (t : Text) : trim t <:+: t :=
  (trimEnd_isPrefix (trimStart t)).isInfix.trans (List.dropWhile_suffix isBlank).isInfix

/-- What is left of a text without the blanks at its ends stays when text is added. -/
theorem trim_prefix_append (t u : Text) : trim t <+: trim (t ++ u) := by
  by_cases h : trimStart t = []
  · rw [trim, h]
    exact List.nil_prefix
  · rw [trim, trim, trimStart_append_of_ne_nil h]
    exact trimEnd_prefix_append _ _

/-- Blanks at the end of a text are cut off. -/
theorem trimEnd_append_blanks (t : Text) {back : Text} (hback : ∀ b ∈ back, isBlank b = true) :
    trimEnd (t ++ back) = trimEnd t := by
  have hreverse : ∀ b ∈ back.reverse, isBlank b = true := fun b hb =>
    hback b (List.mem_reverse.mp hb)
  rw [trimEnd, trimEnd, List.reverse_append, List.dropWhile_append_of_pos hreverse]

/-- Blanks behind a text are cut off with those at its ends. -/
theorem trim_append_blanks (t : Text) {back : Text} (hback : ∀ b ∈ back, isBlank b = true) :
    trim (t ++ back) = trim t := by
  by_cases h : trimStart t = []
  · have hall : ∀ b ∈ t, isBlank b = true := List.dropWhile_eq_nil_iff.mp h
    have hblank : trimStart back = [] := List.dropWhile_eq_nil_iff.mpr hback
    rw [trim, trim, trimStart_blanks_append hall, hblank, h]
  · rw [trim, trim, trimStart_append_of_ne_nil h, trimEnd_append_blanks _ hback]

/-- A character that is not blank is left at the end of a text. -/
theorem getLast?_trim {t : Text} {c : Char} (h : t.getLast? = some c) (hc : isBlank c = false) :
    (trim t).getLast? = some c := by
  obtain ⟨front, rfl⟩ := List.getLast?_eq_some_iff.mp h
  have hstart : trimStart (front ++ [c]) = trimStart front ++ [c] := by
    by_cases hfront : trimStart front = []
    · have hblank : ∀ b ∈ front, isBlank b = true := List.dropWhile_eq_nil_iff.mp hfront
      rw [trimStart_append hblank hc, hfront, List.nil_append]
    · exact trimStart_append_of_ne_nil hfront [c]
  have hend : (trimStart front ++ [c]).reverse.dropWhile isBlank =
      c :: (trimStart front).reverse := by
    rw [List.reverse_append]
    exact List.dropWhile_cons_of_neg (by simp [hc])
  rw [trim, hstart, trimEnd, hend]
  simp

/-- A space is blank. -/
theorem forall_mem_space : ∀ b ∈ [' '], isBlank b = true :=
  List.forall_mem_singleton.mpr rfl

/-- A space in front of a text without blanks at its ends is cut off. -/
theorem trim_space_cons {t : Text} (h : IsTrimmed t) : trim (' ' :: t) = t := by
  have hstart : trimStart (' ' :: t) = trimStart t := trimStart_blanks_append forall_mem_space t
  rw [trim, hstart]
  exact trim_of_isTrimmed h

/-- A space behind a text without blanks at its ends is cut off. -/
theorem trim_append_space {t : Text} (hne : t ≠ []) (h : IsTrimmed t) :
    trim (t ++ [' ']) = t :=
  trim_append [] [' '] (by simp) forall_mem_space hne h

/-- A text that starts and ends with texts without blanks at their ends has none either. -/
theorem isTrimmed_append {t v : Text} (ht : t ≠ []) (hv : v ≠ []) (htrim : IsTrimmed t)
    (hvtrim : IsTrimmed v) (u : Text) : IsTrimmed (t ++ u ++ v) := by
  constructor
  · intro c hc
    obtain ⟨a, rest, rfl⟩ := List.exists_cons_of_ne_nil ht
    exact htrim.1 c hc
  · intro c hc
    rw [List.getLast?_append] at hc
    cases hb : v.getLast? with
    | none => exact absurd (List.getLast?_eq_none_iff.mp hb) hv
    | some b =>
      rw [hb, Option.some_or] at hc
      exact hvtrim.2 c (hb.trans hc)

/-- Words with a blank between. -/
def unwords (ws : List Text) : Text :=
  List.intercalate [' '] ws

@[simp] theorem unwords_nil : unwords [] = [] := rfl

@[simp] theorem unwords_singleton (w : Text) : unwords [w] = w := by
  simp [unwords]

/-- The first of several words is followed by a blank and the others. -/
theorem unwords_cons_cons (w v : Text) (ws : List Text) :
    unwords (w :: v :: ws) = w ++ ' ' :: unwords (v :: ws) := by
  simp [unwords, List.intercalate_cons_cons]

/-- Whether a text is a word: not empty and without blanks. -/
def IsWordText (w : Text) : Prop :=
  w ≠ [] ∧ ∀ c ∈ w, isBlank c = false

/-- Words with blanks between are not empty. -/
theorem unwords_ne_nil {w : Text} (hw : IsWordText w) (ws : List Text) : unwords (w :: ws) ≠ [] := by
  cases ws with
  | nil => simpa using hw.1
  | cons v ws => simp [unwords_cons_cons, hw.1]

/-- Words with blanks between have no blanks at the ends. -/
theorem isTrimmed_unwords {ws : List Text} (hws : ∀ w ∈ ws, IsWordText w) :
    IsTrimmed (unwords ws) := by
  induction ws with
  | nil => exact isTrimmed_of_forall (by simp)
  | cons w ws ih =>
    obtain ⟨hw, hrest⟩ := List.forall_mem_cons.mp hws
    cases ws with
    | nil => simpa using isTrimmed_of_forall hw.2
    | cons v ws =>
      have hv := hrest v List.mem_cons_self
      have := isTrimmed_append hw.1 (unwords_ne_nil hv ws) (isTrimmed_of_forall hw.2) (ih hrest) [' ']
      simpa [unwords_cons_cons] using this

/-- Words with blanks between are read back. -/
theorem words_unwords {ws : List Text} (hws : ∀ w ∈ ws, IsWordText w) : words (unwords ws) = ws := by
  induction ws with
  | nil => rfl
  | cons w ws ih =>
    obtain ⟨hw, hrest⟩ := List.forall_mem_cons.mp hws
    have hne : ∀ rest, (w :: rest).filter (fun v => !v.isEmpty) =
        w :: rest.filter fun v => !v.isEmpty := fun rest =>
      List.filter_cons_of_pos (by simpa using hw.1)
    cases ws with
    | nil =>
      rw [unwords_singleton, words, List.splitOnP_eq_singleton hw.2, hne, List.filter_nil]
    | cons v ws =>
      have hcut := List.splitOnP_append_cons_of_forall_mem hw.2 ' ' (by decide) (unwords (v :: ws))
      rw [unwords_cons_cons, words, hcut, hne]
      exact congrArg _ (ih hrest)

end Marginalia.Text
