import Marginalia.Proofs.Outcome
import Marginalia.Proofs.Tag.Line
import Marginalia.Proofs.Text.Words

/-!
# The grammar of tag lines

A tag line is blanks, an at sign, a name of groups of word characters with dots between, and then
the end of the line, or a blank and any text. The tags of a text are those of its tag lines, one for
each and in their order: a tag has the name and the number of its line, and a block tag takes the
lines up to the next tag line.
-/

namespace Marginalia.Tag

open Text

variable {initTag name inline line : Text} {n : Nat}

/-- Whether a text is a name: groups of word characters, none of them empty, with dots between. -/
def IsGroupedName (name : Text) : Prop :=
  ∃ groups : List Text, groups ≠ [] ∧ (∀ g ∈ groups, g ≠ [] ∧ ∀ c ∈ g, isWord c = true) ∧
    name = List.intercalate ['.'] groups

/-- Names are tested by their groups. -/
theorem isName_iff : isName name = true ↔ IsGroupedName name := by
  constructor
  · intro h
    refine ⟨name.splitOn '.', List.splitOn_ne_nil '.' name, fun g hg => ?_,
      (List.intercalate_splitOn '.').symm⟩
    have hgroup := List.all_eq_true.mp h g hg
    rw [Bool.and_eq_true] at hgroup
    exact ⟨by simpa using hgroup.1, List.all_eq_true.mp hgroup.2⟩
  · rintro ⟨groups, hne, hgroups, rfl⟩
    have hdots : ∀ g ∈ groups, '.' ∉ g := by
      intro g hg hdot
      have hword := (hgroups g hg).2 '.' hdot
      revert hword
      decide
    rw [isName, List.splitOn_intercalate '.' hdots hne, List.all_eq_true]
    intro g hg
    obtain ⟨hgne, hword⟩ := hgroups g hg
    rw [Bool.and_eq_true]
    exact ⟨by simpa using hgne, List.all_eq_true.mpr hword⟩

/-- Whether a line is a tag line with this name and text: blanks, an at sign and the name, and then
the end of the line or a blank and anything. The text starts behind the blanks. -/
def IsTagLine (line name inline : Text) : Prop :=
  ∃ front behind, line = front ++ '@' :: (name ++ behind) ∧ (∀ b ∈ front, isBlank b = true) ∧
    IsGroupedName name ∧ (∀ c ∈ behind.head?, isBlank c = true) ∧ inline = trimStart behind

/-- Exactly tag lines are read as such. -/
theorem ofLine?_eq_some_iff : ofLine? line = some (name, inline) ↔ IsTagLine line name inline := by
  constructor
  · intro h
    rw [ofLine?] at h
    split at h
    · rename_i rest hrest
      simp only [Option.ite_none_right_eq_some, Bool.and_eq_true, Option.some.injEq,
        Prod.mk.injEq] at h
      obtain ⟨⟨hname, hbehind⟩, rfl, rfl⟩ := h
      have hrestParts : (rest.takeWhile fun c => isWord c || c == '.') ++
          (rest.dropWhile fun c => isWord c || c == '.') = rest := List.takeWhile_append_dropWhile
      refine ⟨line.takeWhile isBlank, _, ?_, fun b hb => List.mem_takeWhile_imp hb,
        isName_iff.mp hname, fun c hc => ?_, rfl⟩
      · rw [hrestParts, ← hrest]
        exact List.takeWhile_append_dropWhile.symm
      · obtain ⟨more, hmore⟩ := List.head?_eq_some_iff.mp hc
        rw [hmore] at hbehind
        simpa using hbehind
    · cases h
  · rintro ⟨front, behind, rfl, hfront, hname, hbehind, rfl⟩
    exact ofLine?_append hfront (isName_iff.mpr hname) hbehind

/-- A tag line holds an at sign with the name. -/
theorem IsTagLine.isInfix (h : IsTagLine line name inline) : '@' :: name <:+: line := by
  obtain ⟨front, behind, rfl, -⟩ := h
  exact ⟨front, behind, by simp⟩

/-- Whether a line is a tag line. -/
def IsTagged (line : Text) : Prop :=
  ∃ name inline, IsTagLine line name inline

/-- Exactly lines that are no tag lines are not read as such. -/
theorem ofLine?_eq_none_iff : ofLine? line = none ↔ ¬ IsTagged line := by
  rw [Option.eq_none_iff_forall_ne_some]
  simp only [IsTagged, not_exists, ← ofLine?_eq_some_iff, Prod.forall, ne_eq]

instance : DecidablePred IsTagged := fun line =>
  decidable_of_iff (¬ ofLine? line = none) (not_congr ofLine?_eq_none_iff |>.trans not_not)

/-- Whether arguments are those of an opening tag with a text: none if the text has no word, the
first word alone if nothing but blanks stands behind it, and otherwise the first word and the
trimmed rest. -/
inductive IsKeyAndLabel (content : Text) : List Text → Prop
  | nothing (h : words content = []) : IsKeyAndLabel content []
  | key {key rest : Text} (h : StartsWithWords content [key] rest) (hrest : trim rest = []) :
      IsKeyAndLabel content [key]
  | label {key rest : Text} (h : StartsWithWords content [key] rest) (hrest : trim rest ≠ []) :
      IsKeyAndLabel content [key, trim rest]

/-- The arguments of an opening tag are those of its text. -/
theorem isKeyAndLabel_keyAndLabel (t : Text) : IsKeyAndLabel (trim t) (keyAndLabel (trim t)) := by
  cases htrim : trim t with
  | nil => exact .nothing words_nil
  | cons c rest =>
    have hhead : trimStart (c :: rest) = c :: rest := trimStart_cons (isBlank_of_trim htrim) rest
    have hstarts := StartsWithWords.of_trimStart hhead (.nil _)
    have hkey : (!(breakWord (c :: rest)).1.isEmpty) = true := by
      simpa using (hstarts.isWordText _ List.mem_cons_self).1
    have hcut : keyAndLabel (c :: rest) =
        [(breakWord (c :: rest)).1, trim (breakWord (c :: rest)).2].filter (!·.isEmpty) := rfl
    rw [hcut, List.filter_cons, if_pos hkey, List.filter_cons, List.filter_nil]
    by_cases hlabel : trim (breakWord (c :: rest)).2 = []
    · rw [if_neg (by simp [hlabel])]
      exact .key hstarts hlabel
    · rw [if_pos (by simpa using hlabel)]
      exact .label hstarts hlabel

/-- A key is a word, and a label, or else the key that stands in for it, is trimmed and not empty.
-/
theorem IsKeyAndLabel.isWordText {content key : Text} {more : List Text}
    (h : IsKeyAndLabel content (key :: more)) :
    IsWordText key ∧ more.head?.getD key ≠ [] ∧ IsTrimmed (more.head?.getD key) := by
  cases h with
  | key hstarts _ =>
    have hkey := hstarts.isWordText key List.mem_cons_self
    exact ⟨hkey, hkey.1, isTrimmed_of_forall hkey.2⟩
  | label hstarts hrest =>
    exact ⟨hstarts.isWordText key List.mem_cons_self, hrest, isTrimmed_trim _⟩

/-- Whether a tag has the text and the arguments that a tag line makes with the lines that follow
it. A block tag has all of these lines as its text and no arguments; any other tag has the text of
its line, and as its arguments the words of that or, for an opening tag, a key and a label. -/
structure IsMadeOf (initTag inline : Text) (following : List Text) (tag : Tag) : Prop where
  block : tag.isBlock = true →
    tag.content = trim (unlines (inline :: following)) ∧ tag.arguments = []
  content_eq : tag.isBlock = false → tag.content = trim inline
  words_eq : tag.isBlock = false → tag.name ≠ initTag → tag.arguments = words tag.content
  opening : tag.isBlock = false → tag.name = initTag → IsKeyAndLabel tag.content tag.arguments

/-- The tag of a tag line is made of its text and of the lines that follow it. -/
theorem isMadeOf_ofParts (initTag name inline : Text) (n : Nat) (following : List Text) :
    IsMadeOf initTag inline following (ofParts initTag name inline n following) := by
  by_cases hblock : isBlockName name = true
  · rw [ofParts, if_pos hblock]
    have hnot (h : isBlockName name = false) : False := by
      rw [hblock] at h
      cases h
    exact ⟨fun _ => ⟨rfl, rfl⟩, fun h => (hnot h).elim, fun h => (hnot h).elim,
      fun h => (hnot h).elim⟩
  · rw [ofParts, if_neg hblock]
    refine ⟨fun h => absurd h hblock, fun _ => rfl, fun _ hname => if_neg hname, fun _ hname => ?_⟩
    change IsKeyAndLabel (trim inline)
      (if name = initTag then keyAndLabel (trim inline) else words (trim inline))
    rw [if_pos hname]
    exact isKeyAndLabel_keyAndLabel inline

/-- The indices of the tag lines among lines, in order. -/
def tagPlaces (ls : List Text) : List Nat :=
  (List.range ls.length).filter fun i => ∃ l ∈ ls[i]?, IsTagged l

/-- The lines from one on that stand before the next tag line. -/
def linesBeforeTag (ls : List Text) : List Text :=
  ls.takeWhile fun l => ¬ IsTagged l

/-- Whether a tag is that of the line with an index, where lines are counted from a number on: it
has the name and the number of the line, which is a tag line, and is made of its text and of exactly
the lines that follow up to the next tag line or the end. -/
structure StandsAt (initTag : Text) (n : Nat) (ls : List Text) (i : Nat) (tag : Tag) : Prop where
  line_eq : tag.line = n + i
  exists_line : ∃ l inline, ls[i]? = some l ∧ IsTagLine l tag.name inline ∧
    IsMadeOf initTag inline (linesBeforeTag (ls.drop (i + 1))) tag

/-- A tag line in front of lines is the first tag line. -/
theorem tagPlaces_cons_of_isTagged {l : Text} (hl : IsTagged l) (ls : List Text) :
    tagPlaces (l :: ls) = 0 :: (tagPlaces ls).map Nat.succ := by
  rw [tagPlaces, List.length_cons, List.range_succ_eq_map, List.filter_cons_of_pos (by simpa using hl),
    List.filter_map, tagPlaces]
  rfl

/-- A line that is no tag line moves the tag lines behind it. -/
theorem tagPlaces_cons_of_not {l : Text} (hl : ¬ IsTagged l) (ls : List Text) :
    tagPlaces (l :: ls) = (tagPlaces ls).map Nat.succ := by
  rw [tagPlaces, List.length_cons, List.range_succ_eq_map, List.filter_cons_of_neg (by simpa using hl),
    List.filter_map, tagPlaces]
  rfl

variable (initTag)

/-- The lines that are read before the first tag are those before the first tag line. -/
theorem fst_readLines (n : Nat) (ls : List Text) :
    (readLines initTag n ls).1 = linesBeforeTag ls := by
  induction ls generalizing n with
  | nil => rfl
  | cons l ls ih =>
    rw [readLines, linesBeforeTag]
    cases hl : ofLine? l with
    | none =>
      rw [List.takeWhile_cons_of_pos (by simpa using ofLine?_eq_none_iff.mp hl)]
      exact congrArg (l :: ·) (ih (n + 1))
    | some parts =>
      have htagged : IsTagged l := ⟨_, _, ofLine?_eq_some_iff.mp hl⟩
      rw [List.takeWhile_cons_of_neg (by simpa using htagged)]

/-- A line that is no tag line has no tag. -/
theorem snd_readLines_cons_of_not {l : Text} (hl : ¬ IsTagged l) (n : Nat) (ls : List Text) :
    (readLines initTag n (l :: ls)).2 = (readLines initTag (n + 1) ls).2 := by
  rw [readLines, ofLine?_eq_none_iff.mpr hl]

/-- A tag line has the tag that it makes with the lines up to the next tag line. -/
theorem snd_readLines_cons_of_isTagLine {l name inline : Text} (hl : IsTagLine l name inline) (n : Nat)
    (ls : List Text) :
    (readLines initTag n (l :: ls)).2 =
      ofParts initTag name inline n (linesBeforeTag ls) :: (readLines initTag (n + 1) ls).2 := by
  rw [readLines, ofLine?_eq_some_iff.mpr hl, ← fst_readLines initTag (n + 1)]

/-- A tag that stands at a line stands at the next one if a line is put in front. -/
theorem StandsAt.cons {n i : Nat} {ls : List Text} {tag : Tag} (l : Text)
    (h : StandsAt initTag (n + 1) ls i tag) : StandsAt initTag n (l :: ls) (i + 1) tag := by
  refine ⟨?_, h.exists_line⟩
  rw [h.line_eq]
  omega

/-- The tags of lines stand at the tag lines, one at each and in their order. -/
theorem forall₂_standsAt_readLines (n : Nat) (ls : List Text) :
    List.Forall₂ (StandsAt initTag n ls) (tagPlaces ls) (readLines initTag n ls).2 := by
  induction ls generalizing n with
  | nil => exact .nil
  | cons l ls ih =>
    have hbelow : List.Forall₂ (StandsAt initTag n (l :: ls)) ((tagPlaces ls).map Nat.succ)
        (readLines initTag (n + 1) ls).2 := by
      rw [List.forall₂_map_left_iff]
      exact (ih (n + 1)).imp fun _ _ h => h.cons initTag l
    by_cases hl : IsTagged l
    · obtain ⟨name, inline, hline⟩ := id hl
      rw [tagPlaces_cons_of_isTagged hl, snd_readLines_cons_of_isTagLine initTag hline]
      refine .cons ⟨line_ofParts _, l, inline, rfl, ?_, isMadeOf_ofParts _ _ _ _ _⟩ hbelow
      rwa [name_ofParts]
    · rw [tagPlaces_cons_of_not hl, snd_readLines_cons_of_not initTag hl]
      exact hbelow

variable {initTag}

/-- Each tag of lines stands at one of them. -/
theorem exists_standsAt_of_mem {ls : List Text} {tag : Tag} (h : tag ∈ (readLines initTag n ls).2) :
    ∃ i, StandsAt initTag n ls i tag := by
  obtain ⟨i, -, hstands⟩ := exists_of_mem_of_forall₂ (forall₂_standsAt_readLines initTag n ls) h
  exact ⟨i, hstands⟩

/-- A tag is named on the line that its number says. -/
theorem exists_of_mem_readLines {ls : List Text} {tag : Tag}
    (h : tag ∈ (readLines initTag n ls).2) :
    ∃ i l, ls[i]? = some l ∧ tag.line = n + i ∧ '@' :: tag.name <:+: l := by
  obtain ⟨i, hstands⟩ := exists_standsAt_of_mem h
  obtain ⟨l, inline, hl, hline, -⟩ := hstands.exists_line
  exact ⟨i, l, hl, hstands.line_eq, hline.isInfix⟩

/-- The name of a tag of a text follows the grammar. -/
theorem isGroupedName_of_mem_ofText {t : Text} {tag : Tag} (h : tag ∈ ofText initTag n t) :
    IsGroupedName tag.name := by
  obtain ⟨i, hstands⟩ := exists_standsAt_of_mem h
  obtain ⟨_, _, -, ⟨_, _, -, -, hname, -⟩, -⟩ := hstands.exists_line
  exact hname

/-- The arguments of an opening tag of a text are a key and a label, if there are any. -/
theorem isKeyAndLabel_of_mem_ofText {t : Text} {tag : Tag} (h : tag ∈ ofText initTag n t)
    (hname : tag.name = initTag) (harguments : tag.arguments ≠ []) :
    IsKeyAndLabel tag.content tag.arguments := by
  obtain ⟨i, hstands⟩ := exists_standsAt_of_mem h
  obtain ⟨_, _, -, -, hmade⟩ := hstands.exists_line
  cases hblock : tag.isBlock with
  | true => exact absurd (hmade.block hblock).2 harguments
  | false => exact hmade.opening hblock hname

end Marginalia.Tag
