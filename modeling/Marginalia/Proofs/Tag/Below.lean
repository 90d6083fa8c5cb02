import Marginalia.Proofs.Tag.Grammar

/-!
# Tags of texts one below the other

Lines below others add nothing to the tags of these but the lines that the last tag takes. So the
tags of two texts one below the other are those of both exactly when the last tag of the first is no
block tag, or there is none, or the lines that it takes from the second are blank.
-/

namespace Marginalia.Tag

open Text

/-- A tag line below lines is not before the first tag line. -/
theorem linesBeforeTag_append_cons (ks : List Text) {l : Text} (hl : IsTagged l) (ls : List Text) :
    linesBeforeTag (ks ++ l :: ls) = linesBeforeTag ks := by
  induction ks with
  | nil => exact List.takeWhile_cons_of_neg (by simpa using hl)
  | cons k ks ih =>
    rw [linesBeforeTag, linesBeforeTag] at ih ⊢
    rw [List.cons_append, List.takeWhile_cons, List.takeWhile_cons, ih]

/-- Lines that are no tag lines stand before the first tag line below them. -/
theorem linesBeforeTag_append_of_not {ks : List Text} (hks : ∀ k ∈ ks, ¬ IsTagged k)
    (ls : List Text) : linesBeforeTag (ks ++ ls) = ks ++ linesBeforeTag ls :=
  List.takeWhile_append_of_pos fun k hk => by simpa using hks k hk

/-- Lines have no tag line, or one is the last. -/
theorem exists_last_isTagged (ks : List Text) : (∀ k ∈ ks, ¬ IsTagged k) ∨
    ∃ front l following, ks = front ++ l :: following ∧ IsTagged l ∧
      ∀ k ∈ following, ¬ IsTagged k := by
  induction ks with
  | nil => exact .inl (List.forall_mem_nil _)
  | cons k ks ih =>
    rcases ih with hnone | ⟨front, l, following, rfl, hl, hfollowing⟩
    · by_cases hk : IsTagged k
      · exact .inr ⟨[], k, ks, rfl, hk, hnone⟩
      · exact .inl (List.forall_mem_cons.mpr ⟨hk, hnone⟩)
    · exact .inr ⟨k :: front, l, following, rfl, hl, hfollowing⟩

variable (initTag : Text) (n : Nat)

/-- Lines that are no tag lines have no tags. -/
theorem snd_readLines_append_of_not {ks : List Text} (hks : ∀ k ∈ ks, ¬ IsTagged k)
    (ls : List Text) :
    (readLines initTag n (ks ++ ls)).2 = (readLines initTag (n + ks.length) ls).2 := by
  induction ks generalizing n with
  | nil => rfl
  | cons k ks ih =>
    obtain ⟨hk, hrest⟩ := List.forall_mem_cons.mp hks
    rw [List.cons_append, snd_readLines_cons_of_not initTag hk, ih (n + 1) hrest, List.length_cons,
      Nat.add_assoc, Nat.add_comm 1]

/-- A tag line below lines adds its tag and those below it to the tags of the lines. -/
theorem snd_readLines_append_cons (ks : List Text) {l : Text} (hl : IsTagged l) (ls : List Text) :
    (readLines initTag n (ks ++ l :: ls)).2 =
      (readLines initTag n ks).2 ++ (readLines initTag (n + ks.length) (l :: ls)).2 := by
  induction ks generalizing n with
  | nil => rfl
  | cons k ks ih =>
    rw [List.cons_append, List.length_cons, Nat.add_comm ks.length, ← Nat.add_assoc]
    by_cases hk : IsTagged k
    · obtain ⟨name, inline, hline⟩ := hk
      rw [snd_readLines_cons_of_isTagLine initTag hline,
        snd_readLines_cons_of_isTagLine initTag hline, ih (n + 1), linesBeforeTag_append_cons ks hl,
        List.cons_append]
    · rw [snd_readLines_cons_of_not initTag hk, snd_readLines_cons_of_not initTag hk, ih (n + 1)]

/-- Below the last tag line of lines, others add their tags and the lines before these to its tag.
-/
theorem snd_readLines_append_last (front : List Text) {l name inline : Text}
    (hl : IsTagLine l name inline) {following : List Text} (hfollowing : ∀ k ∈ following, ¬ IsTagged k)
    (ls : List Text) :
    (readLines initTag n (front ++ l :: following ++ ls)).2 =
      (readLines initTag n front).2 ++
        ofParts initTag name inline (n + front.length) (following ++ linesBeforeTag ls) ::
          (readLines initTag (n + (front ++ l :: following).length) ls).2 := by
  have hlength : n + front.length + 1 + following.length = n + (front ++ l :: following).length := by
    rw [List.length_append, List.length_cons]
    omega
  rw [List.append_assoc, List.cons_append, snd_readLines_append_cons initTag n front ⟨_, _, hl⟩,
    snd_readLines_cons_of_isTagLine initTag hl, linesBeforeTag_append_of_not hfollowing,
    snd_readLines_append_of_not initTag _ hfollowing, hlength]

/-- A tag line makes the same tag with more lines exactly when it makes no block tag or these lines
are blank. -/
theorem ofParts_append_eq_iff (name inline : Text) (following more : List Text) :
    ofParts initTag name inline n (following ++ more) = ofParts initTag name inline n following ↔
      (isBlockName name = true → ∀ l ∈ more, trim l = []) := by
  by_cases hblock : isBlockName name = true
  · have hcontent : trim (unlines (inline :: (following ++ more))) =
        trim (unlines (inline :: following)) ↔ ∀ l ∈ more, trim l = [] := by
      by_cases hmore : more = []
      · simp [hmore]
      · rw [← List.cons_append, unlines_append (List.cons_ne_nil inline following) hmore,
          trim_append_cons_eq_iff rfl, trim_unlines_eq_nil_iff]
    rw [ofParts, ofParts, if_pos hblock, if_pos hblock]
    simp [hblock, hcontent]
  · rw [ofParts, ofParts, if_neg hblock, if_neg hblock]
    simp [hblock]

/-- Lines one below the other have the tags of both exactly when the last tag of the upper ones, if
it is a block tag, takes only blank lines from the lower ones. -/
theorem snd_readLines_append_eq_iff (ks ls : List Text) :
    (readLines initTag n (ks ++ ls)).2 =
        (readLines initTag n ks).2 ++ (readLines initTag (n + ks.length) ls).2 ↔
      ∀ tag ∈ (readLines initTag n ks).2.getLast?, tag.isBlock = true →
        ∀ l ∈ linesBeforeTag ls, trim l = [] := by
  rcases exists_last_isTagged ks with hnone | ⟨front, l, following, rfl, hl, hfollowing⟩
  · have hself := snd_readLines_append_of_not initTag n hnone []
    rw [List.append_nil] at hself
    rw [snd_readLines_append_of_not initTag n hnone, hself]
    simp [readLines]
  · obtain ⟨name, inline, hline⟩ := hl
    have hself := snd_readLines_append_last initTag n front hline hfollowing []
    rw [List.append_nil, linesBeforeTag, List.takeWhile_nil, List.append_nil, readLines] at hself
    rw [snd_readLines_append_last initTag n front hline hfollowing, hself, List.append_assoc,
      List.append_right_inj, List.singleton_append, List.cons.injEq, and_iff_left rfl,
      ofParts_append_eq_iff, List.getLast?_concat]
    simp [isBlock]

/-- Tags follow the grammar line by line: those of a text are one for each of its tag lines, in
their order, each with the name and the number of its line and made of the text of the line and, for
a block tag, of exactly the lines up to the next tag line or the end. And the tags of two texts one
below the other are those of both, where the second starts with a tag line or the first has no tag
or ends with one that is no block tag. -/
theorem ofText_follows_grammar (initTag : Text) (n : Nat) :
    (∀ t, List.Forall₂ (StandsAt initTag n (lines t)) (tagPlaces (lines t)) (ofText initTag n t)) ∧
    ∀ a b, ((∃ l ∈ (lines b).head?, IsTagged l) ∨
        ∀ tag ∈ (ofText initTag n a).getLast?, tag.isBlock = false) →
      ofText initTag n (a ++ '\n' :: b) =
        ofText initTag n a ++ ofText initTag (n + (lines a).length) b := by
  refine ⟨fun t => forall₂_standsAt_readLines initTag n (lines t), fun a b h => ?_⟩
  rw [ofText, lines_append_newline]
  apply (snd_readLines_append_eq_iff initTag n (lines a) (lines b)).mpr
  intro tag htag hblock
  rcases h with ⟨first, hfirst, htagged⟩ | hlast
  · obtain ⟨rest, hrest⟩ := List.head?_eq_some_iff.mp hfirst
    have hnone : linesBeforeTag (lines b) = [] := by
      rw [hrest]
      exact List.takeWhile_cons_of_neg (by simpa using htagged)
    rw [hnone]
    exact List.forall_mem_nil _
  · rw [hlast tag htag] at hblock
    cases hblock

/-- A line that is no tag line, a tag with a name of two groups, an example that takes two lines,
and a line whose name has an empty group. -/
def exampleText : Text :=
  "p @t\n\t@a.b  x  y \n@example q\n r\n@a..b".toList

/-- An opening tag with a label, and a tag without a text. -/
def labelText : Text :=
  "@doc k  A  b\u2003\n@t".toList

/-- The tags of the one text stand at its second and third line, those of the other at its first and
second, and below the example that ends the one, the tag lines of the other begin at once. -/
theorem ofText_follows_grammar_exampleText :
    let example' : Tag := ⟨"example".toList, [], "q\n r\n@a..b".toList, 3⟩
    tagPlaces (lines exampleText) = [1, 2] ∧
      ofText "doc".toList 1 exampleText = [⟨"a.b".toList, [['x'], ['y']], "x  y".toList, 2⟩, example'] ∧
      StandsAt "doc".toList 1 (lines exampleText) 2 example' ∧
      ofText "doc".toList 1 (exampleText ++ '\n' :: labelText) =
        [⟨"a.b".toList, [['x'], ['y']], "x  y".toList, 2⟩, example',
          ⟨"doc".toList, [['k'], "A  b".toList], "k  A  b".toList, 6⟩, ⟨['t'], [], [], 7⟩] := by
  intro example'
  obtain ⟨htags, hbelow⟩ := ofText_follows_grammar "doc".toList 1
  have hplaces : tagPlaces (lines exampleText) = [1, 2] := by decide
  have htext : ofText "doc".toList 1 exampleText =
      [⟨"a.b".toList, [['x'], ['y']], "x  y".toList, 2⟩, example'] := by decide
  have hstands := htags exampleText
  rw [hplaces, htext] at hstands
  refine ⟨hplaces, htext, ?_, ?_⟩
  · cases hstands with
    | cons _ hrest =>
      cases hrest with
      | cons hexample _ => exact hexample
  · rw [hbelow exampleText labelText (.inl ⟨_, rfl, by decide⟩), htext]
    decide

end Marginalia.Tag
