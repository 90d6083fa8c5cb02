import Mathlib.Data.List.Forall2
import Marginalia.Proofs.Text.Blank
import Marginalia.Proofs.Text.Lines
import Marginalia.Tag.Fields

/-!
# Tags of joined texts

Whether a line is a tag line does not depend on the lines around it. So a text that is joined from
pieces has the tags of its pieces, in their order, whatever numbers the lines have. Only the text
of a block tag can differ: it runs on over the lines of the next pieces up to the next tag line.
-/

namespace Marginalia.Tag

open Text

variable (initTag : Text)

/-- Whether a tag is another one with more text behind, which only a block tag can have. -/
structure Extends (t u : Tag) : Prop where
  name_eq : u.name = t.name
  content_eq : t.isBlock = false → u.content = t.content
  content_prefix : t.content <+: u.content

namespace Extends

variable {t u v : Tag}

theorem refl (t : Tag) : Extends t t :=
  ⟨rfl, fun _ => rfl, List.prefix_refl _⟩

/-- Extended tags are block tags or not alike. -/
theorem isBlock_eq (h : Extends t u) : u.isBlock = t.isBlock := by
  rw [isBlock, isBlock, h.name_eq]

theorem trans (h : Extends t u) (h' : Extends u v) : Extends t v where
  name_eq := h'.name_eq.trans h.name_eq
  content_eq ht := (h'.content_eq (h.isBlock_eq.trans ht)).trans (h.content_eq ht)
  content_prefix := h.content_prefix.trans h'.content_prefix

/-- The tags of two lists, one extending the other, extend one another. -/
theorem forall₂_trans {ts us vs : List Tag} (h : List.Forall₂ Extends ts us)
    (h' : List.Forall₂ Extends us vs) : List.Forall₂ Extends ts vs := by
  induction h generalizing vs with
  | nil => exact h'
  | cons h _ ih =>
    cases h' with
    | cons h' hrest => exact List.Forall₂.cons (h.trans h') (ih hrest)

/-- The tags that pass a test of their names extend one another. -/
theorem forall₂_filter {ts us : List Tag} (test : Text → Bool) (h : List.Forall₂ Extends ts us) :
    List.Forall₂ Extends (ts.filter fun t => test t.name) (us.filter fun t => test t.name) :=
  List.rel_filter (fun _ _ h => iff_of_eq (congrArg (test · = true) h.name_eq.symm)) h

end Extends

/-- A tag line with more lines behind makes a tag that extends its tag. -/
theorem extends_ofParts (name inline : Text) (n m : Nat) (following more : List Text) :
    Extends (ofParts initTag name inline n following)
      (ofParts initTag name inline m (following ++ more)) := by
  by_cases hblock : isBlockName name = true
  · rw [ofParts, ofParts, if_pos hblock, if_pos hblock]
    obtain ⟨rest, hrest⟩ := unlines_prefix_append (List.cons_ne_nil inline following) more
    refine ⟨rfl, fun h => ?_, ?_⟩
    · rw [isBlock, hblock] at h
      cases h
    · rw [List.cons_append] at hrest
      rw [← hrest]
      exact trim_prefix_append _ _
  · rw [ofParts, ofParts, if_neg hblock, if_neg hblock]
    exact ⟨rfl, fun _ => rfl, List.prefix_refl _⟩

/-- The lines before the first tag line stay in front when more lines stand below. -/
theorem exists_fst_readLines_append (n m : Nat) (ks ls : List Text) :
    ∃ more, (readLines initTag m (ks ++ ls)).1 = (readLines initTag n ks).1 ++ more := by
  induction ks generalizing n m with
  | nil => exact ⟨_, rfl⟩
  | cons k ks ih =>
    rw [List.cons_append, readLines, readLines]
    cases h : ofLine? k with
    | none =>
      obtain ⟨more, hmore⟩ := ih (n + 1) (m + 1)
      exact ⟨more, congrArg (k :: ·) hmore⟩
    | some parts => exact ⟨[], rfl⟩

/-- A line in front keeps the tags of the lines below, and its own tag if it has one, extended. -/
theorem forall₂_extends_readLines_cons {n m : Nat} (l : Text) {ks ls : List Text} {ts : List Tag}
    (hfollowing : ∃ more,
      (readLines initTag (m + 1) ls).1 = (readLines initTag (n + 1) ks).1 ++ more)
    (htags : List.Forall₂ Extends ((readLines initTag (n + 1) ks).2 ++ ts)
      (readLines initTag (m + 1) ls).2) :
    List.Forall₂ Extends ((readLines initTag n (l :: ks)).2 ++ ts)
      (readLines initTag m (l :: ls)).2 := by
  obtain ⟨more, hmore⟩ := hfollowing
  rw [readLines, readLines]
  cases h : ofLine? l with
  | none => exact htags
  | some parts =>
    have hhead := extends_ofParts initTag parts.1 parts.2 n m
      (readLines initTag (n + 1) ks).1 more
    rw [← hmore] at hhead
    exact List.Forall₂.cons hhead htags

/-- Lines have the same tags whatever the number of the first line, but for the numbers. -/
theorem forall₂_extends_readLines (n m : Nat) (ls : List Text) :
    List.Forall₂ Extends (readLines initTag n ls).2 (readLines initTag m ls).2 := by
  induction ls generalizing n m with
  | nil => exact List.Forall₂.nil
  | cons l ls ih =>
    have hfollowing := exists_fst_readLines_append initTag (n + 1) (m + 1) ls []
    have htags := ih (n + 1) (m + 1)
    rw [List.append_nil] at hfollowing
    rw [← List.append_nil (readLines initTag (n + 1) ls).2] at htags
    have hcons := forall₂_extends_readLines_cons initTag l hfollowing htags
    rwa [List.append_nil] at hcons

/-- Lines one below the other have the tags of both parts, the last of the first part perhaps with
more text. -/
theorem forall₂_extends_readLines_append (n m k : Nat) (ks ls : List Text) :
    List.Forall₂ Extends ((readLines initTag n ks).2 ++ (readLines initTag m ls).2)
      (readLines initTag k (ks ++ ls)).2 := by
  induction ks generalizing n k with
  | nil => exact forall₂_extends_readLines initTag m k ls
  | cons l ks ih =>
    exact forall₂_extends_readLines_cons initTag l (exists_fst_readLines_append initTag _ _ ks ls)
      (ih (n + 1) (k + 1))

/-- The tags of comments extend to those of their joined contents. -/
theorem forall₂_extends_ofText_unlines (k : Nat) {fragments : List Comment.Fragment}
    (hne : fragments ≠ []) :
    List.Forall₂ Extends (fragments.flatMap (ofFragment initTag))
      (ofText initTag k (unlines (fragments.map (·.content)))) := by
  induction fragments generalizing k with
  | nil => exact absurd rfl hne
  | cons f rest ih =>
    by_cases hrest : rest = []
    · rw [hrest, List.flatMap_singleton, List.map_singleton, unlines_singleton]
      exact forall₂_extends_readLines initTag f.contentLine k (lines f.content)
    · have hmap : rest.map (·.content) ≠ [] := by simpa using hrest
      have hjoined := forall₂_extends_readLines_append initTag f.contentLine k k
        (lines f.content) (lines (unlines (rest.map (·.content))))
      rw [List.flatMap_cons, List.map_cons, unlines_cons hmap, ofText, lines_append_newline]
      exact Extends.forall₂_trans
        (List.rel_append (List.forall₂_same.mpr fun t _ => Extends.refl t) (ih k hrest)) hjoined

/-- Whether fields are what is kept of a tag: its own fields or, for a block tag, its text, perhaps
with more text behind. -/
def IsKeptAs (t : Tag) (fields : List Text) : Prop :=
  if t.isBlock then ∃ text, fields = [text] ∧ t.content <+: text else fields = t.fields

/-- The fields of a tag are what is kept of a tag that it extends. -/
theorem Extends.isKeptAs_fields {t u : Tag} (h : Extends t u) : t.IsKeptAs u.fields := by
  by_cases hblock : t.isBlock = true
  · rw [IsKeptAs, if_pos hblock]
    refine ⟨u.content, ?_, h.content_prefix⟩
    rw [fields, if_pos (h.isBlock_eq.trans hblock)]
  · rw [IsKeptAs, if_neg hblock, fields, fields, h.isBlock_eq, h.name_eq,
      h.content_eq (by simpa using hblock)]

end Marginalia.Tag
