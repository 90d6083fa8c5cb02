import Mathlib.Data.List.SplitBy
import Marginalia.Note.Assemble
import Marginalia.Proofs.Dictionary
import Marginalia.Proofs.Outcome
import Marginalia.Proofs.Tag.Joined

/-!
# Sections of the comments of a file

Cutting the comments of a file into sections loses none and keeps their order. A comment heads a
section exactly when it carries the opening tag. Inside a section, some comments are read together,
and yet the tags of the section are those of its comments read alone, but that a block tag may have
more text. So the note of a section keeps each of these tags in its place.
-/

namespace Marginalia

open Text Comment

namespace Section

variable {initTag : Text}

/-- Whether a comment carries the opening tag. -/
def Opens (initTag : Text) (f : Fragment) : Prop :=
  ∃ tag ∈ Tag.ofFragment initTag f, tag.name = initTag

instance (initTag : Text) : DecidablePred (Opens initTag) := fun f =>
  inferInstanceAs (Decidable (∃ tag ∈ Tag.ofFragment initTag f, tag.name = initTag))

/-- A comment has no first opening tag exactly when it carries none. -/
theorem openingTag?_eq_none_iff {f : Fragment} :
    openingTag? initTag f = none ↔ ¬ Opens initTag f := by
  rw [openingTag?, List.find?_eq_none, Opens]
  simp only [decide_eq_true_eq, not_exists, not_and]

/-- The first opening tag of a comment is one of its tags and has the name that is looked for. -/
theorem mem_of_openingTag? {f : Fragment} {tag : Tag} (h : openingTag? initTag f = some tag) :
    tag ∈ Tag.ofFragment initTag f ∧ tag.name = initTag :=
  ⟨List.mem_of_find?_eq_some h, by simpa using List.find?_some h⟩

/-- The comment with the first opening tag carries the opening tag. -/
theorem opens_of_openingTag? {f : Fragment} {tag : Tag} (h : openingTag? initTag f = some tag) :
    Opens initTag f :=
  ⟨tag, mem_of_openingTag? h⟩

/-- Whether a section is headed by the comment that has its opening tag, and by no other. -/
def IsHeaded (initTag : Text) (s : Section) : Prop :=
  ∃ f rest, s.fragments = f :: rest ∧ openingTag? initTag f = some s.opening ∧
    ∀ g ∈ rest, ¬ Opens initTag g

/-- The loose comments and those of the sections are all comments, in order. -/
theorem append_cut (initTag : Text) (fragments : List Fragment) :
    (cut initTag fragments).1 ++ (cut initTag fragments).2.flatMap Section.fragments =
      fragments := by
  induction fragments with
  | nil => rfl
  | cons f rest ih =>
    rw [cut]
    cases h : openingTag? initTag f with
    | none => exact congrArg (f :: ·) ih
    | some tag => exact congrArg (f :: ·) ih

/-- No loose comment carries the opening tag. -/
theorem not_opens_of_mem_fst_cut {fragments : List Fragment} :
    ∀ f ∈ (cut initTag fragments).1, ¬ Opens initTag f := by
  induction fragments with
  | nil => simp [cut]
  | cons f rest ih =>
    rw [cut]
    cases h : openingTag? initTag f with
    | none => exact List.forall_mem_cons.mpr ⟨openingTag?_eq_none_iff.mp h, ih⟩
    | some tag => simp

/-- Each section is headed by its opening tag. -/
theorem isHeaded_of_mem_snd_cut {fragments : List Fragment} :
    ∀ s ∈ (cut initTag fragments).2, s.IsHeaded initTag := by
  induction fragments with
  | nil => simp [cut]
  | cons f rest ih =>
    rw [cut]
    cases h : openingTag? initTag f with
    | none => exact ih
    | some tag =>
      refine List.forall_mem_cons.mpr ⟨?_, ih⟩
      exact ⟨f, (cut initTag rest).1, rfl, h, not_opens_of_mem_fst_cut⟩

/-- The comments of the sections are all comments from the first one with an opening tag on. -/
theorem flatMap_fragments_cut (fragments : List Fragment) :
    (cut initTag fragments).2.flatMap Section.fragments =
      fragments.dropWhile fun f => ¬ Opens initTag f := by
  have hloose : ∀ f ∈ (cut initTag fragments).1, decide (¬ Opens initTag f) = true := by
    simpa using not_opens_of_mem_fst_cut
  conv_rhs => rw [← append_cut initTag fragments]
  rw [List.dropWhile_append_of_pos hloose]
  cases hcut : (cut initTag fragments).2 with
  | nil => rfl
  | cons s sections =>
    have hs : s ∈ (cut initTag fragments).2 := by simp [hcut]
    obtain ⟨f, rest, hf, hopening, -⟩ := isHeaded_of_mem_snd_cut s hs
    have hopens := opens_of_openingTag? hopening
    rw [List.flatMap_cons, hf, List.cons_append, List.dropWhile_cons_of_neg (by simpa using hopens)]

/-- The texts of comments have the tags of the comments, perhaps with more text. -/
theorem forall₂_extends_runs (fragments : List Fragment) :
    List.Forall₂ Tag.Extends (fragments.flatMap (Tag.ofFragment initTag))
      ((runs fragments).flatMap fun run => Tag.ofText initTag run.line run.text) := by
  have hgroups {groups : List (List Fragment)} (hne : [] ∉ groups) :
      List.Forall₂ Tag.Extends (groups.flatten.flatMap (Tag.ofFragment initTag))
        ((groups.map runOf).flatMap fun run => Tag.ofText initTag run.line run.text) := by
    induction groups with
    | nil => exact List.Forall₂.nil
    | cons group groups ih =>
      obtain ⟨hgroup, hrest⟩ := not_or.mp (List.mem_cons.not.mp hne)
      rw [List.flatten_cons, List.flatMap_append, List.map_cons, List.flatMap_cons]
      exact List.rel_append
        (Tag.forall₂_extends_ofText_unlines initTag _ (Ne.symm hgroup)) (ih hrest)
  rw [runs]
  conv => arg 2; rw [← List.flatten_splitBy continues fragments]
  exact hgroups (List.nil_notMem_splitBy _ _)

/-- Whether tags with a name are kept in a note. -/
def IsKeptName (initTag name : Text) : Prop :=
  name ≠ initTag ∧ name ∉ reservedNames

instance (initTag : Text) : DecidablePred (IsKeptName initTag) := fun name =>
  inferInstanceAs (Decidable (name ≠ initTag ∧ name ∉ reservedNames))

/-- The tags of a section with a name that is kept are those of its comments, perhaps with more
text. -/
theorem forall₂_extends_tags (s : Section) {name : Text} (hname : IsKeptName initTag name) :
    List.Forall₂ Tag.Extends
      ((s.fragments.flatMap (Tag.ofFragment initTag)).filter fun tag => tag.name = name)
      ((s.tags initTag).filter fun tag => tag.name = name) := by
  have hfilter : ((s.tags initTag).filter fun tag => tag.name = name) =
      ((runs s.fragments).flatMap fun run => Tag.ofText initTag run.line run.text).filter
        fun tag => tag.name = name := by
    rw [tags, List.filter_filter]
    apply List.filter_congr
    intro tag _
    by_cases h : tag.name = name
    · simp [h, hname.1, hname.2]
    · simp [h]
  rw [hfilter]
  exact Tag.Extends.forall₂_filter (fun n => n = name) (forall₂_extends_runs s.fragments)

/-- No tag of a section has a name that is not kept. -/
theorem filter_tags_eq_nil (s : Section) {name : Text} (hname : ¬ IsKeptName initTag name) :
    ((s.tags initTag).filter fun tag => tag.name = name) = [] := by
  rw [tags, List.filter_filter, List.filter_eq_nil_iff]
  intro tag _ hkept
  simp only [Bool.and_eq_true, decide_eq_true_eq, bne_iff_ne, Bool.not_eq_true'] at hkept
  obtain ⟨rfl, hinit, hreserved⟩ := hkept
  exact hname ⟨hinit, by simpa using hreserved⟩

/-- Under a name stand in tallied tags the fields of the tags with that name, if there are any. -/
theorem find?_tally (ts : List Tag) (name : Text) :
    (tally ts).find? name =
      if (ts.filter fun tag => tag.name = name) = [] then none
      else some ((ts.filter fun tag => tag.name = name).map Tag.fields) := by
  rw [tally, Dictionary.find?_foldl_alter Tag.name Tag.fields, Dictionary.find?_empty]
  rfl

/-- The occurrences of a name in tallied tags are the fields of the tags with that name. -/
theorem getD_find?_tally (ts : List Tag) (name : Text) :
    ((tally ts).find? name).getD [] = (ts.filter fun tag => tag.name = name).map Tag.fields := by
  rw [find?_tally]
  split
  · rename_i hnil
    rw [hnil]
    rfl
  · rfl

/-- What stands under a name in tallied tags are the fields of the tags with that name, of which
there is one at least. -/
theorem find?_tally_eq_some_iff {ts : List Tag} {name : Text} {found : List (List Text)} :
    (tally ts).find? name = some found ↔
      found ≠ [] ∧ found = (ts.filter fun tag => tag.name = name).map Tag.fields := by
  rw [find?_tally]
  by_cases hnil : (ts.filter fun tag => tag.name = name) = []
  · rw [if_pos hnil, hnil, List.map_nil]
    simp
  · rw [if_neg hnil, Option.some.injEq]
    constructor
    · rintro rfl
      exact ⟨by simpa using hnil, rfl⟩
    · rintro ⟨-, rfl⟩
      rfl

/-- A section makes a note exactly when its opening tag has a key. -/
theorem note_eq_ok_iff {file : SourceFile} {s : Section} {n : Note} :
    s.note initTag file = .ok n ↔ ∃ key more, s.opening.arguments = key :: more ∧
      n = {
        label := more.head?.getD key
        origin :=
          { file with
            line := (s.fragments.head?.map (·.line)).getD s.opening.line
            key := key }
        tags := tally (s.tags initTag) } := by
  rw [note]
  cases h : s.opening.arguments with
  | nil => simp
  | cons key more =>
    simp only [Except.ok.injEq, List.cons.injEq]
    constructor
    · rintro rfl
      exact ⟨key, more, ⟨rfl, rfl⟩, rfl⟩
    · rintro ⟨_, _, ⟨rfl, rfl⟩, rfl⟩
      rfl

/-- What stands in the note of a section under the name of a tag: the fields of its tags with that
name. -/
theorem occurrences_note {file : SourceFile} {s : Section} {n : Note}
    (h : s.note initTag file = .ok n) (name : Text) :
    (n.occurrences? name).getD [] =
      ((s.tags initTag).filter fun tag => tag.name = name).map Tag.fields := by
  obtain ⟨key, more, -, rfl⟩ := note_eq_ok_iff.mp h
  exact getD_find?_tally _ name

/-- The note of a section keeps the tags of its comments, each read alone. -/
theorem forall₂_isKeptAs_note {file : SourceFile} {s : Section} {n : Note}
    (h : s.note initTag file = .ok n) {name : Text} (hname : IsKeptName initTag name) :
    List.Forall₂ Tag.IsKeptAs
      ((s.fragments.flatMap (Tag.ofFragment initTag)).filter fun tag => tag.name = name)
      ((n.occurrences? name).getD []) := by
  rw [occurrences_note h, List.forall₂_map_right_iff]
  exact (forall₂_extends_tags s hname).imp fun _ _ hextends => hextends.isKeptAs_fields

end Section

namespace Note

variable {initTag : Text} {file : SourceFile} {fragments : List Fragment}

/-- The notes of comments are those of their sections. -/
theorem ofFragments_eq_ok_iff {notes : List Note} :
    ofFragments initTag file fragments = .ok notes ↔
      List.Forall₂ (fun s n => s.note initTag file = .ok n)
        (Section.cut initTag fragments).2 notes :=
  mapM_eq_ok_iff

/-- Each note of comments is that of one of their sections. -/
theorem exists_section_of_mem {notes : List Note} (h : ofFragments initTag file fragments = .ok notes)
    {n : Note} (hn : n ∈ notes) :
    ∃ s ∈ (Section.cut initTag fragments).2, s.note initTag file = .ok n :=
  exists_of_mem_of_forall₂ (ofFragments_eq_ok_iff.mp h) hn

/-- Comments that are one section have the note of this section. -/
theorem ofFragments_of_cut {s : Section} {n : Note} (hcut : Section.cut initTag fragments = ([], [s]))
    (hnote : s.note initTag file = .ok n) : ofFragments initTag file fragments = .ok [n] := by
  rw [ofFragments_eq_ok_iff, hcut]
  exact List.Forall₂.cons hnote List.Forall₂.nil

end Note

end Marginalia
