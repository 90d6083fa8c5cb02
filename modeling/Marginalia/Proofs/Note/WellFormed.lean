import Marginalia.Proofs.Document
import Marginalia.Proofs.Note.Section
import Marginalia.Proofs.Tag.Fields
import Marginalia.Proofs.Tag.Grammar
import Marginalia.Proofs.Template.LineTemplate

/-!
# What holds of every note of a source

A stored note may have an empty key, a name that is no name of a tag, or a tag without occurrences.
A note that is made of comments has none of these, since its key, its label and its fields are words
or trimmed texts and it has a name only where there is a tag. So a template can ask such a note
whether it has a tag, how many occurrences there are, or for the first of them: the answers agree.
-/

namespace Marginalia

open Text

variable {initTag : Text} {file : SourceFile}

namespace Note

/-- What holds of the occurrences of a tag in a note that is made of comments. The name is one that
tags can have and not that of the opening tag or of another member of a stored note, and there is an
occurrence. That of a block tag is one field, and any other has trimmed fields that are not empty.
-/
structure AreOccurrences (initTag name : Text) (found : List (List Text)) : Prop where
  isGroupedName : Tag.IsGroupedName name
  name_notMem : name ∉ [initTag, "label".toList, "meta".toList]
  ne_nil : found ≠ []
  block : Tag.isBlockName name = true → ∀ fields ∈ found, ∃ field, fields = [field]
  other : Tag.isBlockName name = false → ∀ fields ∈ found, ∀ field ∈ fields,
    field ≠ [] ∧ IsTrimmed field

/-- What holds of a note that is made of comments: its key is a word, its label is trimmed and not
empty, and so are its tags. -/
structure IsWellFormed (initTag : Text) (n : Note) : Prop where
  key_isWordText : IsWordText n.key
  label_ne_nil : n.label ≠ []
  label_isTrimmed : IsTrimmed n.label
  tags : ∀ name found, n.occurrences? name = some found → AreOccurrences initTag name found

end Note

namespace Section

/-- The arguments of the tag that heads a section are a key and a label, if there are any. -/
theorem IsHeaded.isKeyAndLabel {s : Section} (h : s.IsHeaded initTag)
    (harguments : s.opening.arguments ≠ []) :
    Tag.IsKeyAndLabel s.opening.content s.opening.arguments := by
  obtain ⟨f, rest, -, hopening, -⟩ := h
  obtain ⟨hmem, hname⟩ := mem_of_openingTag? hopening
  exact Tag.isKeyAndLabel_of_mem_ofText hmem hname harguments

/-- A tag that a section gives to its note has a name that follows the grammar and is not reserved.
-/
theorem name_of_mem_tags {s : Section} {tag : Tag} (h : tag ∈ s.tags initTag) :
    Tag.IsGroupedName tag.name ∧ tag.name ∉ [initTag, "label".toList, "meta".toList] := by
  obtain ⟨hmem, hkept⟩ := List.mem_filter.mp h
  obtain ⟨run, -, hrun⟩ := List.mem_flatMap.mp hmem
  refine ⟨Tag.isGroupedName_of_mem_ofText hrun, ?_⟩
  simpa [reservedNames] using hkept

/-- The occurrences of a name in the note of a section are as they should be. -/
theorem areOccurrences_tally {s : Section} {name : Text} {found : List (List Text)}
    (h : (tally (s.tags initTag)).find? name = some found) :
    Note.AreOccurrences initTag name found := by
  obtain ⟨hne, hfound⟩ := find?_tally_eq_some_iff.mp h
  have hfields : ∀ fields ∈ found, ∃ tag ∈ s.tags initTag, tag.name = name ∧ tag.fields = fields := by
    intro fields hmem
    rw [hfound, List.mem_map] at hmem
    obtain ⟨tag, htag, rfl⟩ := hmem
    obtain ⟨hmem, hname⟩ := List.mem_filter.mp htag
    exact ⟨tag, hmem, of_decide_eq_true hname, rfl⟩
  obtain ⟨fields, hmem⟩ := List.exists_mem_of_ne_nil found hne
  obtain ⟨tag, htag, rfl, -⟩ := hfields fields hmem
  obtain ⟨hgrouped, hreserved⟩ := name_of_mem_tags htag
  refine ⟨hgrouped, hreserved, hne, fun hblock other hother => ?_, fun hblock other hother => ?_⟩
  · obtain ⟨tag', -, hname, rfl⟩ := hfields other hother
    refine ⟨tag'.content, ?_⟩
    rw [Tag.fields, Tag.isBlock, hname, if_pos hblock]
  · obtain ⟨tag', -, hname, rfl⟩ := hfields other hother
    apply Tag.isTrimmed_of_mem_fields
    rw [Tag.isBlock, hname, hblock]

/-- The note of a section is well formed. -/
theorem isWellFormed_note {s : Section} (hheaded : s.IsHeaded initTag) {n : Note}
    (h : s.note initTag file = .ok n) : n.IsWellFormed initTag := by
  obtain ⟨key, more, harguments, rfl⟩ := note_eq_ok_iff.mp h
  have hopening := hheaded.isKeyAndLabel (by simp [harguments])
  rw [harguments] at hopening
  obtain ⟨hkey, hlabel, htrimmed⟩ := hopening.isWordText
  exact ⟨hkey, hlabel, htrimmed, fun _ _ hfound => areOccurrences_tally hfound⟩

end Section

/-- Notes of comments are well formed. -/
theorem Note.isWellFormed_of_mem {fragments : List Comment.Fragment} {notes : List Note}
    (h : ofFragments initTag file fragments = .ok notes) :
    ∀ n ∈ notes, n.IsWellFormed initTag := by
  intro n hn
  obtain ⟨s, hs, hnote⟩ := exists_section_of_mem h hn
  exact Section.isWellFormed_note (Section.isHeaded_of_mem_snd_cut s hs) hnote

namespace Template

variable {d : Document} {key tag : Text} {note : Note}

/-- Of an unknown key nothing can be asked. -/
theorem ask_of_none (hnote : d.note? key = none) (m : Method) (arguments : List Text) :
    ask d key m arguments = .error (.unknownKey key) := by
  have hparse : Method.parse m.name = .ok m := by cases m <;> rfl
  rw [ask, Call.evaluate, hparse, hnote]
  rfl

/-- A known note has a tag exactly when the tag stands in it. -/
theorem ask_has_iff (hnote : d.note? key = some note) :
    ask d key .has [tag] = .ok "true".toList ↔ ∃ found, note.occurrences? tag = some found := by
  have hrun : Method.run .has key note [tag] =
      .ok (showBool (note.occurrences? tag).isSome) := rfl
  rw [ask_of_note hnote, hrun, Except.ok.injEq]
  cases note.occurrences? tag with
  | none => simp [showBool]
  | some found => simp [showBool]

/-- The number of occurrences in a known note is not zero exactly when there is one. -/
theorem ask_count_iff (hnote : d.note? key = some note) :
    (∃ count, ask d key .count [tag] = .ok count ∧ count ≠ ['0']) ↔
      ∃ found, note.occurrences? tag = some found ∧ found ≠ [] := by
  rw [ask_of_note hnote, run_count]
  have hzero (n : Nat) : ofNat n ≠ ['0'] ↔ n ≠ 0 := not_congr (ofNat_inj (n := 0))
  simp only [Except.ok.injEq, exists_eq_left', hzero]
  cases note.occurrences? tag with
  | none => simp
  | some found => simp

/-- Without an index and a mask, the first field of the first occurrence is got. -/
theorem run_get_singleton (key : Text) (note : Note) (tag : Text) :
    Method.run .get key note [tag] =
      (occurrence note key tag 0).map fun fields => fields.head?.getD [] := by
  change (do
    let fields ← occurrence note key tag 0
    return fields.head?.getD []) = _
  cases occurrence note key tag 0 <;> rfl

/-- The first occurrence can be got from a known note exactly when there is one. -/
theorem ask_get_iff (hnote : d.note? key = some note) :
    (∃ value, ask d key .get [tag] = .ok value) ↔
      ∃ found, note.occurrences? tag = some found ∧ found ≠ [] := by
  rw [ask_of_note hnote, run_get_singleton, occurrence, occurrences]
  cases note.occurrences? tag with
  | none => simp [bind, Except.bind, Except.map]
  | some found => cases found <;> simp [bind, Except.bind, Except.map]

end Template

namespace Note

open Template

/-- Every note of comments is well formed. And whatever comments the notes of a document are made
of, a tag is there exactly when the number of its occurrences is not zero, and exactly when one of
them can be got. -/
theorem notes_are_well_formed (initTag : Text) :
    (∀ file fragments notes, ofFragments initTag file fragments = .ok notes →
      ∀ n ∈ notes, n.IsWellFormed initTag) ∧
    ∀ notes d, (∀ n ∈ notes, ∃ file fragments found,
        ofFragments initTag file fragments = .ok found ∧ n ∈ found) →
      Document.ofNotes notes = .ok d → ∀ key tag,
        (ask d key .has [tag] = .ok "true".toList ↔
          ∃ count, ask d key .count [tag] = .ok count ∧ count ≠ ['0']) ∧
        (ask d key .has [tag] = .ok "true".toList ↔ ∃ value, ask d key .get [tag] = .ok value) := by
  refine ⟨fun _ _ _ h => isWellFormed_of_mem h, fun notes d hnotes hd key tag => ?_⟩
  cases hnote : d.note? key with
  | none => simp [ask_of_none hnote]
  | some n =>
    obtain ⟨file, fragments, found, hfound, hmem⟩ := hnotes n (Document.mem_of_ofNotes hd hnote)
    have hn := isWellFormed_of_mem hfound n hmem
    have hcarried : (∃ found, n.occurrences? tag = some found) ↔
        ∃ found, n.occurrences? tag = some found ∧ found ≠ [] :=
      exists_congr fun found => (and_iff_left_of_imp fun h => (hn.tags tag found h).ne_nil).symm
    rw [ask_has_iff hnote, ask_count_iff hnote, ask_get_iff hnote, hcarried]
    exact ⟨Iff.rfl, Iff.rfl⟩

/-- A comment with a key and a label, a tag of each kind, one with a name that is not kept, and
below another comment with a key alone. -/
def labelledText : Text :=
  "// @doc k  A b\n// @param a int  x y\n// @example p\n// q\n// @label z\n\n// @doc l".toList

/-- Of the note with tags, the parameter and the example are there and can be got, the label and a
tag that the source does not hold are not, and neither is anything of a key that the source does not
declare. -/
theorem notes_are_well_formed_labelledText :
    ∃ notes d, ofFragments "doc".toList ⟨[], [], [], []⟩
        (Comment.fragments .cLike labelledText) = .ok notes ∧
      (∀ n ∈ notes, n.IsWellFormed "doc".toList) ∧
      notes.map Note.label = ["A b".toList, ['l']] ∧ Document.ofNotes notes = .ok d ∧
      ask d ['k'] .has ["param".toList] = .ok "true".toList ∧
      (∃ value, ask d ['k'] .get ["param".toList] = .ok value) ∧
      (∃ count, ask d ['k'] .count ["example".toList] = .ok count ∧ count ≠ ['0']) ∧
      (¬ ∃ value, ask d ['k'] .get ["label".toList] = .ok value) ∧
      ¬ ∃ count, ask d ['m'] .count ["param".toList] = .ok count ∧ count ≠ ['0'] := by
  obtain ⟨hformed, hasked⟩ := notes_are_well_formed "doc".toList
  obtain ⟨notes, d, hnotes, hlabels, hd, hparam, hexample, hlabel, hunknown⟩ : ∃ notes d,
      ofFragments "doc".toList ⟨[], [], [], []⟩ (Comment.fragments .cLike labelledText) = .ok notes ∧
        notes.map Note.label = ["A b".toList, ['l']] ∧ Document.ofNotes notes = .ok d ∧
        ask d ['k'] .has ["param".toList] = .ok "true".toList ∧
        ask d ['k'] .has ["example".toList] = .ok "true".toList ∧
        ask d ['k'] .has ["label".toList] = .ok "false".toList ∧
        ask d ['m'] .has ["param".toList] = .error (.unknownKey ['m']) :=
    ⟨_, _, rfl, rfl, rfl, rfl, rfl, rfl, rfl⟩
  have hanswers := hasked notes d (fun n hn => ⟨_, _, notes, hnotes, hn⟩) hd
  refine ⟨notes, d, hnotes, hformed _ _ notes hnotes, hlabels, hd, hparam,
    (hanswers ['k'] "param".toList).2.mp hparam, (hanswers ['k'] "example".toList).1.mp hexample,
    fun hvalue => ?_, fun hcount => ?_⟩
  · have htrue := (hanswers ['k'] "label".toList).2.mpr hvalue
    rw [hlabel] at htrue
    exact absurd htrue (by decide)
  · have htrue := (hanswers ['m'] "param".toList).1.mpr hcount
    rw [hunknown] at htrue
    cases htrue

end Note

end Marginalia
