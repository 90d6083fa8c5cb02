import Marginalia.Proofs.Note.Forms
import Marginalia.Proofs.Note.MissingKey
import Marginalia.Settings.Stored
import Marginalia.Workspace.Scan

/-!
# Which opening tags open notes

Settings that load have an opening tag that is not blank, but any other text will do. If it is the
name of a tag that is no block tag, then a line with this tag, a key and a label makes a note with
this key and label. A text that is no name of a tag is never read as one, and a block tag has no
arguments, so its key is always missing: settings with such an opening tag never lead to a note.
-/

namespace Marginalia

open Text Comment

variable {initTag key : Text} {label : Option Text} {file : SourceFile}

/-- Whether the tags with this name can open a note: they can be written, and they have arguments.
-/
def Tag.CanOpen (name : Text) : Prop :=
  IsGroupedName name ∧ isBlockName name = false

/-- Whether an opening tag can have this label: it is a text on one line without blanks at its ends,
or it is missing. -/
def Tag.IsLabel (label : Option Text) : Prop :=
  ∀ t ∈ label, t ≠ [] ∧ IsTrimmed t ∧ '\n' ∉ t

/-- The text of an opening tag with a key and a label. -/
def Tag.openingText (name key : Text) (label : Option Text) : Text :=
  '@' :: (name ++ ' ' :: unwords (key :: label.toList))

namespace Tag

/-- A key with a label has no blanks at its ends and stands on one line. -/
theorem isTrimmed_unwords_label (hkey : IsWordText key) (hlabel : IsLabel label) :
    IsTrimmed (unwords (key :: label.toList)) ∧ '\n' ∉ unwords (key :: label.toList) := by
  have htrimmed : IsTrimmed key := isTrimmed_of_forall hkey.2
  have hnewline : '\n' ∉ key := fun hmem => by
    have hblank := hkey.2 _ hmem
    cases hblank
  cases label with
  | none => exact ⟨by simpa using htrimmed, by simpa using hnewline⟩
  | some t =>
    obtain ⟨hne, ht, hline⟩ := hlabel t rfl
    have hjoin : unwords (key :: (some t).toList) = key ++ [' '] ++ t := by
      simp [unwords_cons_cons]
    rw [hjoin]
    exact ⟨isTrimmed_append hkey.1 hne htrimmed ht _, by simp [hnewline, hline]⟩

/-- A key with a label is read as these. -/
theorem keyAndLabel_unwords (hkey : IsWordText key) (hlabel : IsLabel label) :
    keyAndLabel (unwords (key :: label.toList)) = key :: label.toList := by
  cases label with
  | none =>
    rw [Option.toList_none, unwords_singleton]
    exact keyAndLabel_of_isWordText hkey
  | some t =>
    obtain ⟨hne, ht, -⟩ := hlabel t rfl
    have hword : ∀ c ∈ key, (!isBlank c) = true := fun c hc => by simp [hkey.2 c hc]
    have hbreak : breakWord (key ++ ' ' :: t) = (key, ' ' :: t) := by
      rw [breakWord, List.takeWhile_append_of_pos hword, List.dropWhile_append_of_pos hword]
      simp [isBlank]
    rw [Option.toList_some, unwords_cons_cons, unwords_singleton, keyAndLabel, hbreak]
    simp only [trim_space_cons ht]
    exact List.filter_eq_self.mpr (by simp [hkey.1, hne])

/-- The text of an opening tag is read as its name, and the key with the label behind it. -/
theorem ofLine?_openingText (hname : isName initTag = true) (hkey : IsWordText key)
    (hlabel : IsLabel label) :
    ofLine? (openingText initTag key label) = some (initTag, unwords (key :: label.toList)) := by
  have hhead : ∀ c ∈ (' ' :: unwords (key :: label.toList)).head?, isBlank c = true := by
    intro c hc
    obtain rfl := Option.some.inj hc
    decide
  have hcut : trimStart (' ' :: unwords (key :: label.toList)) = unwords (key :: label.toList) :=
    (trimStart_blanks_append forall_mem_space _).trans
      (trimStart_of_head? (isTrimmed_unwords_label hkey hlabel).1.1)
  have hline := ofLine?_append (List.forall_mem_nil _) hname hhead
  rwa [List.nil_append, hcut] at hline

/-- The text of an opening tag has no blanks at its ends and stands on one line. -/
theorem isTrimmed_openingText (hname : isName initTag = true) (hkey : IsWordText key)
    (hlabel : IsLabel label) :
    IsTrimmed (openingText initTag key label) ∧ '\n' ∉ openingText initTag key label := by
  have hat := isWordText_at_cons hname
  have hnewline : '\n' ∉ '@' :: initTag := fun hmem => by
    have hblank := hat.2 _ hmem
    cases hblank
  obtain ⟨htrimmed, hline⟩ := isTrimmed_unwords_label hkey hlabel
  have hjoin : openingText initTag key label =
      '@' :: initTag ++ [' '] ++ unwords (key :: label.toList) := by
    simp [openingText]
  rw [hjoin]
  refine ⟨isTrimmed_append hat.1 (unwords_ne_nil hkey _) (isTrimmed_of_forall hat.2) htrimmed _, ?_⟩
  simp only [List.mem_append, not_or]
  exact ⟨⟨hnewline, by decide⟩, hline⟩

end Tag

namespace Note

open Section

/-- Where no comment carries the opening tag there are no notes. -/
theorem ofFragments_of_not_opens {fragments : List Fragment}
    (h : ∀ f ∈ fragments, ¬ Opens initTag f) : ofFragments initTag file fragments = .ok [] := by
  induction fragments with
  | nil => rfl
  | cons f rest ih =>
    obtain ⟨hf, hrest⟩ := List.forall_mem_cons.mp h
    rw [ofFragments_cons_of_not hf, ih hrest]

/-- A text that is no name of a tag opens no notes. -/
theorem ofText_of_not_isGroupedName (h : ¬ Tag.IsGroupedName initTag) (style : Style) (t : Text) :
    ofText initTag style file t = .ok [] := by
  apply ofFragments_of_not_opens
  rintro f - ⟨tag, htag, hname⟩
  exact h (hname ▸ Tag.isGroupedName_of_mem_ofText htag)

/-- A comment that carries a block tag as its opening tag lacks a key. -/
theorem lacksKey_of_isBlockName (h : Tag.isBlockName initTag = true) {f : Fragment}
    (hopens : Opens initTag f) : LacksKey initTag f := by
  cases hopening : openingTag? initTag f with
  | none => exact absurd hopens (openingTag?_eq_none_iff.mp hopening)
  | some tag =>
    obtain ⟨hmem, hname⟩ := mem_of_openingTag? hopening
    obtain ⟨i, hstands⟩ := Tag.exists_standsAt_of_mem hmem
    obtain ⟨_, _, -, -, hmade⟩ := hstands.exists_line
    have hblock : tag.isBlock = true := by rw [Tag.isBlock, hname, h]
    exact ⟨tag, hopening, (hmade.block hblock).2⟩

/-- A block tag opens no notes: it is missing, or its key is. -/
theorem ofText_of_isBlockName (h : Tag.isBlockName initTag = true) (style : Style) (t : Text) :
    ofText initTag style file t = .ok [] ∨
      ∃ line, ofText initTag style file t = .error (.missingKey initTag file.path line) := by
  by_cases hopens : ∃ f ∈ fragments style t, Opens initTag f
  · obtain ⟨f, hf, hopens⟩ := hopens
    rcases lacksKey_cases initTag (fragments style t) with
      hnone | ⟨before, g, behind, tag, hsplit, hbefore, hopening, harguments⟩
    · exact absurd (lacksKey_of_isBlockName h hopens) (hnone f hf)
    · refine .inr ⟨tag.line, ?_⟩
      rw [ofText, hsplit]
      exact ofFragments_append_of_nil hbefore hopening harguments behind
  · exact .inl (ofFragments_of_not_opens fun f hf hf' => hopens ⟨f, hf, hf'⟩)

/-- A documentation line with an opening tag, a key and a label makes a note with these. -/
theorem exists_ofText_openingText (hopen : Tag.CanOpen initTag) (hkey : IsWordText key)
    (hlabel : Tag.IsLabel label) :
    ∃ n : Note,
      ofText initTag .cLike file (docLine (Tag.openingText initTag key label)) = .ok [n] ∧
        n.key = key ∧ n.label = label.getD key := by
  obtain ⟨hgrouped, hblock⟩ := hopen
  have hname := Tag.isName_iff.mpr hgrouped
  have hbody := Tag.isTrimmed_openingText hname hkey hlabel
  have hbodies : ∀ m ∈ [Tag.openingText initTag key label], IsTrimmed m ∧ '\n' ∉ m :=
    List.forall_mem_singleton.mpr hbody
  have hcut := cut_docFragments_cons hblock 1 (fun m hm => (hbodies m hm).2)
    (Tag.ofLine?_openingText hname hkey hlabel) (List.forall_mem_nil _)
  have hfragments := fragments_docLines (List.cons_ne_nil _ []) hbodies 0
  have htrim := trim_of_isTrimmed (Tag.isTrimmed_unwords_label hkey hlabel).1
  have harguments :
      Tag.keyAndLabel (trim (unwords (key :: label.toList))) = key :: label.toList := by
    rw [htrim, Tag.keyAndLabel_unwords hkey hlabel]
  rw [List.map_singleton, List.replicate_zero, List.append_nil, unlines_singleton] at hfragments
  rw [ofText, hfragments]
  refine ⟨_, ofFragments_of_cut hcut (note_eq_ok_iff.mpr ⟨key, _, harguments, rfl⟩), rfl, ?_⟩
  cases label <;> rfl

end Note

namespace Settings

variable {s : Settings} {path : Path} {t : Text}

/-- The opening tag of settings that load is not blank. -/
theorem trim_initTag_ne_nil (h : read path t = .ok s) : trim s.initTag ≠ [] := by
  rw [read] at h
  split at h
  · split at h
    · cases h
    · rename_i hblank
      obtain rfl := Except.ok.inj h
      simpa using hblank
  · cases h

/-- The opening tag of settings that load is not blank, and there are files that are read in the
slash style. If a note can be opened by the tag, it is opened in each of these files by a line with
the tag, a key and a label, and it has this key and label. If no note can be opened by the tag, no
source in any style has a note: there is no such tag or, if it is a block tag, its key is
missing. -/
theorem notes_of_loaded_opening_tag (h : read path t = .ok s) (root : Path) (lastEdit : Text) :
    trim s.initTag ≠ [] ∧
    (∃ file : Path, s.reading.styles.styleFor file.extensionText? none = .cLike) ∧
    (Tag.CanOpen s.reading.initTag → ∀ file : Path,
      s.reading.styles.styleFor file.extensionText? none = .cLike →
      ∀ key label, IsWordText key → Tag.IsLabel label → ∃ n : Note,
        s.reading.notes root file lastEdit
            (docLine (Tag.openingText s.reading.initTag key label)) = .ok [n] ∧
          n.key = key ∧ n.label = label.getD key) ∧
    (¬ Tag.CanOpen s.reading.initTag → ∀ (file : Path) (source : Text),
      s.reading.notes root file lastEdit source = .ok [] ∨
        Tag.isBlockName s.reading.initTag = true ∧ ∃ line,
          s.reading.notes root file lastEdit source =
            .error (.missingKey s.reading.initTag (file.relativeTo root) line)) := by
  have hextension : (⟨[]⟩ : Path).extensionText? = none := by decide +kernel
  refine ⟨trim_initTag_ne_nil h, ⟨⟨[]⟩, by rw [hextension]; rfl⟩,
    fun hopen file hstyle key label hkey hlabel => ?_, fun hnot file source => ?_⟩
  · rw [Reading.notes, hstyle]
    exact Note.exists_ofText_openingText hopen hkey hlabel
  · by_cases hblock : Tag.isBlockName s.reading.initTag = true
    · exact (Note.ofText_of_isBlockName hblock _ source).imp_right fun hmissing =>
        ⟨hblock, hmissing⟩
    · refine .inl (Note.ofText_of_not_isGroupedName (fun hgrouped => hnot ⟨hgrouped, ?_⟩) _ source)
      simpa using hblock

/-- A settings file with a dotted opening tag, written with blanks and its at sign. -/
def dottedTag : Text :=
  "\x7b\"initTag\": \" @api.note \"\x7d".toList

/-- The dotted tag opens a note in a file with an extension that no language has. -/
theorem notes_of_loaded_opening_tag_dottedTag :
    ∃ s, read ⟨"doctag.json".toList⟩ dottedTag = .ok s ∧ s.reading.initTag = "api.note".toList ∧
      ∃ n : Note, s.reading.notes ⟨"/".toList⟩ ⟨"/a.none".toList⟩ [] "/// @api.note k a b".toList =
          .ok [n] ∧ n.key = ['k'] ∧ n.label = "a b".toList := by
  have hread : read ⟨"doctag.json".toList⟩ dottedTag =
      .ok { initTag := " @api.note ".toList } := by decide +kernel
  have hopen : Tag.CanOpen "api.note".toList := ⟨Tag.isName_iff.mp (by decide), by decide⟩
  have hextension : (⟨"/a.none".toList⟩ : Path).extensionText? = some "none".toList := by
    decide +kernel
  obtain ⟨-, -, hnotes, -⟩ := notes_of_loaded_opening_tag hread ⟨"/".toList⟩ []
  refine ⟨_, hread, by decide, hnotes hopen ⟨"/a.none".toList⟩ ?_ ['k'] (some "a b".toList) ?_ ?_⟩
  · rw [hextension]
    decide
  · exact ⟨List.cons_ne_nil _ _, List.forall_mem_singleton.mpr (by decide)⟩
  · intro label hlabel
    obtain rfl := Option.some.inj hlabel
    decide

/-- A settings file with a block tag as its opening tag. -/
def blockTag : Text :=
  "\x7b\"initTag\": \"description\"\x7d".toList

/-- Settings with a block tag as their opening tag load. A line with the tag and a key lacks a key,
and no source in any file has a note. -/
theorem block_tag_opens_no_note :
    ∃ s, read ⟨"doctag.json".toList⟩ blockTag = .ok s ∧
      s.reading.notes ⟨"/".toList⟩ ⟨"/a.c".toList⟩ [] "/// @description a".toList =
        .error (.missingKey "description".toList "a.c".toList 1) ∧
      ∀ (root file : Path) (lastEdit source : Text) (notes : List Note),
        s.reading.notes root file lastEdit source = .ok notes → notes = [] := by
  let s : Settings := { initTag := "description".toList }
  have hread : read ⟨"doctag.json".toList⟩ blockTag = .ok s := by decide +kernel
  have hblock : Tag.isBlockName s.reading.initTag = true := by decide
  refine ⟨s, hread, by decide +kernel, fun root file lastEdit source notes hnotes => ?_⟩
  rcases Note.ofText_of_isBlockName hblock _ source with hnone | ⟨line, hmissing⟩
  · exact Except.ok.inj (hnotes.symm.trans hnone)
  · cases hnotes.symm.trans hmissing

end Settings

end Marginalia
