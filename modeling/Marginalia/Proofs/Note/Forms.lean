import Marginalia.Proofs.Comment.StarBlock
import Marginalia.Proofs.Note.Below
import Marginalia.Proofs.Note.Written
import Marginalia.Proofs.Tag.Trimmed

/-!
# One note in two forms

The lines of a note can be written as documentation lines or in one block with a gutter of stars.
In the first form each line is a comment of its own, and the lines are joined again when the tags
are read; in the second they are one comment, without the empty lines at the end. Both make the
same note.
-/

namespace Marginalia

open Text Comment

variable {initTag : Text}

/-- Body lines have no blanks at their ends and no line feeds. -/
theorem forall_mem_map_text (ls : List BodyLine) :
    ∀ t ∈ ls.map BodyLine.text, IsTrimmed t ∧ '\n' ∉ t := by
  intro t ht
  obtain ⟨m, -, rfl⟩ := List.mem_map.mp ht
  exact ⟨m.isTrimmed_text, m.newline_notMem⟩

/-- The tag of a line alone. -/
theorem Tag.ofText_line (n : Nat) {l : Text} (hnewline : '\n' ∉ l) :
    Tag.ofText initTag n l =
      ((Tag.ofLine? l).map fun parts => Tag.ofParts initTag parts.1 parts.2 n []).toList := by
  rw [Tag.ofText, lines_eq_singleton hnewline, Tag.readLines]
  cases Tag.ofLine? l <;> rfl

/-- An opening tag that is no block tag. -/
def Tag.opening (initTag inline : Text) (n : Nat) : Tag :=
  ⟨initTag, Tag.keyAndLabel (trim inline), trim inline, n⟩

/-- The line of an opening tag that is no block tag makes this tag, whatever lines follow. -/
theorem Tag.ofParts_opening (hblock : Tag.isBlockName initTag = false) (inline : Text) (n : Nat)
    (following : List Text) :
    Tag.ofParts initTag initTag inline n following = Tag.opening initTag inline n := by
  rw [Tag.ofParts, if_neg (by simp [hblock])]
  simp only [if_true, Tag.opening]

/-- The key of an opening tag with a text is not missing. -/
theorem Tag.exists_keyAndLabel {inline : Text} (hkey : trim inline ≠ []) :
    ∃ key more, Tag.keyAndLabel (trim inline) = key :: more := by
  obtain ⟨c, rest, hc⟩ := List.exists_cons_of_ne_nil hkey
  have hword : (c :: rest).takeWhile (!isBlank ·) = c :: rest.takeWhile (!isBlank ·) :=
    List.takeWhile_cons_of_pos (by simp [isBlank_of_trim hc])
  rw [hc, Tag.keyAndLabel, breakWord, hword]
  exact ⟨_, _, List.filter_cons_of_pos rfl⟩

namespace Section

/-- A documentation line with the opening tag heads a section. -/
theorem openingTag?_docFragment_of_ofLine? (hblock : Tag.isBlockName initTag = false) (n : Nat)
    {l inline : Text} (hnewline : '\n' ∉ l) (hl : Tag.ofLine? l = some (initTag, inline)) :
    openingTag? initTag (docFragment n l) = some (Tag.opening initTag inline n) := by
  have htags : Tag.ofFragment initTag (docFragment n l) = [Tag.opening initTag inline n] := by
    rw [Tag.ofFragment, docFragment, Tag.ofText_line n hnewline, hl]
    exact congrArg (fun t => [t]) (Tag.ofParts_opening hblock inline n [])
  rw [openingTag?, htags, List.find?_cons_of_pos (by simp [Tag.opening])]

/-- A documentation line without the opening tag heads no section. -/
theorem openingTag?_docFragment_eq_none (n : Nat) {l : Text} (hnewline : '\n' ∉ l)
    (hl : ∀ inline, Tag.ofLine? l ≠ some (initTag, inline)) :
    openingTag? initTag (docFragment n l) = none := by
  rw [openingTag?, Tag.ofFragment, docFragment, Tag.ofText_line n hnewline]
  cases hparts : Tag.ofLine? l with
  | none => rfl
  | some parts =>
    have hname : parts.1 ≠ initTag := by
      rintro rfl
      exact hl parts.2 hparts
    refine List.find?_eq_none.mpr fun tag htag => ?_
    rw [List.mem_singleton.mp htag, Tag.name_ofParts]
    simpa using hname

/-- Documentation lines without the opening tag belong to no section of their own. -/
theorem cut_docFragments (n : Nat) {ls : List Text} (hnewline : ∀ l ∈ ls, '\n' ∉ l)
    (hls : ∀ l ∈ ls, ∀ inline, Tag.ofLine? l ≠ some (initTag, inline)) :
    cut initTag (docFragments n ls) = (docFragments n ls, []) := by
  induction ls generalizing n with
  | nil => rfl
  | cons l ls ih =>
    obtain ⟨hl, hrest⟩ := List.forall_mem_cons.mp hls
    obtain ⟨hlnewline, hrestnewline⟩ := List.forall_mem_cons.mp hnewline
    rw [docFragments, cut, ih (n + 1) hrestnewline hrest,
      openingTag?_docFragment_eq_none n hlnewline hl]

/-- Documentation lines with the opening tag on the first line are one section. -/
theorem cut_docFragments_cons (hblock : Tag.isBlockName initTag = false) (n : Nat) {l inline : Text}
    {ls : List Text} (hnewline : ∀ m ∈ l :: ls, '\n' ∉ m)
    (hl : Tag.ofLine? l = some (initTag, inline))
    (hls : ∀ m ∈ ls, ∀ text, Tag.ofLine? m ≠ some (initTag, text)) :
    cut initTag (docFragments n (l :: ls)) =
      ([], [⟨Tag.opening initTag inline n, docFragments n (l :: ls)⟩]) := by
  obtain ⟨hlnewline, hrestnewline⟩ := List.forall_mem_cons.mp hnewline
  rw [docFragments, cut, cut_docFragments (n + 1) hrestnewline hls,
    openingTag?_docFragment_of_ofLine? hblock n hlnewline hl]

/-- A block with a gutter of stars, with the opening tag on the first line behind a star, is one
section. -/
theorem cut_starFragment (hblock : Tag.isBlockName initTag = false) {l inline : Text}
    {ls : List Text} (hlines : ∀ m ∈ l :: ls, IsTrimmed m ∧ '\n' ∉ m) (hne : l ≠ [])
    (hl : Tag.ofLine? l = some (initTag, inline)) :
    cut initTag [starFragment (l :: ls)] =
      ([], [⟨Tag.opening initTag inline 2, [starFragment (l :: ls)]⟩]) := by
  have htags : Tag.ofFragment initTag (starFragment (l :: ls)) =
      Tag.opening initTag inline 2 :: (Tag.readLines initTag 3 ls).2 := by
    rw [Tag.ofFragment, starFragment, Tag.ofText_trim_unlines initTag 2 hlines ⟨l, rfl, hne⟩,
      Tag.ofText, lines_unlines (List.cons_ne_nil l ls) fun m hm => (hlines m hm).2, Tag.readLines,
      hl]
    exact congrArg (· :: _) (Tag.ofParts_opening hblock inline 2 _)
  have hopening : openingTag? initTag (starFragment (l :: ls)) =
      some (Tag.opening initTag inline 2) := by
    rw [openingTag?, htags, List.find?_cons_of_pos (by simp [Tag.opening])]
  rw [cut, cut, hopening]

/-- The tags that both forms give to their note differ in their lines only. -/
theorem tally_tags_starFragment {opening opening' : Tag} {l : Text} {ls : List Text}
    (hlines : ∀ m ∈ l :: ls, IsTrimmed m ∧ '\n' ∉ m) (hne : l ≠ []) :
    tally (Section.tags initTag ⟨opening', [starFragment (l :: ls)]⟩) =
      tally (Section.tags initTag ⟨opening, docFragments 1 (l :: ls)⟩) := by
  have hruns : runs [starFragment (l :: ls)] = [⟨trim (unlines (l :: ls)), 2⟩] := by
    have hcontent : unlines [trim (unlines (l :: ls))] = trim (unlines (l :: ls)) :=
      unlines_singleton _
    exact congrArg (fun t => [(⟨t, 2⟩ : Run)]) hcontent
  have htext : Tag.ofText initTag 2 (trim (unlines (l :: ls))) =
      (Tag.ofText initTag 1 (unlines (l :: ls))).map (Tag.moveDown 1) := by
    rw [Tag.ofText_trim_unlines initTag 2 hlines ⟨l, rfl, hne⟩]
    exact Tag.ofText_add 1 initTag 1 _
  rw [tags, tags, hruns, runs_docFragments 1 (List.cons_ne_nil l ls) fun m hm => (hlines m hm).2,
    List.flatMap_singleton, List.flatMap_singleton, htext, List.filter_map]
  exact tally_map_moveDown 1 _

end Section

/-- Documentation lines and a block with a gutter of stars around the same lines make the same note,
where the first line and no other is a line with the opening tag, and that has a key. Empty lines
may follow in both forms. -/
theorem Note.ofText_docLines_starBlock (file : SourceFile)
    (hblock : Tag.isBlockName initTag = false) {l : BodyLine} {ls : List BodyLine} {inline : Text}
    (hl : Tag.ofLine? l.text = some (initTag, inline)) (hkey : trim inline ≠ [])
    (hls : ∀ m ∈ ls, ∀ text, Tag.ofLine? m.text ≠ some (initTag, text)) (j k : Nat) :
    ∃ n : Note,
      Note.ofText initTag .cLike file
          (unlines (((l :: ls).map BodyLine.text).map docLine ++ List.replicate j [])) =
            .ok [n] ∧
        Note.ofText initTag .cLike file
          (unlines (starBlock ((l :: ls).map BodyLine.text) ++ List.replicate k [])) = .ok [n] ∧
        (Tag.keyAndLabel (trim inline)).head? = some n.key ∧ n.origin.line = 1 := by
  have hlines := forall_mem_map_text (l :: ls)
  have hnewline : ∀ t ∈ (l :: ls).map BodyLine.text, '\n' ∉ t := fun t ht => (hlines t ht).2
  have hothers : ∀ t ∈ ls.map BodyLine.text, ∀ text, Tag.ofLine? t ≠ some (initTag, text) := by
    intro t ht
    obtain ⟨m, hm, rfl⟩ := List.mem_map.mp ht
    exact hls m hm
  have hne : l.text ≠ [] := by
    intro hnil
    rw [hnil] at hl
    cases hl
  obtain ⟨key, more, harguments⟩ := Tag.exists_keyAndLabel hkey
  let opening := Tag.opening initTag inline 1
  let fragments := docFragments 1 ((l :: ls).map BodyLine.text)
  refine ⟨{
    label := more.head?.getD key
    origin := { file with line := 1, key := key }
    tags := Section.tally (Section.tags initTag ⟨opening, fragments⟩) }, ?_, ?_, ?_, rfl⟩
  · rw [Note.ofText, fragments_docLines (by simp) hlines j]
    apply Note.ofFragments_of_cut (Section.cut_docFragments_cons hblock 1 hnewline hl hothers)
    exact Section.note_eq_ok_iff.mpr ⟨key, more, harguments, rfl⟩
  · rw [Note.ofText, fragments_starBlock hne ls k]
    apply Note.ofFragments_of_cut (Section.cut_starFragment hblock hlines hne hl)
    refine Section.note_eq_ok_iff.mpr ⟨key, more, harguments, ?_⟩
    rw [Section.tally_tags_starFragment hlines hne]
    rfl
  · rw [harguments]
    rfl

/-- The line that opens a note with a label. -/
def openingLine : BodyLine :=
  .ofNoSlash "@doc a A b".toList (by decide) (by decide) (by decide)

/-- Lines of an example with a star and an empty line, a tag line, and an empty line. -/
def furtherLines : List BodyLine :=
  [.ofNoSlash "@example".toList (by decide) (by decide) (by decide),
    .ofNoSlash [] (by decide) (by decide) (by decide),
    .ofNoSlash "* p".toList (by decide) (by decide) (by decide),
    .ofNoSlash "@t x".toList (by decide) (by decide) (by decide),
    .ofNoSlash [] (by decide) (by decide) (by decide)]

/-- Both forms of a note with an example, with a final line feed behind the block only. -/
theorem Note.ofText_docLines_starBlock_openingLine :
    ∃ n : Note,
      Note.ofText "doc".toList .cLike ⟨[], [], [], []⟩
          "/// @doc a A b\n/// @example\n/// \n/// * p\n/// @t x\n/// ".toList = .ok [n] ∧
        Note.ofText "doc".toList .cLike ⟨[], [], [], []⟩
          "/**\n * @doc a A b\n * @example\n * \n * * p\n * @t x\n * \n */\n".toList =
            .ok [n] ∧
        n.key = ['a'] := by
  have hl : Tag.ofLine? openingLine.text = some ("doc".toList, "a A b".toList) := rfl
  have hls : ∀ m ∈ furtherLines, ∀ text, Tag.ofLine? m.text ≠ some ("doc".toList, text) := by
    have hnames : ∀ m ∈ furtherLines, (Tag.ofLine? m.text).map Prod.fst ≠ some "doc".toList := by
      decide
    intro m hm text h
    exact hnames m hm (congrArg (Option.map Prod.fst) h)
  obtain ⟨n, hdoc, hstar, hkey, -⟩ :=
    Note.ofText_docLines_starBlock ⟨[], [], [], []⟩ (by decide) hl (by decide) hls 0 1
  exact ⟨n, hdoc, hstar, (Option.some.inj hkey).symm⟩

end Marginalia
