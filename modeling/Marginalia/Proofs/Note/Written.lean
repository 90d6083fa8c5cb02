import Mathlib.Data.List.SplitBy
import Marginalia.Note.Assemble
import Marginalia.Proofs.Comment.DocLine
import Marginalia.Proofs.Dictionary
import Marginalia.Proofs.Outcome
import Marginalia.Proofs.Tag.Line

/-!
# Written notes

A note is written as documentation lines one below the other: the opening tag with a key, and then
tag lines. Lines of code stand between notes. The source text is read back as these notes, each
with its key and with the words of each tag line as the fields of an occurrence of its tag.
-/

namespace Marginalia

open Text Comment

/-- The tags that open a note, run over several lines, have fields of their own kind or mean
something else in a stored note. -/
def specialNames : List Text :=
  ["doc".toList, "description".toList, "example".toList, "param".toList, "returns".toList,
    "label".toList, "meta".toList]

/-- A tag line whose words are the fields of its tag. -/
structure FieldLine extends Tag.Line where
  name_notMem : name ∉ specialNames

/-- A note as it is meant: a key and tag lines. -/
structure WrittenNote where
  key : Text.Stretch isNameChar
  lines : List FieldLine

namespace WrittenNote

/-- The tag line that opens a note. -/
def opening (n : WrittenNote) : Tag.Line where
  name := "doc".toList
  isName_name := by decide
  words := [⟨n.key.text, n.key.ne_nil, fun c hc => by simp [n.key.isWordText.2 c hc]⟩]

/-- The tag lines of a note, with the one that opens it. -/
def tagLines (n : WrittenNote) : List Tag.Line :=
  n.opening :: n.lines.map FieldLine.toLine

/-- The texts of the documentation lines that a note is written in. -/
def bodies (n : WrittenNote) : List Text :=
  n.tagLines.map Tag.Line.text

/-- The occurrences of a tag: the words of each of its lines. -/
def occurrences (n : WrittenNote) (tag : Text) : List (List Text) :=
  (n.lines.filter fun l => l.name = tag).map fun l => l.fields

/-- The note that is read when the first line has a number. -/
def note (file : SourceFile) (number : Nat) (n : WrittenNote) : Note where
  label := n.key.text
  origin := { file with line := number, key := n.key.text }
  tags := Section.tally (Tag.Line.tags "doc".toList (number + 1) (n.lines.map FieldLine.toLine))

end WrittenNote

/-- The source lines of notes, each with a line of code in front of it but the first, whose line of
code is left out. -/
def writtenLines : List (CodeLine × WrittenNote) → List Text
  | [] => []
  | (_, n) :: rest => n.bodies.map docLine ++
      rest.flatMap fun (code, m) => code.text :: m.bodies.map docLine

/-- The source text of notes. -/
def writtenText (notes : List (CodeLine × WrittenNote)) : Text :=
  unlines (writtenLines notes)

/-- The documentation lines of a note have no blanks at their ends. -/
theorem WrittenNote.isTrimmed_of_mem_bodies (n : WrittenNote) : ∀ body ∈ n.bodies, IsTrimmed body := by
  intro body hbody
  obtain ⟨l, -, rfl⟩ := List.mem_map.mp hbody
  exact l.isTrimmed_text

/-- The documentation lines of a note stand on one line each. -/
theorem WrittenNote.newline_notMem_of_mem_bodies (n : WrittenNote) :
    ∀ body ∈ n.bodies, '\n' ∉ body := by
  intro body hbody
  obtain ⟨l, -, rfl⟩ := List.mem_map.mp hbody
  exact l.newline_notMem_text

/-- The comments of notes, each behind a line of code, of which the first has a number. -/
def writtenFragments : Nat → List (CodeLine × WrittenNote) → List Fragment
  | _, [] => []
  | number, (_, n) :: rest =>
    docFragments (number + 1) n.bodies ++
      writtenFragments (number + 1 + n.bodies.length) rest

/-- Notes behind lines of code are read as their comments. -/
theorem readLines_writtenLines (number : Nat) (notes : List (CodeLine × WrittenNote)) :
    readLines .cLike number none
        (notes.flatMap fun u => chomp u.1.text :: u.2.bodies.map docLine) =
      writtenFragments number notes := by
  induction notes generalizing number with
  | nil => rfl
  | cons u rest ih =>
    rw [List.flatMap_cons, List.cons_append, readLines, u.1.readLine_chomp]
    simp only [Option.toList_none, List.nil_append]
    rw [readLines_docLines_append _ u.2.isTrimmed_of_mem_bodies, ih, writtenFragments]

/-- The lines of a written source stand on one line each. -/
theorem newline_notMem_of_mem_writtenLines {notes : List (CodeLine × WrittenNote)} :
    ∀ l ∈ writtenLines notes, '\n' ∉ l := by
  have hdoc (n : WrittenNote) : ∀ l ∈ n.bodies.map docLine, '\n' ∉ l := by
    intro l hl
    obtain ⟨body, hbody, rfl⟩ := List.mem_map.mp hl
    have := n.newline_notMem_of_mem_bodies body hbody
    simp [docLine, this]
  cases notes with
  | nil => simp [writtenLines]
  | cons u rest =>
    intro l hl
    rcases List.mem_append.mp hl with hl | hl
    · exact hdoc u.2 l hl
    · obtain ⟨v, -, hl⟩ := List.mem_flatMap.mp hl
      rcases List.mem_cons.mp hl with rfl | hl
      · exact v.1.newline_notMem
      · exact hdoc v.2 l hl

/-- Documentation lines end with no carriage returns. -/
theorem WrittenNote.map_chomp_docLines (n : WrittenNote) :
    (n.bodies.map docLine).map chomp = n.bodies.map docLine := by
  rw [List.map_map]
  apply List.map_congr_left
  intro body hbody
  exact chomp_docLine (n.isTrimmed_of_mem_bodies body hbody)

/-- A written source is read as the comments of its notes. -/
theorem fragments_writtenText (notes : List (CodeLine × WrittenNote)) :
    fragments .cLike (writtenText notes) = writtenFragments 0 notes := by
  cases notes with
  | nil => rfl
  | cons u rest =>
    have hne : writtenLines (u :: rest) ≠ [] := by
      simp [writtenLines, WrittenNote.bodies, WrittenNote.tagLines]
    have hchomp : (writtenLines (u :: rest)).map chomp = u.2.bodies.map docLine ++
        rest.flatMap fun v => chomp v.1.text :: v.2.bodies.map docLine := by
      rw [writtenLines, List.map_append, u.2.map_chomp_docLines, List.map_flatMap]
      simp only [List.map_cons, WrittenNote.map_chomp_docLines]
    rw [fragments, sourceLines, writtenText,
      lines_unlines hne newline_notMem_of_mem_writtenLines, hchomp,
      readLines_docLines_append _ u.2.isTrimmed_of_mem_bodies, readLines_writtenLines]
    rfl

/-- A documentation line with a tag line has its tag as its only tag. -/
theorem ofFragment_docFragment (number : Nat) (l : Tag.Line) :
    Tag.ofFragment "doc".toList (docFragment number l.text) = [l.tag "doc".toList number] :=
  Tag.Line.ofText_text number l

/-- A documentation line heads a section when its tag is the opening tag. -/
theorem openingTag?_docFragment (number : Nat) (l : Tag.Line) :
    Section.openingTag? "doc".toList (docFragment number l.text) =
      if l.name = "doc".toList then some (l.tag "doc".toList number) else none := by
  rw [Section.openingTag?, ofFragment_docFragment]
  by_cases hl : l.name = "doc".toList
  · rw [if_pos hl, List.find?_cons_of_pos (by simpa using hl)]
  · rw [if_neg hl, List.find?_cons_of_neg (by simpa using hl), List.find?_nil]

/-- Documentation lines with other tags belong to no section of their own. -/
theorem cut_docFragments_append (number : Nat) (ls : List FieldLine) (rest : List Fragment) :
    Section.cut "doc".toList
        (docFragments number ((ls.map FieldLine.toLine).map Tag.Line.text) ++ rest) =
      (docFragments number ((ls.map FieldLine.toLine).map Tag.Line.text) ++
          (Section.cut "doc".toList rest).1,
        (Section.cut "doc".toList rest).2) := by
  induction ls generalizing number with
  | nil => rfl
  | cons l ls ih =>
    have hname : l.name ≠ "doc".toList := by
      intro h
      exact l.name_notMem (by simp [h, specialNames])
    rw [List.map_cons, List.map_cons, docFragments, List.cons_append, Section.cut, ih,
      openingTag?_docFragment, if_neg hname]
    rfl

/-- The sections of notes behind lines of code, of which the first has a number. -/
def writtenSections : Nat → List (CodeLine × WrittenNote) → List Section
  | _, [] => []
  | number, (_, n) :: rest =>
    ⟨n.opening.tag "doc".toList (number + 1), docFragments (number + 1) n.bodies⟩ ::
      writtenSections (number + 1 + n.bodies.length) rest

/-- The comments of notes are cut into one section for each note. -/
theorem cut_writtenFragments (number : Nat) (notes : List (CodeLine × WrittenNote)) :
    Section.cut "doc".toList (writtenFragments number notes) =
      ([], writtenSections number notes) := by
  induction notes generalizing number with
  | nil => rfl
  | cons u rest ih =>
    have hopening : u.2.opening.name = "doc".toList := rfl
    rw [writtenFragments, WrittenNote.bodies, WrittenNote.tagLines, List.map_cons, docFragments,
      List.cons_append, Section.cut, cut_docFragments_append, ih, openingTag?_docFragment,
      if_pos hopening, List.append_nil]
    rfl

/-- Documentation lines one below the other go on with one another. -/
theorem isChain_docFragments (number : Nat) {bodies : List Text}
    (hlines : ∀ body ∈ bodies, '\n' ∉ body) :
    (docFragments number bodies).IsChain fun f g => Section.continues f g := by
  induction bodies generalizing number with
  | nil => exact List.IsChain.nil
  | cons body bodies ih =>
    obtain ⟨hbody, hrest⟩ := List.forall_mem_cons.mp hlines
    cases bodies with
    | nil => exact List.IsChain.singleton _
    | cons next bodies =>
      have hcount : (docLine body).count '\n' = 0 := by
        rw [List.count_eq_zero, docLine, List.mem_append, not_or]
        exact ⟨by decide, hbody⟩
      have hend : (docFragment number body).endLine = number := by
        rw [Fragment.endLine, docFragment, hcount, Nat.add_zero]
      have hnext : Section.continues (docFragment number body) (docFragment (number + 1) next) =
          true := by
        rw [Section.continues, hend]
        simp [docFragment, Kind.isLine]
      exact List.IsChain.cons_cons hnext (ih (number + 1) hrest)

/-- The contents of documentation lines are their texts. -/
theorem map_content_docFragments (number : Nat) (bodies : List Text) :
    (docFragments number bodies).map (·.content) = bodies := by
  induction bodies generalizing number with
  | nil => rfl
  | cons body bodies ih =>
    rw [docFragments, List.map_cons, ih]
    rfl

/-- Documentation lines are read as one text. -/
theorem runs_docFragments (number : Nat) {bodies : List Text} (hne : bodies ≠ [])
    (hlines : ∀ body ∈ bodies, '\n' ∉ body) :
    Section.runs (docFragments number bodies) = [⟨unlines bodies, number⟩] := by
  have hfragments : docFragments number bodies ≠ [] := by
    obtain ⟨body, rest, rfl⟩ := List.exists_cons_of_ne_nil hne
    exact List.cons_ne_nil _ _
  have hhead : ((docFragments number bodies).head?.map (·.contentLine)).getD 0 = number := by
    obtain ⟨body, rest, rfl⟩ := List.exists_cons_of_ne_nil hne
    rfl
  rw [Section.runs, List.splitBy_of_isChain hfragments (isChain_docFragments number hlines),
    List.map_singleton, Section.runOf, map_content_docFragments, hhead]

/-- The name of a tag line with fields is none of the special names. -/
theorem FieldLine.name_ne (l : FieldLine) {name : Text} (h : name ∈ specialNames) : l.name ≠ name :=
  fun heq => l.name_notMem (heq ▸ h)

/-- Tags with fields are all kept. -/
theorem filter_tags_map_toLine (number : Nat) (ls : List FieldLine) :
    (Tag.Line.tags "doc".toList number (ls.map FieldLine.toLine)).filter
        (fun tag => tag.name != "doc".toList && !Section.reservedNames.contains tag.name) =
      Tag.Line.tags "doc".toList number (ls.map FieldLine.toLine) := by
  rw [List.filter_eq_self]
  intro tag htag
  obtain ⟨_, hline, k, rfl⟩ := Tag.Line.exists_of_mem_tags htag
  obtain ⟨l, -, rfl⟩ := List.mem_map.mp hline
  have hdoc : l.name ≠ "doc".toList := l.name_ne (by decide)
  have hlabel : l.name ≠ "label".toList := l.name_ne (by decide)
  have hmeta : l.name ≠ "meta".toList := l.name_ne (by decide)
  rw [Tag.Line.name_tag, Bool.and_eq_true, bne_iff_ne, Bool.not_eq_true']
  refine ⟨hdoc, ?_⟩
  rw [← Bool.not_eq_true, List.contains_iff_mem, Section.reservedNames]
  simp only [List.mem_cons, List.not_mem_nil, or_false, not_or]
  exact ⟨hlabel, hmeta⟩

/-- The tags of a written note are those of its lines. -/
theorem tags_writtenSection (number : Nat) (n : WrittenNote) :
    Section.tags "doc".toList ⟨n.opening.tag "doc".toList number, docFragments number n.bodies⟩ =
      Tag.Line.tags "doc".toList (number + 1) (n.lines.map FieldLine.toLine) := by
  have hne : n.tagLines ≠ [] := List.cons_ne_nil _ _
  rw [Section.tags, runs_docFragments number (by simpa [WrittenNote.bodies] using hne)
    n.newline_notMem_of_mem_bodies, List.flatMap_singleton, WrittenNote.bodies,
    Tag.Line.ofText_unlines number hne, WrittenNote.tagLines, Tag.Line.tags,
    List.filter_cons_of_neg (by simp [WrittenNote.opening]), filter_tags_map_toLine]

/-- A written note is read back. -/
theorem note_writtenSection (file : SourceFile) (number : Nat) (n : WrittenNote) :
    Section.note "doc".toList file
        ⟨n.opening.tag "doc".toList number, docFragments number n.bodies⟩ =
      .ok (n.note file number) := by
  have hblock : Tag.isBlockName "doc".toList = false := by decide
  have harguments : (n.opening.tag "doc".toList number).arguments = [n.key.text] :=
    Tag.Line.arguments_tag number hblock rfl rfl
  have hfirst : (((docFragments number n.bodies).head?.map (·.line)).getD
      (n.opening.tag "doc".toList number).line) = number := rfl
  rw [Section.note, harguments]
  simp only [hfirst, tags_writtenSection]
  rfl

/-- The notes that are read, where the first stands behind a line of code with a number. -/
def writtenNotes (file : SourceFile) : Nat → List (CodeLine × WrittenNote) → List Note
  | _, [] => []
  | number, (_, n) :: rest =>
    n.note file (number + 1) :: writtenNotes file (number + 1 + n.bodies.length) rest

/-- The sections of written notes make these notes. -/
theorem mapM_writtenSections (file : SourceFile) (number : Nat)
    (notes : List (CodeLine × WrittenNote)) :
    (writtenSections number notes).mapM (Section.note "doc".toList file) =
      .ok (writtenNotes file number notes) := by
  induction notes generalizing number with
  | nil => rfl
  | cons u rest ih =>
    rw [writtenSections, List.mapM_cons, note_writtenSection, ih]
    rfl

/-- A written source is read as its notes. -/
theorem ofText_writtenText (file : SourceFile) (notes : List (CodeLine × WrittenNote)) :
    Note.ofText "doc".toList .cLike file (writtenText notes) = .ok (writtenNotes file 0 notes) := by
  rw [Note.ofText, Note.ofFragments, fragments_writtenText, cut_writtenFragments,
    mapM_writtenSections]

/-- The notes that are read have the keys that were written. -/
theorem map_key_writtenNotes (file : SourceFile) (number : Nat)
    (notes : List (CodeLine × WrittenNote)) :
    (writtenNotes file number notes).map Note.key = notes.map fun u => u.2.key.text := by
  induction notes generalizing number with
  | nil => rfl
  | cons u rest ih =>
    rw [writtenNotes, List.map_cons, ih]
    rfl

/-- Each written note is among those that are read. -/
theorem exists_note_mem_writtenNotes (file : SourceFile) (number : Nat)
    {notes : List (CodeLine × WrittenNote)} {u : CodeLine × WrittenNote} (hu : u ∈ notes) :
    ∃ k, u.2.note file k ∈ writtenNotes file number notes := by
  induction notes generalizing number with
  | nil => cases hu
  | cons v rest ih =>
    rcases List.mem_cons.mp hu with rfl | hu
    · exact ⟨number + 1, List.mem_cons_self⟩
    · obtain ⟨k, hk⟩ := ih (number + 1 + v.2.bodies.length) hu
      exact ⟨k, List.mem_cons_of_mem _ hk⟩

/-- The fields of the tags of a name are the words of its lines. -/
theorem map_fields_filter_tags (number : Nat) (ls : List FieldLine) (tag : Text) :
    ((Tag.Line.tags "doc".toList number (ls.map FieldLine.toLine)).filter
        fun t => t.name = tag).map Tag.fields =
      (ls.filter fun l => l.name = tag).map fun l => l.fields := by
  induction ls generalizing number with
  | nil => rfl
  | cons l ls ih =>
    have hblock : Tag.isBlockName l.name = false := by
      rw [Tag.isBlockName, ← Bool.not_eq_true, List.contains_iff_mem, Tag.blockNames]
      simp only [List.mem_cons, List.not_mem_nil, or_false, not_or]
      exact ⟨l.name_ne (by decide), l.name_ne (by decide)⟩
    have hleading : Tag.leadingWords l.name = 0 := by
      rw [Tag.leadingWords, if_neg (l.name_ne (by decide)), if_neg (l.name_ne (by decide))]
    rw [List.map_cons, Tag.Line.tags]
    by_cases hl : l.name = tag
    · rw [List.filter_cons_of_pos (by simpa using hl), List.filter_cons_of_pos (by simpa using hl),
        List.map_cons, List.map_cons, ih, Tag.Line.fields_tag number hblock hleading]
    · rw [List.filter_cons_of_neg (by simpa using hl), List.filter_cons_of_neg (by simpa using hl),
        ih]

/-- A written note carries the tags of its lines, each with the words of its lines. -/
theorem WrittenNote.occurrences?_note (file : SourceFile) (number : Nat) (n : WrittenNote)
    (tag : Text) :
    (n.note file number).occurrences? tag =
      if n.occurrences tag = [] then none else some (n.occurrences tag) := by
  have hfields := map_fields_filter_tags (number + 1) n.lines tag
  have htally := Dictionary.find?_foldl_alter Tag.name Tag.fields
    (Tag.Line.tags "doc".toList (number + 1) (n.lines.map FieldLine.toLine)) .empty tag
  rw [hfields, Dictionary.find?_empty, Option.getD_none, List.nil_append] at htally
  rw [Note.occurrences?, WrittenNote.note, Section.tally, htally]
  refine if_congr ?_ rfl rfl
  rw [WrittenNote.occurrences, ← hfields, List.map_eq_nil_iff]

end Marginalia
