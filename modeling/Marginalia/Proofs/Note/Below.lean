import Marginalia.Proofs.Comment.Below
import Marginalia.Proofs.Note.Section

/-!
# Notes of texts one below the other

Lines are only numbers to what reads a note: further down, comments are cut into the same sections,
their texts have the same tags, and the notes differ in their line only. So two texts, of which the
second starts its comments with an opening tag, have the notes of both, one after the other.
-/

namespace Marginalia

open Text Comment

variable (k : Nat)

/-- A tag further down by a number of lines. -/
def Tag.moveDown (t : Tag) : Tag :=
  { t with line := t.line + k }

/-- A section further down by a number of lines. -/
def Section.moveDown (s : Section) : Section :=
  ⟨s.opening.moveDown k, s.fragments.map (Fragment.moveDown k)⟩

/-- A note further down by a number of lines. -/
def Note.moveDown (n : Note) : Note :=
  { n with origin := { n.origin with line := n.origin.line + k } }

/-- A failure further down by a number of lines. Only a missing key has a line. -/
def Failure.moveDown : Failure → Failure
  | .missingKey initTag path line => .missingKey initTag path (line + k)
  | failure => failure

namespace Tag

/-- Lines further down have the same tags further down. -/
theorem readLines_add (initTag : Text) (n : Nat) (ls : List Text) :
    readLines initTag (n + k) ls =
      ((readLines initTag n ls).1, (readLines initTag n ls).2.map (moveDown k)) := by
  induction ls generalizing n with
  | nil => rfl
  | cons l ls ih =>
    rw [readLines, readLines, Nat.add_right_comm, ih]
    cases ofLine? l with
    | none => rfl
    | some parts =>
      have hparts (following : List Text) : ofParts initTag parts.1 parts.2 (n + k) following =
          (ofParts initTag parts.1 parts.2 n following).moveDown k := by
        rw [ofParts, ofParts]
        split <;> rfl
      simp only [hparts, List.map_cons]

/-- A text further down has the same tags further down. -/
theorem ofText_add (initTag : Text) (n : Nat) (t : Text) :
    ofText initTag (n + k) t = (ofText initTag n t).map (moveDown k) := by
  rw [ofText, readLines_add, ofText]

/-- A comment further down has the same tags further down. -/
theorem ofFragment_moveDown (initTag : Text) (f : Fragment) :
    ofFragment initTag (f.moveDown k) = (ofFragment initTag f).map (moveDown k) :=
  ofText_add k initTag f.contentLine f.content

end Tag

namespace Section

/-- A comment further down has the same first opening tag further down. -/
theorem openingTag?_moveDown (initTag : Text) (f : Fragment) :
    openingTag? initTag (f.moveDown k) = (openingTag? initTag f).map (Tag.moveDown k) := by
  rw [openingTag?, Tag.ofFragment_moveDown, List.find?_map, openingTag?]
  rfl

/-- Comments further down are cut into the same sections further down. -/
theorem cut_map_moveDown (initTag : Text) (fragments : List Fragment) :
    cut initTag (fragments.map (Fragment.moveDown k)) =
      ((cut initTag fragments).1.map (Fragment.moveDown k),
        (cut initTag fragments).2.map (moveDown k)) := by
  induction fragments with
  | nil => rfl
  | cons f rest ih =>
    rw [List.map_cons, cut, cut, ih, openingTag?_moveDown]
    cases openingTag? initTag f <;> rfl

/-- Comments in front of comments that start with an opening tag are cut on their own. -/
theorem cut_append {initTag : Text} (above : List Fragment) {below : List Fragment}
    (h : (cut initTag below).1 = []) :
    cut initTag (above ++ below) =
      ((cut initTag above).1, (cut initTag above).2 ++ (cut initTag below).2) := by
  induction above with
  | nil => exact Prod.ext h rfl
  | cons f rest ih =>
    rw [List.cons_append, cut, cut, ih]
    cases openingTag? initTag f <;> rfl

/-- Comments that start with an opening tag have no loose comments. -/
theorem fst_cut_eq_nil {initTag : Text} {fragments : List Fragment}
    (h : ∃ f ∈ fragments.head?, Opens initTag f) : (cut initTag fragments).1 = [] := by
  obtain ⟨f, hf, hopens⟩ := h
  obtain ⟨rest, rfl⟩ := List.head?_eq_some_iff.mp hf
  rw [cut]
  cases hopening : openingTag? initTag f with
  | none => exact absurd hopens (openingTag?_eq_none_iff.mp hopening)
  | some tag => rfl

/-- Comments go on with one another further down as they did. -/
theorem continues_moveDown (f g : Fragment) :
    continues (f.moveDown k) (g.moveDown k) = continues f g := by
  have hend : (f.moveDown k).endLine = f.endLine + k := Nat.add_right_comm _ _ _
  have hline : (g.moveDown k).line = g.line + k := rfl
  have hsame : (g.line + k == f.endLine + k + 1) = (g.line == f.endLine + 1) := by
    rw [Nat.add_right_comm, Bool.eq_iff_iff, beq_iff_eq, beq_iff_eq, Nat.add_right_cancel_iff]
  rw [continues, continues, hend, hline, hsame]
  rfl

/-- Comments further down go on with one another in the same groups. -/
theorem splitBy_map_moveDown (fragments : List Fragment) :
    (fragments.map (Fragment.moveDown k)).splitBy continues =
      (fragments.splitBy continues).map (List.map (Fragment.moveDown k)) := by
  rw [List.splitBy_eq_iff]
  refine ⟨?_, ?_, ?_, ?_⟩
  · rw [← List.map_flatten, List.flatten_splitBy]
  · intro hnil
    obtain ⟨group, hgroup, hempty⟩ := List.mem_map.mp hnil
    exact List.ne_nil_of_mem_splitBy hgroup (List.map_eq_nil_iff.mp hempty)
  · intro moved hmoved
    obtain ⟨group, hgroup, rfl⟩ := List.mem_map.mp hmoved
    rw [List.isChain_map]
    simp only [continues_moveDown]
    exact List.isChain_of_mem_splitBy hgroup
  · rw [List.isChain_map]
    refine (List.isChain_getLast_head_splitBy continues fragments).imp fun g h hgh => ?_
    obtain ⟨hg, hh, hcontinues⟩ := hgh
    refine ⟨by simpa using hg, by simpa using hh, ?_⟩
    rw [List.getLast_map, List.head_map, continues_moveDown]
    exact hcontinues

/-- The texts of comments further down are the same, further down. -/
theorem runs_map_moveDown (fragments : List Fragment) :
    runs (fragments.map (Fragment.moveDown k)) =
      (runs fragments).map fun run => ⟨run.text, run.line + k⟩ := by
  rw [runs, splitBy_map_moveDown, runs, List.map_map, List.map_map]
  apply List.map_congr_left
  intro group hgroup
  obtain ⟨f, rest, rfl⟩ := List.exists_cons_of_ne_nil (List.ne_nil_of_mem_splitBy hgroup)
  have hcontents : (((f :: rest).map (Fragment.moveDown k)).map (·.content)) =
      (f :: rest).map (·.content) := by
    rw [List.map_map]
    rfl
  rw [Function.comp, Function.comp, runOf, hcontents]
  rfl

/-- A section further down gives the same tags, further down. -/
theorem tags_moveDown (initTag : Text) (s : Section) :
    (s.moveDown k).tags initTag = (s.tags initTag).map (Tag.moveDown k) := by
  rw [tags, tags, moveDown, runs_map_moveDown, List.flatMap_map]
  simp only [Tag.ofText_add]
  rw [← List.map_flatMap, List.filter_map]
  rfl

/-- The numbers of lines do not count for what tags are tallied to. -/
theorem tally_map_moveDown (ts : List Tag) : tally (ts.map (Tag.moveDown k)) = tally ts := by
  rw [tally, tally, List.foldl_map]
  rfl

/-- A section further down makes the same note further down, or fails further down. -/
theorem note_moveDown (initTag : Text) (file : SourceFile) (s : Section) :
    (s.moveDown k).note initTag file =
      ((s.note initTag file).mapError (Failure.moveDown k)).map (Note.moveDown k) := by
  have hline : (((s.moveDown k).fragments.head?.map (·.line)).getD (s.moveDown k).opening.line) =
      ((s.fragments.head?.map (·.line)).getD s.opening.line) + k := by
    rw [moveDown, List.head?_map]
    cases s.fragments.head? <;> rfl
  have harguments : (s.moveDown k).opening.arguments = s.opening.arguments := rfl
  rw [note, note, hline, tags_moveDown, tally_map_moveDown, harguments]
  cases s.opening.arguments <;> rfl

end Section

namespace Note

variable {initTag : Text} {file : SourceFile}

/-- Comments further down have the same notes further down, or fail further down. -/
theorem ofFragments_map_moveDown (initTag : Text) (file : SourceFile) (fragments : List Fragment) :
    ofFragments initTag file (fragments.map (Fragment.moveDown k)) =
      ((ofFragments initTag file fragments).mapError (Failure.moveDown k)).map
        (List.map (moveDown k)) := by
  rw [ofFragments, Section.cut_map_moveDown, List.mapM_map]
  exact mapM_eq_map_mapM (Section.note_moveDown k initTag file) _

/-- Comments fail to make notes for one reason only: a section has no key. -/
theorem eq_missingKey_of_ofFragments {fragments : List Fragment} {failure : Failure}
    (h : ofFragments initTag file fragments = .error failure) :
    ∃ line, failure = .missingKey initTag file.path line := by
  obtain ⟨s, -, hs⟩ := exists_of_mapM_eq_error h
  rw [Section.note] at hs
  cases harguments : s.opening.arguments with
  | nil =>
    rw [harguments] at hs
    exact ⟨s.opening.line, (Except.error.inj hs).symm⟩
  | cons key more =>
    rw [harguments] at hs
    cases hs

/-- The notes of two texts one below the other are those of the first and, further down, those of
the second, where the first leaves no block comment open and the comments of the second start with
an opening tag. If one of the two fails, so do both together, the first before the second. -/
theorem ofText_append_newline {style : Style} {a b : Text}
    (ha : openAfter style 1 none (sourceLines a) = none)
    (hb : ∃ f ∈ (fragments style b).head?, Section.Opens initTag f) :
    (ofText initTag style file (a ++ '\n' :: b) =
        match ofText initTag style file a, ofText initTag style file b with
        | .error failure, _ => .error failure
        | .ok _, .error failure => .error (failure.moveDown (lines a).length)
        | .ok above, .ok below => .ok (above ++ below.map (moveDown (lines a).length))) ∧
      ∀ failure, ofText initTag style file b = .error failure →
        ∃ line, failure = .missingKey initTag file.path line := by
  refine ⟨?_, fun failure h => eq_missingKey_of_ofFragments h⟩
  have hloose : (Section.cut initTag
      ((fragments style b).map (Fragment.moveDown (lines a).length))).1 = [] := by
    rw [Section.cut_map_moveDown, Section.fst_cut_eq_nil hb]
    rfl
  have hbelow := ofFragments_map_moveDown (lines a).length initTag file (fragments style b)
  rw [ofFragments] at hbelow
  rw [ofText, fragments_append_newline b ha, ofFragments, Section.cut_append _ hloose,
    List.mapM_append, hbelow]
  change (ofText initTag style file a >>= fun above => _) = _
  rw [ofText, ofText]
  cases ofFragments initTag file (fragments style a) with
  | error failure => rfl
  | ok above => cases ofFragments initTag file (fragments style b) <;> rfl

/-- A text with a note, and a line of code below it. -/
def upperText : Text :=
  "// @doc a\n// @t x\nf();".toList

/-- A text that has a note of two comments, a block and a line. -/
def lowerText : Text :=
  "/*\n@doc b\n*/\n// @t y".toList

/-- A text with a note, below which a key is missing. -/
def brokenText : Text :=
  "// @doc b\n\n// @doc".toList

/-- Below a text of three lines, the line of a note and that of a missing key are greater by
three. -/
theorem ofText_append_newline_lowerText :
    openAfter .cLike 1 none (sourceLines upperText) = none ∧
      (∃ f ∈ (fragments .cLike lowerText).head?, Section.Opens "doc".toList f) ∧
      (∃ f ∈ (fragments .cLike brokenText).head?, Section.Opens "doc".toList f) ∧
      (∃ n m, ofText "doc".toList .cLike ⟨[], [], [], []⟩ upperText = .ok [n] ∧
        ofText "doc".toList .cLike ⟨[], [], [], []⟩ lowerText = .ok [m] ∧ m.origin.line = 1 ∧
        ofText "doc".toList .cLike ⟨[], [], [], []⟩ (upperText ++ '\n' :: lowerText) =
          .ok [n, m.moveDown 3]) ∧
      ofText "doc".toList .cLike ⟨[], [], [], []⟩ (upperText ++ '\n' :: brokenText) =
        .error (.missingKey "doc".toList [] 6) := by
  have hupper : openAfter .cLike 1 none (sourceLines upperText) = none := rfl
  have hlower : ∃ f ∈ (fragments .cLike lowerText).head?, Section.Opens "doc".toList f :=
    ⟨_, rfl, by decide⟩
  have hbroken : ∃ f ∈ (fragments .cLike brokenText).head?, Section.Opens "doc".toList f :=
    ⟨_, rfl, by decide⟩
  refine ⟨hupper, hlower, hbroken, ⟨_, _, rfl, rfl, rfl, ?_⟩, ?_⟩
  · exact (ofText_append_newline hupper hlower).1.trans rfl
  · exact (ofText_append_newline hupper hbroken).1.trans rfl

end Note

end Marginalia
