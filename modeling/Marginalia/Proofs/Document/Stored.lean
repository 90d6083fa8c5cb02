import Marginalia.Document.Stored
import Marginalia.Proofs.Datum
import Marginalia.Proofs.Document
import Marginalia.Proofs.Note.Section
import Marginalia.Template.Render

/-!
# Written and read documents

A document is read back from the text in which it is stored, unless one of its tags is named like a
member of a stored note or one of its lines does not fit into a word. Neither happens in a document
that was read, nor in one of notes that were made of comments on lines that fit into a word.
-/

namespace Marginalia

open Text

/-- Whether a note is kept when it is stored: no tag is named like one of its other members, and its
line fits into a word. -/
structure Note.IsStorable (n : Note) : Prop where
  names : ∀ name ∈ Note.memberNames, n.occurrences? name = none
  line : n.origin.line < wordLimit

/-- Whether all notes of a document are kept when it is stored. -/
def Document.IsStorable (d : Document) : Prop :=
  ∀ e ∈ d.notes.entries, e.2.IsStorable

namespace Origin

/-- The stored form of an origin is made of texts and a natural number. -/
theorem isPlain_toJson (o : Origin) : o.toJson.IsPlain := by
  have hnames : ∀ name ∈ memberNames, name = Json.escape name := by decide
  refine .object (fun m hm => ?_) fun m hm => ?_
  · exact ⟨m.1, hnames m.1 (List.mem_map_of_mem (f := Prod.fst) hm)⟩
  · simp only [List.mem_cons, List.not_mem_nil, or_false] at hm
    rcases hm with rfl | rfl | rfl | rfl | rfl | rfl
    case inr.inl => exact .ofNat _
    all_goals exact .ofText _

/-- An origin is read back from its stored form if its line fits into a word. -/
theorem ofDatum?_toJson {o : Origin} (h : o.line < wordLimit) :
    ofDatum? (.ofJson o.toJson) = some o := by
  have hmembers : Datum.ofJson o.toJson = .table [
      ("path".toList, .text o.path), ("line".toList, .natural o.line),
      ("file".toList, .text o.name), ("ext".toList, .text o.extension),
      ("lastEdit".toList, .text o.lastEdit),
      ("key".toList, .text o.key)] := by
    have hnames := Datum.ofMembers_map Prod.fst Prod.snd [
      ("path".toList, .ofText o.path), ("line".toList, .ofNat o.line),
      ("file".toList, .ofText o.name), ("ext".toList, .ofText o.extension),
      ("lastEdit".toList, .ofText o.lastEdit), ("key".toList, Json.ofText o.key)]
    rw [toJson, Datum.ofJson]
    refine (congrArg (fun found => (found.map Datum.table).getD .other) hnames).trans ?_
    simp [Datum.ofJson_ofNat h]
  rw [hmembers]
  rfl

/-- An origin that is read has a line that fits into a word if the numbers of its data do. -/
theorem line_lt_of_ofDatum? {datum : Datum} (hdatum : datum.FitsWords) {o : Origin}
    (h : ofDatum? datum = some o) : o.line < wordLimit := by
  obtain ⟨fields, hfields, h⟩ := Option.bind_eq_some_iff.mp h
  split at h
  · rename_i path line name extension lastEdit key
    obtain ⟨_, -, h⟩ := Option.bind_eq_some_iff.mp h
    obtain ⟨n, hn, h⟩ := Option.bind_eq_some_iff.mp h
    have hfield := hdatum.of_mem_record? hfields line (by simp)
    obtain ⟨d, hd, hnatural⟩ := Option.bind_eq_some_iff.mp hn
    have hfits := hfield d hd
    have hlt : n < wordLimit := by
      cases hfits with
      | natural hvalue =>
        obtain rfl := Option.some.inj hnatural
        exact hvalue
      | _ => cases hnatural
    simp only [Option.bind_eq_bind, Option.bind_eq_some_iff, Option.pure_def,
      Option.some.injEq] at h
    obtain ⟨_, -, _, -, _, -, _, -, rfl⟩ := h
    exact hlt
  · cases h

end Origin

namespace Note

/-- The data of stored occurrences is decoded to the occurrences. -/
theorem list?_occurrencesToJson (occurrences : List (List Text)) :
    Datum.list? (Datum.list? Datum.text?) (.ofJson (occurrencesToJson occurrences)) =
      some occurrences :=
  Datum.list?_ofJson_array fun _ _ => Datum.list?_ofJson_array fun _ _ => by
    rw [Datum.ofJson_ofText]
    rfl

/-- The stored form of a note is made of texts and natural numbers. -/
theorem isPlain_members (n : Note) : (Json.object n.members).IsPlain := by
  have hnames : ∀ name ∈ memberNames, name = Json.escape name := by decide
  refine .object (List.forall_mem_cons.mpr ⟨?_, List.forall_mem_cons.mpr ⟨?_, fun m hm => ?_⟩⟩)
    (List.forall_mem_cons.mpr ⟨.ofText _, List.forall_mem_cons.mpr
      ⟨n.origin.isPlain_toJson, fun m hm => ?_⟩⟩)
  · exact ⟨_, hnames "label".toList (by decide)⟩
  · exact ⟨_, hnames "meta".toList (by decide)⟩
  · obtain ⟨e, -, rfl⟩ := List.mem_map.mp hm
    exact ⟨e.1, rfl⟩
  · obtain ⟨e, -, rfl⟩ := List.mem_map.mp hm
    refine .array fun occurrence hoccurrence => ?_
    obtain ⟨fields, -, rfl⟩ := List.mem_map.mp hoccurrence
    refine .array fun field hfield => ?_
    obtain ⟨t, -, rfl⟩ := List.mem_map.mp hfield
    exact .ofText t

/-- No tag of a note that can be stored has the name of another member. -/
theorem IsStorable.notMem_memberNames {n : Note} (h : n.IsStorable) :
    ∀ e ∈ n.tags.entries, e.1 ∉ memberNames := by
  intro e he hname
  have hfound := n.tags.mem_entries_iff.mp he
  have hnone := h.names e.1 hname
  rw [occurrences?, hfound] at hnone
  cases hnone

/-- The data of the members of a stored note. -/
theorem ofJson_members (n : Note) :
    Datum.ofJson (.object n.members) = .table (("label".toList, .text n.label) ::
      ("meta".toList, .ofJson n.origin.toJson) ::
        n.tags.entries.map fun e => (e.1, .ofJson (occurrencesToJson e.2))) := by
  have hnames := Datum.ofMembers_map Prod.fst Prod.snd (("label".toList, .ofText n.label) ::
    ("meta".toList, n.origin.toJson) ::
      n.tags.entries.map fun e => (e.1, occurrencesToJson e.2))
  have hmembers : n.members = (("label".toList, Json.ofText n.label) ::
      ("meta".toList, n.origin.toJson) :: n.tags.entries.map fun e =>
        (e.1, occurrencesToJson e.2)).map fun x => (Json.escape x.1, x.2) := by
    rw [members, List.map_cons, List.map_cons, List.map_map]
    rfl
  rw [Datum.ofJson, hmembers, hnames, Option.map_some, Option.getD_some]
  simp [Function.comp_def]

/-- The two members of a stored note that are no tags are found beside any tags. -/
theorem record?_memberNames {tags : List (Text × Datum)} (h : ∀ e ∈ tags, e.1 ∉ memberNames)
    (label origin : Datum) :
    (Datum.table (("label".toList, label) :: ("meta".toList, origin) :: tags)).record? false
      memberNames = some [some label, some origin] := by
  have hcount : ∀ name ∈ memberNames, tags.countP (fun e => e.1 == name) = 0 := by
    intro name hname
    apply List.countP_eq_zero.mpr
    intro e he heq
    exact h e he (beq_iff_eq.mp heq ▸ hname)
  rw [Datum.record?, if_pos]
  · rfl
  · apply List.all_eq_true.mpr
    intro name hname
    apply decide_eq_true
    rw [List.countP_cons, List.countP_cons, hcount name hname]
    rcases List.mem_pair.mp hname with rfl | rfl <;> exact Nat.le_refl 1

/-- The other members of a stored note are its tags. -/
theorem filter_memberNames {tags : List (Text × Datum)} (h : ∀ e ∈ tags, e.1 ∉ memberNames)
    (label origin : Datum) :
    ((("label".toList, label) :: ("meta".toList, origin) :: tags).filter
      fun e => e.1 ∉ memberNames) = tags := by
  have hlabel : "label".toList ∈ memberNames := by decide
  have hmeta : "meta".toList ∈ memberNames := by decide
  rw [List.filter_cons_of_neg (by simpa using hlabel),
    List.filter_cons_of_neg (by simpa using hmeta), List.filter_eq_self]
  exact fun e he => decide_eq_true (h e he)

/-- A note is read back from its stored form if it can be stored. -/
theorem ofDatum?_members {n : Note} (h : n.IsStorable) :
    ofDatum? (.ofJson (.object n.members)) = some n := by
  have hnot : ∀ e ∈ n.tags.entries.map fun e => (e.1, Datum.ofJson (occurrencesToJson e.2)),
      e.1 ∉ memberNames := by
    intro e he
    obtain ⟨tag, htag, rfl⟩ := List.mem_map.mp he
    exact h.notMem_memberNames tag htag
  have htags := Datum.dictionary?_table (d := n.tags) (Datum.list? (Datum.list? Datum.text?))
    (fun occurrences => .ofJson (occurrencesToJson occurrences))
    fun e _ => list?_occurrencesToJson e.2
  have horigin := Origin.ofDatum?_toJson h.line
  rw [ofJson_members, ofDatum?, record?_memberNames hnot, filter_memberNames hnot]
  simp only [Option.bind_eq_bind, Option.bind_some, htags, Datum.fieldOf, horigin, Datum.text?]
  rfl

/-- A note that is read can be stored if the numbers of its data fit into words. -/
theorem isStorable_of_ofDatum? {datum : Datum} (hdatum : datum.FitsWords) {n : Note}
    (h : ofDatum? datum = some n) : n.IsStorable := by
  cases datum with
  | table entries =>
    obtain ⟨fields, hfields, h⟩ := Option.bind_eq_some_iff.mp h
    split at h
    · rename_i label origin
      simp only [Option.bind_eq_bind, Option.bind_eq_some_iff, Option.pure_def,
        Option.some.injEq] at h
      obtain ⟨_, -, o, ho, tags, htags, rfl⟩ := h
      refine ⟨fun name hname => ?_, ?_⟩
      · rw [occurrences?, Option.eq_none_iff_forall_ne_some]
        intro occurrences hfound
        obtain ⟨d, hd, -⟩ := Datum.exists_of_mem_dictionary? htags _
          (tags.mem_entries_iff.mpr hfound)
        exact of_decide_eq_true (List.mem_filter.mp hd).2 hname
      · obtain ⟨d, hd, hofDatum⟩ := Option.bind_eq_some_iff.mp ho
        exact Origin.line_lt_of_ofDatum?
          (hdatum.of_mem_record? hfields origin (by simp) d hd) hofDatum
    · cases h
  | _ => cases h

/-- A note of a section can be stored if the lines of the comments fit into words. -/
theorem isStorable_of_section {initTag : Text} {file : SourceFile} {s : Section}
    (hheaded : s.IsHeaded initTag) (hlines : ∀ f ∈ s.fragments, f.line < wordLimit) {n : Note}
    (h : s.note initTag file = .ok n) : n.IsStorable := by
  obtain ⟨f, rest, hf, -, -⟩ := hheaded
  obtain ⟨key, more, -, rfl⟩ := Section.note_eq_ok_iff.mp h
  refine ⟨fun name hname => ?_, ?_⟩
  · have hnot : ¬ Section.IsKeptName initTag name := fun hkept => hkept.2 hname
    rw [occurrences?, Section.find?_tally, if_pos (Section.filter_tags_eq_nil s hnot)]
  · rw [hf] at hlines ⊢
    exact hlines f List.mem_cons_self

/-- Notes of comments can be stored if the lines of the comments fit into words. -/
theorem isStorable_of_ofFragments {initTag : Text} {file : SourceFile}
    {fragments : List Comment.Fragment} (hlines : ∀ f ∈ fragments, f.line < wordLimit)
    {notes : List Note} (h : ofFragments initTag file fragments = .ok notes) :
    ∀ n ∈ notes, n.IsStorable := by
  intro n hn
  obtain ⟨s, hs, hnote⟩ := exists_section_of_mem h hn
  refine isStorable_of_section (Section.isHeaded_of_mem_snd_cut s hs) (fun f hf => hlines f ?_) hnote
  rw [← Section.append_cut initTag fragments]
  exact List.mem_append_right _ (List.mem_flatMap.mpr ⟨s, hs, hf⟩)

end Note

namespace Document

/-- The data of a stored document. -/
theorem ofJson_toJson (d : Document) :
    Datum.ofJson d.toJson =
      .table (d.notes.entries.map fun e => (e.1, .ofJson (.object e.2.members))) := by
  rw [toJson, Datum.ofJson, Datum.ofMembers_map, Option.map_some, Option.getD_some]

/-- A document is decoded from its stored form if its notes can be stored. -/
theorem ofDatum?_toJson {d : Document} (h : d.IsStorable) :
    ofDatum? (.ofJson d.toJson) = some d := by
  have hnotes := Datum.dictionary?_table (d := d.notes) Note.ofDatum?
    (fun n => .ofJson (.object n.members)) fun e he => Note.ofDatum?_members (h e he)
  rw [ofJson_toJson, ofDatum?, hnotes]
  rfl

/-- The stored form of a document is made of texts and natural numbers. -/
theorem isPlain_toJson (d : Document) : d.toJson.IsPlain := by
  refine .object (fun m hm => ?_) fun m hm => ?_
  · obtain ⟨e, -, rfl⟩ := List.mem_map.mp hm
    exact ⟨e.1, rfl⟩
  · obtain ⟨e, -, rfl⟩ := List.mem_map.mp hm
    exact e.2.isPlain_members

/-- A document that can be stored is read back from its text. -/
theorem read_write {d : Document} (h : d.IsStorable) : read d.write = .ok d := by
  rw [read, write, Json.read?_pretty d.isPlain_toJson]
  simp only [Option.map_some, Option.bind_some, ofDatum?_toJson h]

/-- A document that is read can be stored. -/
theorem isStorable_of_read {t : Text} {d : Document} (h : read t = .ok d) : d.IsStorable := by
  rw [read] at h
  split at h
  · rename_i found hfound
    obtain rfl := Except.ok.inj h
    obtain ⟨datum, hdatum, hofDatum⟩ := Option.bind_eq_some_iff.mp hfound
    obtain ⟨v, -, rfl⟩ := Option.map_eq_some_iff.mp hdatum
    obtain ⟨notes, hnotes, rfl⟩ := Option.map_eq_some_iff.mp hofDatum
    have hfits := Datum.fitsWords_ofJson v
    intro e he
    cases hv : Datum.ofJson v with
    | table entries =>
      rw [hv] at hnotes hfits
      obtain ⟨datum, hmem, hnote⟩ := Datum.exists_of_mem_dictionary? hnotes e he
      cases hfits with
      | table hentries => exact Note.isStorable_of_ofDatum? (hentries _ hmem) hnote
    | _ =>
      rw [hv] at hnotes
      cases hnotes
  · cases h

/-- A document of notes that can be stored can be stored. -/
theorem isStorable_of_ofNotes {notes : List Note} (hnotes : ∀ n ∈ notes, n.IsStorable)
    {d : Document} (h : ofNotes notes = .ok d) : d.IsStorable := by
  obtain ⟨-, rfl⟩ := ofNotes_eq_ok_iff.mp h
  intro e he
  obtain ⟨k, -, hk⟩ :=
    (find?_foldl_offer_eq_some_iff notes).mp ((Dictionary.mem_entries_iff _).mp he)
  exact hnotes e.2 (List.mem_of_find?_eq_some hk)

/-- A document in which no tag is named like another member of a stored note, and in which every
line fits into a word, is read back from its text as it was, so that every template renders as it
does with the document itself. A document that was read from any text is read back like that, and so
is every document of notes that were made of comments, whatever their files and sections. -/
theorem read_write_eq_ok :
    (∀ d : Document, d.IsStorable → read d.write = .ok d ∧
      ∀ t, ((read d.write).bind fun e => Template.render e t) = Template.render d t) ∧
    (∀ t d, read t = .ok d → read d.write = .ok d ∧
      ∀ u, ((read d.write).bind fun e => Template.render e u) = Template.render d u) ∧
    (∀ initTag notes d,
      (∀ n ∈ notes, ∃ file fragments found, (∀ f ∈ fragments, f.line < wordLimit) ∧
        Note.ofFragments initTag file fragments = .ok found ∧ n ∈ found) →
      ofNotes notes = .ok d → d.IsStorable) := by
  have hread (d : Document) (h : d.IsStorable) : read d.write = .ok d ∧
      ∀ t, ((read d.write).bind fun e => Template.render e t) = Template.render d t :=
    ⟨read_write h, fun t => by rw [read_write h]; rfl⟩
  refine ⟨hread, fun t d h => hread d (isStorable_of_read h), fun initTag notes d hnotes h => ?_⟩
  refine isStorable_of_ofNotes (fun n hn => ?_) h
  obtain ⟨file, fragments, found, hlines, hfound, hmem⟩ := hnotes n hn
  exact Note.isStorable_of_ofFragments hlines hfound n hmem

/-- A document with a quote, a backslash and a control character in a label, the largest line, and
empty lists of fields and occurrences. -/
def escapedDocument : Document :=
  ⟨Dictionary.empty.insert "doc.k".toList
    { label := "\"\\\x01".toList
      origin := ⟨⟨"p".toList, [], [], []⟩, 18446744073709551615, ['k']⟩
      tags := (Dictionary.empty.insert ['t'] [["\n".toList, []], []]).insert ['u'] [] }⟩

/-- A stored note with a tag, whose origin is a list and whose label holds an escape. -/
def taggedText : Text :=
  ("\x7b\"k\": \x7b\"t\": [[\"x\"]], \"meta\": [\"\", 1, \"\", \"\", \"\", \"k\"], " ++
    "\"label\": \"\\u0041\"\x7d\x7d").toList

/-- What the text stands for. -/
def taggedDocument : Document :=
  ⟨Dictionary.empty.insert ['k']
    { label := ['A']
      origin := ⟨⟨[], [], [], []⟩, 1, ['k']⟩
      tags := Dictionary.empty.insert ['t'] [[['x']]] }⟩

/-- Both documents are read back, the second also from the text it was read from, and so is the
document of the notes of a source. -/
theorem read_write_eq_ok_escaped :
    read escapedDocument.write = .ok escapedDocument ∧
    read taggedText = .ok taggedDocument ∧
    read taggedDocument.write = .ok taggedDocument ∧
    ∃ notes d, Note.ofFragments "doc".toList ⟨[], [], [], []⟩
        (Comment.fragments .cLike "// @doc a\n// @t c".toList) = .ok notes ∧
      ofNotes notes = .ok d ∧ d.IsStorable := by
  obtain ⟨hstorable, hread, hmade⟩ := read_write_eq_ok
  have hescaped : escapedDocument.IsStorable :=
    List.forall_mem_singleton.mpr
      ⟨by decide, by change 18446744073709551615 < 18446744073709551616; decide⟩
  obtain ⟨notes, d, hnotes, hd⟩ : ∃ notes d, Note.ofFragments "doc".toList ⟨[], [], [], []⟩
      (Comment.fragments .cLike "// @doc a\n// @t c".toList) = .ok notes ∧ ofNotes notes = .ok d :=
    ⟨_, _, rfl, rfl⟩
  have hlines : ∀ f ∈ Comment.fragments .cLike "// @doc a\n// @t c".toList, f.line < 3 := by
    decide
  have htagged : read taggedText = .ok taggedDocument := by decide +kernel
  refine ⟨(hstorable escapedDocument hescaped).1, htagged, (hread _ _ htagged).1, notes, d, hnotes,
    hd, hmade "doc".toList notes d (fun n hn => ?_) hd⟩
  have hword : 3 ≤ wordLimit := by change 3 ≤ 18446744073709551616; decide
  exact ⟨_, _, notes, fun f hf => (hlines f hf).trans_le hword, hnotes, hn⟩

end Document

end Marginalia
