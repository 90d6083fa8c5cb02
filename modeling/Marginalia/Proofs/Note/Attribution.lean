import Marginalia.Proofs.Note.Section

/-!
# The note to which a tag goes

Every tag of a comment, from the first comment with an opening tag on, is kept in exactly one note,
and the notes keep their tags in the order of the source. A comment opens at most one note: its
first opening tag counts as if it stood in front of the other tags of the comment, and further
opening tags count for nothing. Read that way, each opening tag opens a note, and every other tag
goes to the note of the nearest opening tag before it.
-/

namespace Marginalia

open Text Comment Section

variable {initTag : Text} {file : SourceFile} {notes : List Note}

/-- The tags with a name that comments carry from the first one with an opening tag on, where each
comment is read alone. -/
def Section.tagsNamed (initTag name : Text) (fragments : List Fragment) : List Tag :=
  ((fragments.dropWhile fun f => ¬ Opens initTag f).flatMap (Tag.ofFragment initTag)).filter
    fun tag => tag.name = name

/-- The occurrences of a tag in notes, note after note. -/
def Note.allOccurrences (name : Text) (notes : List Note) : List (List Text) :=
  notes.flatMap fun n => (n.occurrences? name).getD []

namespace Note

/-- Each tag of the sections is kept in the notes, in order. -/
theorem forall₂_isKeptAs_allOccurrences {fragments : List Fragment}
    (h : ofFragments initTag file fragments = .ok notes) {name : Text}
    (hname : IsKeptName initTag name) :
    List.Forall₂ Tag.IsKeptAs (tagsNamed initTag name fragments) (allOccurrences name notes) := by
  rw [tagsNamed, ← flatMap_fragments_cut, List.flatMap_assoc, List.filter_flatMap]
  exact List.rel_flatMap (ofFragments_eq_ok_iff.mp h)
    fun s n hnote => forall₂_isKeptAs_note hnote hname

/-- No tag is lost, duplicated or reordered: the occurrences of a name are the fields of the tags
with that name, and of a block tag the text, perhaps with more text behind. -/
theorem allOccurrences_ofFragments {fragments : List Fragment}
    (h : ofFragments initTag file fragments = .ok notes) {name : Text} (hinit : name ≠ initTag)
    (hreserved : name ∉ reservedNames) :
    (allOccurrences name notes).length = (tagsNamed initTag name fragments).length ∧
      (Tag.isBlockName name = false →
        allOccurrences name notes = (tagsNamed initTag name fragments).map Tag.fields) ∧
      (Tag.isBlockName name = true →
        List.Forall₂ (fun tag fields => ∃ text, fields = [text] ∧ tag.content <+: text)
          (tagsNamed initTag name fragments) (allOccurrences name notes)) := by
  have hkept := forall₂_isKeptAs_allOccurrences h ⟨hinit, hreserved⟩
  have hnamed : ∀ tag ∈ tagsNamed initTag name fragments, tag.isBlock = Tag.isBlockName name := by
    intro tag htag
    rw [Tag.isBlock, of_decide_eq_true (List.mem_filter.mp htag).2]
  have hboth := (List.forall₂_and_left _ _).mpr ⟨hnamed, hkept⟩
  refine ⟨hkept.length_eq.symm, fun hblock => ?_, fun hblock => ?_⟩
  · have hfields : List.Forall₂ (fun tag fields => Tag.fields tag = fields)
        (tagsNamed initTag name fragments) (allOccurrences name notes) := by
      refine hboth.imp fun tag fields htag => ?_
      obtain ⟨hisBlock, hfields⟩ := htag
      rw [Tag.IsKeptAs, if_neg (by simp [hisBlock, hblock])] at hfields
      exact hfields.symm
    rw [← List.forall₂_map_left_iff, List.forall₂_eq_eq_eq] at hfields
    exact hfields.symm
  · refine hboth.imp fun tag fields htag => ?_
    obtain ⟨hisBlock, hfields⟩ := htag
    rwa [Tag.IsKeptAs, if_pos (hisBlock.trans hblock)] at hfields

/-- A note in line comments, where an example runs on over two comments, and a note in a block. -/
def runOn : Text :=
  "// @t z\n// @doc a\n// @example p\n// q\n// @t x y\n/* @doc b\n@example r */".toList

/-- The example that runs on has the text of both of its comments, the comment before the first
opening tag counts for nothing, and the words of the other tag are kept. -/
theorem allOccurrences_ofFragments_runOn :
    ∃ notes, ofFragments "doc".toList ⟨[], [], [], []⟩ (fragments .cLike runOn) = .ok notes ∧
      allOccurrences "example".toList notes = [["p\nq".toList], [['r']]] ∧
      List.Forall₂ (fun tag fields => ∃ text, fields = [text] ∧ tag.content <+: text)
        (tagsNamed "doc".toList "example".toList (fragments .cLike runOn))
        (allOccurrences "example".toList notes) ∧
      allOccurrences ['t'] notes = [[['x'], ['y']]] ∧
      allOccurrences ['t'] notes =
        (tagsNamed "doc".toList ['t'] (fragments .cLike runOn)).map Tag.fields := by
  obtain ⟨notes, hnotes, hexample, hother⟩ : ∃ notes,
      ofFragments "doc".toList ⟨[], [], [], []⟩ (fragments .cLike runOn) = .ok notes ∧
        allOccurrences "example".toList notes = [["p\nq".toList], [['r']]] ∧
        allOccurrences ['t'] notes = [[['x'], ['y']]] := ⟨_, rfl, rfl, rfl⟩
  refine ⟨notes, hnotes, hexample, ?_, hother, ?_⟩
  · exact (allOccurrences_ofFragments hnotes (by decide) (by decide)).2.2 (by decide)
  · exact (allOccurrences_ofFragments hnotes (by decide) (by decide)).2.1 (by decide)

end Note

/-- The tags of a comment with its first opening tag in front and without further opening tags. -/
def Section.headedTags (initTag : Text) (f : Fragment) : List Tag :=
  (openingTag? initTag f).toList ++ (Tag.ofFragment initTag f).filter fun tag => tag.name ≠ initTag

/-- Whether a note is that of an opening tag and of the tags that go to it. -/
structure Note.Collects (opening : Tag) (tags : List Tag) (n : Note) : Prop where
  key : opening.arguments.head? = some n.key
  occurrences : ∀ name, List.Forall₂ Tag.IsKeptAs
    (tags.filter fun tag => tag.name = name ∧ name ∉ reservedNames)
    ((n.occurrences? name).getD [])

namespace Section

/-- A comment of which only the first tag may be an opening tag has its tags in their order. -/
theorem headedTags_eq {f : Fragment}
    (h : ∀ tag ∈ (Tag.ofFragment initTag f).tail, tag.name ≠ initTag) :
    headedTags initTag f = Tag.ofFragment initTag f := by
  rw [headedTags, openingTag?]
  cases hf : Tag.ofFragment initTag f with
  | nil => rfl
  | cons tag rest =>
    rw [hf, List.tail_cons] at h
    have hrest : (rest.filter fun tag => tag.name ≠ initTag) = rest :=
      List.filter_eq_self.mpr fun t ht => by simpa using h t ht
    by_cases htag : tag.name = initTag
    · rw [List.find?_cons_of_pos (by simpa using htag),
        List.filter_cons_of_neg (by simpa using htag), hrest]
      rfl
    · have hnone : rest.find? (fun t => t.name = initTag) = none :=
        List.find?_eq_none.mpr fun t ht => by simpa using h t ht
      rw [List.find?_cons_of_neg (by simpa using htag),
        List.filter_cons_of_pos (by simpa using htag), hrest, hnone]
      rfl

/-- Comments without an opening tag have their other tags only. -/
theorem flatMap_headedTags {fragments : List Fragment}
    (h : ∀ f ∈ fragments, ¬ Opens initTag f) :
    fragments.flatMap (headedTags initTag) =
      (fragments.flatMap (Tag.ofFragment initTag)).filter fun tag => tag.name ≠ initTag := by
  rw [List.filter_flatMap]
  apply List.flatMap_congr
  intro f hf
  rw [headedTags, openingTag?_eq_none_iff.mpr (h f hf)]
  rfl

/-- The tags of a section that are no opening tags. -/
def otherTags (initTag : Text) (s : Section) : List Tag :=
  (s.fragments.flatMap (Tag.ofFragment initTag)).filter fun tag => tag.name ≠ initTag

/-- The comments of a section have its opening tag and then its other tags. -/
theorem IsHeaded.flatMap_headedTags {s : Section} (h : s.IsHeaded initTag) :
    s.fragments.flatMap (headedTags initTag) = s.opening :: otherTags initTag s := by
  obtain ⟨f, rest, hf, hopening, hrest⟩ := h
  rw [otherTags, hf, List.flatMap_cons, List.flatMap_cons, Section.flatMap_headedTags hrest,
    headedTags, hopening, List.filter_append]
  rfl

/-- The opening tag of a section has the name of opening tags. -/
theorem IsHeaded.name_opening {s : Section} (h : s.IsHeaded initTag) :
    s.opening.name = initTag := by
  obtain ⟨f, rest, -, hopening, -⟩ := h
  exact (mem_of_openingTag? hopening).2

/-- The note of a section collects the other tags of the section. -/
theorem collects_note {s : Section} {n : Note} (h : s.note initTag file = .ok n) :
    n.Collects s.opening (otherTags initTag s) where
  key := by
    obtain ⟨key, more, hkey, rfl⟩ := note_eq_ok_iff.mp h
    rw [hkey]
    rfl
  occurrences name := by
    by_cases hname : IsKeptName initTag name
    · have hfilter : ((otherTags initTag s).filter
          fun tag => tag.name = name ∧ name ∉ reservedNames) =
            (s.fragments.flatMap (Tag.ofFragment initTag)).filter fun tag => tag.name = name := by
        rw [otherTags, List.filter_filter]
        apply List.filter_congr
        intro tag _
        by_cases htag : tag.name = name
        · simp [htag, hname.1, hname.2]
        · simp [htag]
      rw [hfilter]
      exact forall₂_isKeptAs_note h hname
    · have hfilter : ((otherTags initTag s).filter
          fun tag => tag.name = name ∧ name ∉ reservedNames) = [] := by
        rw [otherTags, List.filter_filter, List.filter_eq_nil_iff]
        intro tag _ hkept
        simp only [decide_not, Bool.and_eq_true, decide_eq_true_eq, Bool.not_eq_true',
          decide_eq_false_iff_not] at hkept
        obtain ⟨⟨rfl, hreserved⟩, hinit⟩ := hkept
        exact hname ⟨hinit, hreserved⟩
      rw [hfilter, occurrences_note h, filter_tags_eq_nil s hname]
      exact List.Forall₂.nil

/-- The opening tag of each section, with its other tags. -/
def groups (initTag : Text) (fragments : List Fragment) : List (Tag × List Tag) :=
  (cut initTag fragments).2.map fun s => (s.opening, otherTags initTag s)

/-- Each group starts with an opening tag and has no other. -/
theorem forall_mem_groups {fragments : List Fragment} :
    ∀ g ∈ groups initTag fragments,
      g.1.name = initTag ∧ ∀ tag ∈ g.2, tag.name ≠ initTag := by
  intro g hg
  obtain ⟨s, hs, rfl⟩ := List.mem_map.mp hg
  refine ⟨(isHeaded_of_mem_snd_cut s hs).name_opening, fun tag htag => ?_⟩
  simpa using (List.mem_filter.mp htag).2

/-- The tags of comments, first opening tags in front, are those of the loose comments and those of
the groups. -/
theorem flatMap_headedTags_eq (initTag : Text) (fragments : List Fragment) :
    fragments.flatMap (headedTags initTag) =
      (cut initTag fragments).1.flatMap (headedTags initTag) ++
        (groups initTag fragments).flatMap fun g => g.1 :: g.2 := by
  conv_lhs => rw [← append_cut initTag fragments]
  rw [List.flatMap_append, List.flatMap_assoc, groups, List.flatMap_map]
  congr 1
  apply List.flatMap_congr
  intro s hs
  exact (isHeaded_of_mem_snd_cut s hs).flatMap_headedTags

/-- No loose comment has an opening tag. -/
theorem forall_mem_headedTags_loose {fragments : List Fragment} :
    ∀ tag ∈ (cut initTag fragments).1.flatMap (headedTags initTag), tag.name ≠ initTag := by
  rw [flatMap_headedTags not_opens_of_mem_fst_cut]
  intro tag htag
  simpa using (List.mem_filter.mp htag).2

/-- The opening tags among tags that are put into groups are the first tags of the groups. -/
theorem filter_flatMap_groups (fragments : List Fragment) :
    (((groups initTag fragments).flatMap fun g => g.1 :: g.2).filter
      fun tag => tag.name = initTag) = (groups initTag fragments).map Prod.fst := by
  rw [List.filter_flatMap, ← List.flatMap_pure_eq_map]
  apply List.flatMap_congr
  intro g hg
  obtain ⟨hopening, hothers⟩ := forall_mem_groups g hg
  have hnone : (g.2.filter fun tag => tag.name = initTag) = [] :=
    List.filter_eq_nil_iff.mpr fun tag htag => by simpa using hothers tag htag
  rw [List.filter_cons_of_pos (by simpa using hopening), hnone]
  rfl

end Section

/-- The tags of all comments of a source text, each comment with its first opening tag in front and
without further opening tags. -/
def Comment.headedTags (initTag : Text) (style : Style) (t : Text) : List Tag :=
  (fragments style t).flatMap (Section.headedTags initTag)

namespace Note

/-- The notes of comments collect the tags of the groups. -/
theorem forall₂_collects {fragments : List Fragment}
    (h : ofFragments initTag file fragments = .ok notes) :
    List.Forall₂ (fun g n => n.Collects g.1 g.2) (groups initTag fragments) notes := by
  rw [groups, List.forall₂_map_left_iff]
  exact (ofFragments_eq_ok_iff.mp h).imp fun s n hnote => collects_note hnote

/-- Of each comment, the first opening tag comes before the other tags and no further one counts. In
the tags that are read so, each opening tag opens a note with its key, every other tag goes to the
note of the nearest opening tag before it, and tags before the first opening tag go to none. Where no
tag but the first of a comment is an opening tag, these are all tags in the order of the text. -/
theorem ofText_attributes_tags {style : Style} {t : Text}
    (h : ofText initTag style file t = .ok notes) :
    (notes.map fun n => some n.key) =
        ((Comment.headedTags initTag style t).filter fun tag => tag.name = initTag).map
          (·.arguments.head?) ∧
      (∃ (before : List Tag) (groups : List (Tag × List Tag)),
        Comment.headedTags initTag style t = before ++ groups.flatMap (fun g => g.1 :: g.2) ∧
          (∀ tag ∈ before, tag.name ≠ initTag) ∧
          (∀ g ∈ groups, g.1.name = initTag ∧ ∀ tag ∈ g.2, tag.name ≠ initTag) ∧
          List.Forall₂ (fun g n => n.Collects g.1 g.2) groups notes) ∧
      ((∀ f ∈ fragments style t, ∀ tag ∈ (Tag.ofFragment initTag f).tail, tag.name ≠ initTag) →
        Comment.headedTags initTag style t =
          (fragments style t).flatMap (Tag.ofFragment initTag)) := by
  have hcollects := forall₂_collects h
  have hsplit := flatMap_headedTags_eq initTag (fragments style t)
  refine ⟨?_, ⟨_, _, hsplit, forall_mem_headedTags_loose, forall_mem_groups, hcollects⟩,
    fun hfirst => List.flatMap_congr fun f hf => headedTags_eq (hfirst f hf)⟩
  have hloose : (((cut initTag (fragments style t)).1.flatMap (Section.headedTags initTag)).filter
      fun tag => tag.name = initTag) = [] :=
    List.filter_eq_nil_iff.mpr fun tag htag => by simpa using forall_mem_headedTags_loose tag htag
  have hkeys : List.Forall₂ (fun (g : Tag × List Tag) (n : Note) =>
      g.1.arguments.head? = some n.key) (groups initTag (fragments style t)) notes :=
    hcollects.imp fun g n hg => hg.key
  rw [Comment.headedTags, hsplit, List.filter_append, hloose, List.nil_append,
    filter_flatMap_groups, List.map_map, ← List.forall₂_eq_eq_eq, List.forall₂_map_left_iff,
    List.forall₂_map_right_iff]
  exact List.Forall₂.flip (hkeys.imp fun g n hg => hg.symm)

/-- Two notes in line comments, each with a tag, behind a tag that belongs to none. -/
def twoComments : Text :=
  "// @s w\n// @doc a\n// @t x\n// @doc b\n// @t y".toList

/-- Two comments with an opening tag each open a note each. -/
theorem ofText_attributes_tags_twoComments :
    ∃ notes, ofText "doc".toList .cLike ⟨[], [], [], []⟩ twoComments = .ok notes ∧
      notes.map Note.key = [['a'], ['b']] ∧
      (notes.map fun n => some n.key) =
        ((Comment.headedTags "doc".toList .cLike twoComments).filter
          fun tag => tag.name = "doc".toList).map (·.arguments.head?) ∧
      Comment.headedTags "doc".toList .cLike twoComments =
        (fragments .cLike twoComments).flatMap (Tag.ofFragment "doc".toList) := by
  obtain ⟨notes, hnotes, hkeys⟩ : ∃ notes,
      ofText "doc".toList .cLike ⟨[], [], [], []⟩ twoComments = .ok notes ∧
        notes.map Note.key = [['a'], ['b']] := ⟨_, rfl, rfl⟩
  obtain ⟨hopening, -, hfirst⟩ := ofText_attributes_tags hnotes
  exact ⟨notes, hnotes, hkeys, hopening, hfirst (by decide)⟩

/-- One comment with two opening tags, with a tag before them, between them and behind them. -/
def oneComment : Text :=
  "/*\n@s w\n@doc a\n@t x\n@doc b\n@t y\n*/".toList

/-- The second opening tag of a comment opens no note: all tags of the comment go to the note of the
first, also the tag in front of it. -/
theorem ofText_second_opening_tag :
    ∃ n : Note, ofText "doc".toList .cLike ⟨[], [], [], []⟩ oneComment = .ok [n] ∧
      [some n.key] ≠ (((fragments .cLike oneComment).flatMap (Tag.ofFragment "doc".toList)).filter
        fun tag => tag.name = "doc".toList).map (·.arguments.head?) ∧
      n.occurrences? ['s'] = some [[['w']]] ∧
      n.occurrences? ['t'] = some [[['x']], [['y']]] := by
  refine ⟨_, rfl, ?_, rfl, rfl⟩
  decide

end Note

end Marginalia
