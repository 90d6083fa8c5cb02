import Marginalia.Proofs.Comment.LineNumber
import Marginalia.Proofs.Note.Section

/-!
# Runs of comments

The texts of a section are those of the maximal groups of comments that go on with one another.
Reading one comment after another, and each behind the text before it or as a text of its own, gives
the same texts. A group of more than one comment holds line comments only, each of which is one
line on the line behind the one before it. So, for comments of one source, each line of a text is a
piece of the source line with its number.
-/

namespace Marginalia

open Text Comment

namespace Section

variable {style : Style} {t : Text} {fragments : List Fragment} {f g : Fragment}

/-! ## Groups -/

/-- Whether the second of two comments goes on with the first: both are line comments, and it stands
on the line behind the last of the other. -/
def GoesOn (f g : Fragment) : Prop :=
  f.kind.isLine = true ∧ g.kind.isLine = true ∧ g.line = f.endLine + 1

theorem continues_eq_true_iff : continues f g = true ↔ GoesOn f g := by
  simp [continues, GoesOn, and_assoc]

theorem continues_eq_false_iff : continues f g = false ↔ ¬GoesOn f g := by
  rw [← continues_eq_true_iff, Bool.not_eq_true]

/-- Whether groups part comments at the places where one does not go on with the one before it: they
hold all comments in order, none of them is empty, and of two neighbours the second goes on with the
first exactly when both are in one group. -/
structure ArePartedInto (fragments : List Fragment) (groups : List (List Fragment)) : Prop where
  flatten_eq : groups.flatten = fragments
  nil_notMem : [] ∉ groups
  goesOn : ∀ group ∈ groups, group.IsChain GoesOn
  parted : groups.IsChain fun group next =>
    ∃ hgroup hnext, ¬GoesOn (group.getLast hgroup) (next.head hnext)

/-- There is one way to part comments. -/
theorem splitBy_eq_iff_arePartedInto {groups : List (List Fragment)} :
    fragments.splitBy continues = groups ↔ ArePartedInto fragments groups := by
  rw [List.splitBy_eq_iff]
  simp only [continues_eq_true_iff, continues_eq_false_iff]
  constructor
  · rintro ⟨hflatten, hnil, hgoesOn, hparted⟩
    exact ⟨hflatten.symm, hnil, hgoesOn, hparted⟩
  · intro h
    exact ⟨h.flatten_eq.symm, h.nil_notMem, h.goesOn, h.parted⟩

/-- Whether a text is the one of a group: the contents of its comments, one below the other, from
the line on which the first content starts. -/
def IsTextOf (group : List Fragment) (run : Run) : Prop :=
  run.text = unlines (group.map (·.content)) ∧
    ∃ first more, group = first :: more ∧ run.line = first.contentLine

/-- The text of a group that is not empty. -/
theorem isTextOf_runOf {group : List Fragment} (h : group ≠ []) : IsTextOf group (runOf group) := by
  obtain ⟨first, more, rfl⟩ := List.exists_cons_of_ne_nil h
  exact ⟨rfl, first, more, rfl, rfl⟩

/-! ## Reading one comment after another -/

/-- Read one more comment, given the texts so far and the last comment: below the last text if it
goes on with the last comment, and as a text of its own else. -/
def readOn : List Run × Option Fragment → Fragment → List Run × Option Fragment
  | (texts, previous), f =>
    match texts.getLast? with
    | some last =>
      if previous.any fun g => continues g f then
        (texts.dropLast ++ [⟨last.text ++ '\n' :: f.content, last.line⟩], some f)
      else (texts ++ [⟨f.content, f.contentLine⟩], some f)
    | none => (texts ++ [⟨f.content, f.contentLine⟩], some f)

/-- The text of one comment is its content. -/
@[simp] theorem runOf_singleton (f : Fragment) : runOf [f] = ⟨f.content, f.contentLine⟩ := by
  simp [runOf]

/-- A comment below the last one of a group is written below the text of the group. -/
theorem runOf_concat {group : List Fragment} (h : group ≠ []) (f : Fragment) :
    runOf (group ++ [f]) = ⟨(runOf group).text ++ '\n' :: f.content, (runOf group).line⟩ := by
  obtain ⟨first, more, rfl⟩ := List.exists_cons_of_ne_nil h
  have htext : unlines (((first :: more) ++ [f]).map (·.content)) =
      unlines ((first :: more).map (·.content)) ++ '\n' :: f.content := by
    rw [List.map_append, unlines_append (by simp) (by simp), List.map_singleton, unlines_singleton]
  rw [runOf, htext]
  rfl

/-- The last of parted comments ends the last group. -/
theorem ArePartedInto.exists_concat {groups : List (List Fragment)}
    (h : ArePartedInto (fragments ++ [g]) groups) :
    ∃ front last, groups = front ++ [last ++ [g]] := by
  have hflatten := h.flatten_eq
  rcases List.eq_nil_or_concat' groups with rfl | ⟨front, group, rfl⟩
  · simp at hflatten
  · rcases List.eq_nil_or_concat' group with rfl | ⟨last, c, rfl⟩
    · exact absurd (List.mem_append_right front List.mem_cons_self) h.nil_notMem
    · rw [List.flatten_append, List.flatten_singleton, ← List.append_assoc] at hflatten
      rw [List.singleton_inj.mp (List.append_inj' hflatten rfl).2]
      exact ⟨front, last, rfl⟩

/-- A comment that goes on with the last one comes into its group. -/
theorem ArePartedInto.concat {front : List (List Fragment)} {last : List Fragment}
    (h : ArePartedInto fragments (front ++ [last ++ [g]])) (hgoesOn : GoesOn g f) :
    ArePartedInto (fragments ++ [f]) (front ++ [last ++ [g] ++ [f]]) := by
  have hmem : last ++ [g] ∈ front ++ [last ++ [g]] :=
    List.mem_append_right front (List.mem_singleton_self _)
  obtain ⟨hfront, -, hborder⟩ := List.isChain_append.mp h.parted
  refine ⟨?_, ?_, ?_, ?_⟩
  · rw [← h.flatten_eq]
    simp
  · have hnil := h.nil_notMem
    simp only [List.mem_append, List.mem_singleton, not_or] at hnil ⊢
    exact ⟨hnil.1, by simp⟩
  · intro group hgroup
    rcases List.mem_append.mp hgroup with hgroup | hgroup
    · exact h.goesOn group (List.mem_append_left _ hgroup)
    · rw [List.mem_singleton.mp hgroup, List.isChain_append]
      exact ⟨h.goesOn _ hmem, .singleton f, by simpa using hgoesOn⟩
  · refine List.isChain_append.mpr ⟨hfront, .singleton _, fun group hgroup next hnext => ?_⟩
    obtain rfl := Option.some.inj hnext
    obtain ⟨hne, hlast, hborder⟩ := hborder group hgroup _ rfl
    refine ⟨hne, by simp, ?_⟩
    rwa [List.head_append_of_ne_nil hlast]

/-- Reading one comment after another gives the texts of the groups. -/
theorem foldl_readOn (fragments : List Fragment) :
    fragments.foldl readOn ([], none) = (runs fragments, fragments.getLast?) := by
  induction fragments using List.reverseRecOn with
  | nil => rfl
  | append_singleton fragments f ih =>
    rw [List.foldl_concat, ih, List.getLast?_concat]
    rcases List.eq_nil_or_concat' fragments with rfl | ⟨front, g, rfl⟩
    · exact congrArg (fun run => ([run], some f)) (runOf_singleton f).symm
    · have hparted := splitBy_eq_iff_arePartedInto.mp (Eq.refl ((front ++ [g]).splitBy continues))
      obtain ⟨before, last, hgroups⟩ := hparted.exists_concat
      rw [hgroups] at hparted
      have hruns : runs (front ++ [g]) = before.map runOf ++ [runOf (last ++ [g])] := by
        rw [runs, hgroups, List.map_append, List.map_singleton]
      rw [hruns, List.getLast?_concat]
      simp only [readOn, List.getLast?_concat, Option.any_some, List.dropLast_concat]
      by_cases hgoesOn : GoesOn g f
      · have hjoined : runs (front ++ [g] ++ [f]) =
            before.map runOf ++ [runOf (last ++ [g] ++ [f])] := by
          rw [runs, splitBy_eq_iff_arePartedInto.mpr (hparted.concat hgoesOn), List.map_append,
            List.map_singleton]
        have hlast : last ++ [g] ≠ [] := by simp
        have htext := runOf_concat hlast f
        rw [if_pos (continues_eq_true_iff.mpr hgoesOn), hjoined, htext]
      · have hborder := continues_eq_false_iff.mpr hgoesOn
        have halone : runs (front ++ [g] ++ [f]) = runs (front ++ [g]) ++ [runOf [f]] := by
          rw [runs, List.splitBy_append_cons [] (by simpa using hborder), List.map_append]
          rfl
        rw [if_neg (by simp [hborder]), halone, hruns, runOf_singleton]

/-! ## Lines of texts -/

/-- Comments that go on with one another are line comments if there are at least two. -/
theorem isLine_of_isChain {rest : List Fragment} (h : (f :: g :: rest).IsChain GoesOn) :
    ∀ c ∈ f :: g :: rest, c.kind.isLine = true := by
  induction rest generalizing f g with
  | nil =>
    obtain ⟨hf, hg, -⟩ := (List.isChain_cons_cons.mp h).1
    simp [hf, hg]
  | cons c rest ih =>
    obtain ⟨⟨hf, -, -⟩, hrest⟩ := List.isChain_cons_cons.mp h
    exact List.forall_mem_cons.mpr ⟨hf, ih hrest⟩

/-- Line comments of a source that go on with one another stand on successive lines. -/
theorem contentLine_of_isChain {first : Fragment} {more : List Fragment}
    (hgroup : (first :: more).IsChain GoesOn)
    (hlines : ∀ c ∈ first :: more, c.contentLine = c.line ∧ c.endLine = c.line) {k : Nat}
    (h : (first :: more)[k]? = some f) : f.contentLine = first.contentLine + k := by
  induction more generalizing first k with
  | nil =>
    obtain ⟨rfl, rfl⟩ := eq_of_getElem?_singleton h
    rfl
  | cons next more ih =>
    cases k with
    | zero =>
      obtain rfl := Option.some.inj h
      rfl
    | succ k =>
      obtain ⟨⟨-, -, hnext⟩, hrest⟩ := List.isChain_cons_cons.mp hgroup
      obtain ⟨hfirst, hlines⟩ := List.forall_mem_cons.mp hlines
      have hcontent := (hlines next List.mem_cons_self).1
      have hplace := ih hrest hlines h
      omega

/-- Each line of the text of a group of comments of a source is a piece of the source line with its
number. -/
theorem exists_of_getElem?_lines_runOf {group : List Fragment} (hne : group ≠ [])
    (hgroup : group.IsChain GoesOn) (hsource : ∀ c ∈ group, c ∈ Comment.fragments style t) {k : Nat}
    {l : Text} (hl : (lines (runOf group).text)[k]? = some l) :
    ∃ s, line? t ((runOf group).line + k) = some s ∧ l <:+: s := by
  obtain ⟨first, more, rfl⟩ := List.exists_cons_of_ne_nil hne
  cases more with
  | nil =>
    -- one comment, which may be a block of several lines
    rw [runOf_singleton] at hl ⊢
    exact (exists_of_getElem?_content (hsource first List.mem_cons_self) hl).2
  | cons next more =>
    have hline : ∀ c ∈ first :: next :: more,
        c.contentLine = c.line ∧ c.endLine = c.line ∧ '\n' ∉ c.content :=
      fun c hc => of_mem_fragments_of_isLine (hsource c hc) (isLine_of_isChain hgroup c hc)
    have hcontents : lines (runOf (first :: next :: more)).text =
        (first :: next :: more).map (·.content) := by
      refine lines_unlines (by simp) ?_
      simpa using fun c hc => (hline c hc).2.2
    rw [hcontents, List.getElem?_map] at hl
    obtain ⟨f, hf, rfl⟩ := Option.map_eq_some_iff.mp hl
    have hmem := List.mem_of_getElem? hf
    have hplace := contentLine_of_isChain hgroup
      (fun c hc => ⟨(hline c hc).1, (hline c hc).2.1⟩) hf
    have hfirst : (lines f.content)[0]? = some f.content := by
      rw [lines_eq_singleton (hline f hmem).2.2]
      rfl
    have hpiece := (exists_of_getElem?_content (hsource f hmem) hfirst).2
    rw [hplace] at hpiece
    exact hpiece

/-- The texts of comments are those of the maximal groups of comments that go on with one another:
there is one way to part the comments into such groups, the text of each consists of the contents of
its comments, and reading one comment after another makes the same texts. Where the comments are
those of a source, each line of a text is a piece of the source line with its number. -/
theorem runs_are_maximal (fragments : List Fragment) :
    ∃ groups, ArePartedInto fragments groups ∧
      (∀ other, ArePartedInto fragments other → other = groups) ∧
      List.Forall₂ IsTextOf groups (runs fragments) ∧
      (fragments.foldl readOn ([], none)).1 = runs fragments ∧
      ∀ style t, fragments.Sublist (Comment.fragments style t) →
        ∀ run ∈ runs fragments, ∀ k l, (lines run.text)[k]? = some l →
          ∃ s, line? t (run.line + k) = some s ∧ l <:+: s := by
  have hparted := splitBy_eq_iff_arePartedInto.mp (Eq.refl (fragments.splitBy continues))
  have hne : ∀ group ∈ fragments.splitBy continues, group ≠ [] := fun group hgroup hnil =>
    hparted.nil_notMem (hnil ▸ hgroup)
  refine ⟨_, hparted, ?_, ?_, ?_, ?_⟩
  · exact fun other hother => (splitBy_eq_iff_arePartedInto.mpr hother).symm
  · rw [runs, List.forall₂_map_right_iff, List.forall₂_same]
    exact fun group hgroup => isTextOf_runOf (hne group hgroup)
  · rw [foldl_readOn]
  · intro style t hsource run hrun k l hl
    obtain ⟨group, hgroup, rfl⟩ := List.mem_map.mp hrun
    have hmembers : ∀ c ∈ group, c ∈ Comment.fragments style t := by
      intro c hc
      have hmem := List.mem_flatten_of_mem hgroup hc
      rw [hparted.flatten_eq] at hmem
      exact hsource.subset hmem
    exact exists_of_getElem?_lines_runOf (hne group hgroup) (hparted.goesOn group hgroup) hmembers hl

/-- Of four comments the first two are one text, the third stands apart and the last is a block. -/
theorem runs_are_maximal_apart :
    let t := "/// a\n// b\n\n/// c\n/** d\n e */".toList
    runs (Comment.fragments .cLike t) =
        [⟨"a\nb".toList, 1⟩, ⟨"c".toList, 4⟩, ⟨"d\ne".toList, 5⟩] ∧
      ∃ s, line? t 2 = some s ∧ "b".toList <:+: s := by
  intro t
  have hruns : runs (Comment.fragments .cLike t) =
      [⟨"a\nb".toList, 1⟩, ⟨"c".toList, 4⟩, ⟨"d\ne".toList, 5⟩] := by decide
  obtain ⟨groups, -, -, -, -, hlines⟩ := runs_are_maximal (Comment.fragments .cLike t)
  refine ⟨hruns, hlines .cLike t (List.Sublist.refl _) ⟨"a\nb".toList, 1⟩ ?_ 1 _ (by decide)⟩
  rw [hruns]
  exact List.mem_cons_self

end Section

end Marginalia
