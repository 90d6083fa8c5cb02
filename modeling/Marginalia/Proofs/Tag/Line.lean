import Marginalia.Proofs.Text.Lines
import Marginalia.Proofs.Text.Stretch
import Marginalia.Tag.Fields

/-!
# Written tag lines

A tag line is written as an at sign with a name, and words behind it. It is read as a tag with that
name and those words, and lines of this kind one below the other are read as one tag each, because
no tag has lines left that could follow it.
-/

namespace Marginalia.Tag

open Text

variable {initTag name : Text} {ws : List Text}

/-- A text between the separators of a list of texts, and these, make up what they are joined to. -/
theorem forall_mem_intercalate {sep : Text} {ts : List Text} {test : Char → Prop}
    (hsep : ∀ c ∈ sep, test c) (hts : ∀ t ∈ ts, ∀ c ∈ t, test c) :
    ∀ c ∈ List.intercalate sep ts, test c := by
  induction ts with
  | nil => simp
  | cons t ts ih =>
    obtain ⟨ht, hrest⟩ := List.forall_mem_cons.mp hts
    cases ts with
    | nil => simpa using ht
    | cons u ts =>
      intro c hc
      rw [List.intercalate_cons_cons, List.mem_append, List.mem_append] at hc
      rcases hc with (hc | hc) | hc
      · exact ht c hc
      · exact hsep c hc
      · exact ih hrest c hc

/-- A name is made of word characters and dots. -/
theorem isNameChar_of_isName (h : isName name = true) : ∀ c ∈ name, isNameChar c = true := by
  have hjoin : List.intercalate ['.'] (name.splitOn '.') = name := List.intercalate_splitOn '.'
  rw [← hjoin]
  have hdot : ∀ c ∈ ['.'], isNameChar c = true := List.forall_mem_singleton.mpr rfl
  apply forall_mem_intercalate hdot
  intro group hgroup c hc
  have hall := List.all_eq_true.mp h group hgroup
  rw [Bool.and_eq_true] at hall
  rw [isNameChar, List.all_eq_true.mp hall.2 c hc, Bool.true_or]

/-- A name is not empty. -/
theorem ne_nil_of_isName (h : isName name = true) : name ≠ [] := by
  intro heq
  subst heq
  cases h

/-- A name is a run of word characters and dots. -/
def nameStretch (name : Text) (h : isName name = true) : Stretch isNameChar :=
  ⟨name, ne_nil_of_isName h, isNameChar_of_isName h⟩

/-- An at sign with a name is a word. -/
theorem isWordText_at_cons (h : isName name = true) : IsWordText ('@' :: name) := by
  refine ⟨List.cons_ne_nil _ _, fun c hc => ?_⟩
  rcases List.mem_cons.mp hc with rfl | hc
  · decide
  · exact isBlank_of_isNameChar (isNameChar_of_isName h c hc)

/-- The text of a tag line: an at sign with the name, and words. -/
def lineText (name : Text) (ws : List Text) : Text :=
  unwords (('@' :: name) :: ws)

/-- All words of a tag line are words. -/
theorem forall_isWordText_cons (hname : isName name = true) (hws : ∀ w ∈ ws, IsWordText w) :
    ∀ w ∈ ('@' :: name) :: ws, IsWordText w :=
  List.forall_mem_cons.mpr ⟨isWordText_at_cons hname, hws⟩

/-- A tag line is its name and its words behind a blank. -/
theorem exists_lineText_eq (name : Text) (hws : ∀ w ∈ ws, IsWordText w) :
    ∃ behind, lineText name ws = '@' :: (name ++ behind) ∧ trimStart behind = unwords ws ∧
      ∀ c ∈ behind.head?, isBlank c = true := by
  cases ws with
  | nil => exact ⟨[], by simp [lineText], rfl, by simp⟩
  | cons w ws =>
    refine ⟨' ' :: unwords (w :: ws), by simp [lineText, unwords_cons_cons], ?_, ?_⟩
    · have hcut := trimStart_blanks_append forall_mem_space (unwords (w :: ws))
      rw [List.singleton_append] at hcut
      rw [hcut, trimStart_of_head? (isTrimmed_unwords hws).1]
    · intro c hc
      cases hc
      decide

/-- A line with an at sign and a name behind blanks, which ends there or goes on with a blank, is
read as its name and what stands behind the blanks. -/
theorem ofLine?_append {front behind : Text} (hfront : ∀ b ∈ front, isBlank b = true)
    (hname : isName name = true) (hbehind : ∀ c ∈ behind.head?, isBlank c = true) :
    ofLine? (front ++ '@' :: (name ++ behind)) = some (name, trimStart behind) := by
  have hstop : ∀ c ∈ behind.head?, isNameChar c = false := by
    intro c hc
    have hblank := hbehind c hc
    by_contra hnot
    rw [isBlank_of_isNameChar (by simpa using hnot)] at hblank
    cases hblank
  have htake := (nameStretch name hname).takeWhile_append hstop
  have hdrop := (nameStretch name hname).dropWhile_append hstop
  have hone : (behind.take 1).all isBlank = true := by
    cases behind with
    | nil => rfl
    | cons c behind => simpa using hbehind c rfl
  unfold nameStretch isNameChar at htake hdrop
  rw [ofLine?, trimStart_append hfront (by decide)]
  simp only [htake, hdrop, hname, hone, Bool.and_self, if_true]

/-- A tag line is read as its name and its words. -/
theorem ofLine?_lineText (hname : isName name = true) (hws : ∀ w ∈ ws, IsWordText w) :
    ofLine? (lineText name ws) = some (name, unwords ws) := by
  obtain ⟨behind, htext, hbehind, hhead⟩ := exists_lineText_eq name hws
  have hline := ofLine?_append (List.forall_mem_nil _) hname hhead
  rwa [List.nil_append, ← htext, hbehind] at hline

/-- A word alone is read as a key without a label. -/
theorem keyAndLabel_of_isWordText {key : Text} (hkey : IsWordText key) : keyAndLabel key = [key] := by
  have hword : ∀ c ∈ key, (!isBlank c) = true := fun c hc => by simp [hkey.2 c hc]
  have hbreak : breakWord key = (key, []) := by
    rw [breakWord, List.takeWhile_eq_self_iff.mpr hword, List.dropWhile_eq_nil_iff.mpr hword]
  rw [keyAndLabel, hbreak]
  simp [hkey.1, trim, trimStart, trimEnd]

/-- The tag of a tag line has the name of the line, whatever it stands for. -/
@[simp] theorem name_ofParts (inline : Text) (n : Nat) (following : List Text) :
    (ofParts initTag name inline n following).name = name := by
  rw [ofParts]
  split <;> rfl

/-- The tag of a tag line has the number of the line. -/
@[simp] theorem line_ofParts {inline : Text} {n : Nat} (following : List Text) :
    (ofParts initTag name inline n following).line = n := by
  rw [ofParts]
  split <;> rfl

/-- A tag line as it is meant: a name and words. -/
structure Line where
  name : Text
  isName_name : isName name = true
  words : List (Stretch fun c => !isBlank c)

namespace Line

/-- The words of a tag line. -/
def fields (l : Line) : List Text :=
  l.words.map Text.Stretch.text

/-- The text of a tag line as it is written. -/
def text (l : Line) : Text :=
  lineText l.name l.fields

/-- The words of a tag line are words. -/
theorem isWordText_of_mem_fields (l : Line) : ∀ w ∈ l.fields, IsWordText w := by
  intro w hw
  obtain ⟨r, -, rfl⟩ := List.mem_map.mp hw
  exact ⟨r.ne_nil, fun c hc => by simpa using r.forall_mem c hc⟩

/-- A tag line has no blanks at its ends. -/
theorem isTrimmed_text (l : Line) : IsTrimmed l.text :=
  isTrimmed_unwords (forall_isWordText_cons l.isName_name l.isWordText_of_mem_fields)

/-- A tag line stands on one line. -/
theorem newline_notMem_text (l : Line) : '\n' ∉ l.text := by
  have hall : ∀ c ∈ l.text, c ≠ '\n' := by
    have hspace : ∀ c ∈ [' '], c ≠ '\n' := List.forall_mem_singleton.mpr (by decide)
    apply forall_mem_intercalate hspace
    intro w hw c hc heq
    subst heq
    have hword := forall_isWordText_cons l.isName_name l.isWordText_of_mem_fields w hw
    have hblank := hword.2 _ hc
    cases hblank
  exact fun hmem => hall _ hmem rfl

/-- The tag that a tag line with this number is. -/
def tag (initTag : Text) (n : Nat) (l : Line) : Tag :=
  ofParts initTag l.name (unwords l.fields) n []

/-- The tags that tag lines are, the first of which has this number. -/
def tags (initTag : Text) : Nat → List Line → List Tag
  | _, [] => []
  | n, l :: rest => l.tag initTag n :: tags initTag (n + 1) rest

/-- Each tag is that of one of the lines. -/
theorem exists_of_mem_tags {n : Nat} {ls : List Line} {t : Tag} (ht : t ∈ tags initTag n ls) :
    ∃ l ∈ ls, ∃ k, t = l.tag initTag k := by
  induction ls generalizing n with
  | nil => cases ht
  | cons l ls ih =>
    rcases List.mem_cons.mp ht with rfl | ht
    · exact ⟨l, List.mem_cons_self, n, rfl⟩
    · obtain ⟨m, hm, k, hk⟩ := ih ht
      exact ⟨m, List.mem_cons_of_mem l hm, k, hk⟩

/-- Tag lines are read as one tag each. -/
theorem readLines_map_text (n : Nat) (ls : List Line) :
    readLines initTag n (ls.map text) = ([], tags initTag n ls) := by
  induction ls generalizing n with
  | nil => rfl
  | cons l ls ih =>
    have hline : ofLine? l.text = some (l.name, unwords l.fields) :=
      ofLine?_lineText l.isName_name l.isWordText_of_mem_fields
    rw [List.map_cons, readLines, ih, hline]
    rfl

/-- Tag lines one below the other are read as one tag each. -/
theorem ofText_unlines (n : Nat) {ls : List Line} (hne : ls ≠ []) :
    ofText initTag n (unlines (ls.map text)) = tags initTag n ls := by
  have hlines : ∀ t ∈ ls.map text, '\n' ∉ t := by
    intro t ht
    obtain ⟨l, -, rfl⟩ := List.mem_map.mp ht
    exact l.newline_notMem_text
  rw [ofText, lines_unlines (by simpa using hne) hlines, readLines_map_text]

/-- A tag line alone is read as its tag. -/
theorem ofText_text (n : Nat) (l : Line) : ofText initTag n l.text = [l.tag initTag n] := by
  have h : ofText initTag n (unlines ([l].map text)) = tags initTag n [l] :=
    ofText_unlines n (List.cons_ne_nil l [])
  rwa [List.map_singleton, unlines_singleton] at h

/-- The tag of a tag line has its name. -/
@[simp] theorem name_tag (n : Nat) (l : Line) : (l.tag initTag n).name = l.name :=
  name_ofParts _ _ _

/-- The text of a tag line has no blanks at its ends. -/
theorem trim_unwords_fields (l : Line) : trim (unwords l.fields) = unwords l.fields :=
  trim_of_isTrimmed (isTrimmed_unwords l.isWordText_of_mem_fields)

/-- The fields of a tag line without a meaning of its own are its words. -/
theorem fields_tag (n : Nat) {l : Line} (hblock : isBlockName l.name = false)
    (hleading : leadingWords l.name = 0) : (l.tag initTag n).fields = l.fields := by
  have hcontent : (l.tag initTag n).content = unwords l.fields := by
    rw [tag, ofParts, if_neg (by simp [hblock])]
    exact l.trim_unwords_fields
  have hnoblock : (l.tag initTag n).isBlock = false := by
    rw [isBlock, name_tag, hblock]
  rw [Tag.fields, if_neg (by simp [hnoblock]), name_tag, hleading, hcontent]
  exact words_unwords l.isWordText_of_mem_fields

/-- The opening tag with one word has it as its key. -/
theorem arguments_tag (n : Nat) {l : Line} (hblock : isBlockName initTag = false)
    (hname : l.name = initTag) {key : Text} (hfields : l.fields = [key]) :
    (l.tag initTag n).arguments = [key] := by
  have hkey : IsWordText key := l.isWordText_of_mem_fields key (by simp [hfields])
  have htrim : trim key = key := trim_of_isTrimmed (isTrimmed_of_forall hkey.2)
  rw [tag, ofParts, hname, if_neg (by simp [hblock]), hfields, unwords_singleton, htrim]
  simp only [if_true, keyAndLabel_of_isWordText hkey]

end Line

end Marginalia.Tag
