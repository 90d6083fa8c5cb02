import Marginalia.Comment.StyleTable
import Marginalia.Proofs.Comment.DocLine
import Marginalia.Proofs.Comment.Opening
import Marginalia.Proofs.Dictionary
import Marginalia.Proofs.Tag.Line
import Marginalia.Proofs.Text.Cut

/-!
# The forms of a comment

A style writes a comment on one line behind one of its marks or between delimiters. Marks and
delimiters of one style may start with one another, but the space behind the one that is written and
the at sign of the tag behind it tell them apart. So in every style that is known from the start, a
tag line in a comment of any form is read as that tag alone.
-/

namespace Marginalia.Comment

open Text

/-- A form in which a comment stands on one line. -/
inductive Form
  | marked (mark : Text)
  | delimited (delimiters : Delimiters)
deriving DecidableEq

namespace Form

/-- What opens a comment of a form. -/
def opener : Form → Text
  | marked mark => mark
  | delimited d => d.opening

/-- A comment of a form behind some blanks, with spaces around its text. -/
def write (indent body : Text) : Form → Text
  | marked mark => indent ++ (mark ++ ' ' :: body)
  | delimited d => indent ++ (d.opening ++ ' ' :: (body ++ ' ' :: d.closing))

/-- Whether a text can be that of a comment of a form: it does not close the comment. -/
def Admits (body : Text) : Form → Prop
  | marked _ => True
  | delimited d => ¬ d.closing <:+: body

/-- The start of every comment of a form that holds a tag line. -/
def start (form : Form) : Text :=
  form.opener ++ " @".toList

end Form

/-- The forms of comments in a style. -/
def Style.forms (style : Style) : List Form :=
  (style.docLine ++ style.line).map .marked ++
    (style.block.toList ++ style.docBlock.toList).map .delimited

/-- Whether a text can open comments behind blanks: it has no blanks at its ends and is one line. -/
def IsOpener (t : Text) : Prop :=
  t ≠ [] ∧ IsTrimmed t ∧ '\n' ∉ t

instance (t : Text) : Decidable (IsOpener t) :=
  inferInstanceAs (Decidable (_ ∧ _ ∧ _))

/-- Whether a text can close comments: it holds characters and none of them is blank. -/
def IsCloser (t : Text) : Prop :=
  t ≠ [] ∧ ∀ c ∈ t, isBlank c = false

instance (t : Text) : Decidable (IsCloser t) :=
  decidable_of_iff (t ≠ [] ∧ t.all (!isBlank ·) = true) <| by
    simp [IsCloser, List.all_eq_true]

/-- Whether, of some marks, one and no other fits a tag line behind it. -/
def FitsAlone (marks : List Text) (mark : Text) : Prop :=
  mark ∈ marks ∧ ∀ m ∈ marks, Touches m (Form.marked mark).start → m = mark

/-- Whether a tag line behind a mark is read behind that mark. The documentation marks go before the
plain ones. -/
def Style.ReadsMark (style : Style) (mark : Text) : Prop :=
  IsOpener mark ∧ (FitsAlone style.docLine mark ∨
    (∀ m ∈ style.docLine, ¬ Touches m (Form.marked mark).start) ∧ FitsAlone style.line mark)

/-- Whether a tag line between delimiters is read between them: no mark fits there, and of the other
delimiters the opening does not, or is shorter and not closed at once. -/
def Style.ReadsDelimited (style : Style) (d : Delimiters) : Prop :=
  let start := (Form.delimited d).start
  IsOpener d.opening ∧ IsCloser d.closing ∧
    (∀ m ∈ style.docLine ++ style.line, ¬ Touches m start) ∧
    (∀ e ∈ style.block.toList ++ style.docBlock.toList, IsOpener e.opening) ∧
    (style.block = some d ∧ (∀ e ∈ style.docBlock, ¬ Touches e.opening start) ∨
      style.docBlock = some d ∧ ∀ e ∈ style.block, ¬ start <+: e.opening ∧
        (e.opening <+: start → e.opening.length < d.opening.length) ∧
        ¬ Touches (e.opening ++ e.closing) start)

/-- Whether a tag line in a comment of a form is read as such. -/
def Style.Reads (style : Style) : Form → Prop
  | .marked mark => style.ReadsMark mark
  | .delimited d => style.ReadsDelimited d

instance (marks : List Text) (mark : Text) : Decidable (FitsAlone marks mark) :=
  inferInstanceAs (Decidable (_ ∧ _))

instance (style : Style) (mark : Text) : Decidable (style.ReadsMark mark) :=
  inferInstanceAs (Decidable (_ ∧ _))

instance (style : Style) (d : Delimiters) : Decidable (style.ReadsDelimited d) := by
  unfold Style.ReadsDelimited
  infer_instance

instance (style : Style) : (form : Form) → Decidable (style.Reads form)
  | .marked mark => inferInstanceAs (Decidable (style.ReadsMark mark))
  | .delimited d => inferInstanceAs (Decidable (style.ReadsDelimited d))

/-- In a style that is known from the start, a tag line is read in a comment of every form. -/
theorem reads_of_mem_builtinLanguages :
    ∀ l ∈ StyleTable.builtinLanguages, ∀ form ∈ l.2.2.forms, l.2.2.Reads form := by
  decide

/-- What a comment with a tag line starts with. -/
theorem Form.start_append (form : Form) (behind : Text) :
    form.start ++ behind = form.opener ++ ' ' :: '@' :: behind := by
  simp [start]

/-- Blanks in front of a comment with a tag line are cut off. -/
theorem Form.trimStart_indent (form : Form) (hopener : IsOpener form.opener) {indent : Text}
    (hindent : ∀ c ∈ indent, isBlank c = true) (behind : Text) :
    trimStart (indent ++ (form.start ++ behind)) = form.start ++ behind := by
  obtain ⟨hne, htrimmed, -⟩ := hopener
  rw [trimStart_blanks_append hindent]
  apply trimStart_of_head?
  intro c hc
  obtain ⟨a, rest, ha⟩ := List.exists_cons_of_ne_nil hne
  rw [start, ha] at hc
  exact htrimmed.1 c (ha ▸ hc)

section

variable {style : Style} {mark line behind : Text} {marks : List Text}

/-- A line whose start no mark touches is no comment behind a mark. -/
theorem lineComment?_of_not_touches (kind : Kind) (n : Nat) {front rest : Text}
    (hline : trimStart line = front ++ rest) (h : ∀ m ∈ marks, ¬ Touches m front) :
    lineComment? kind marks n line = none := by
  rw [lineComment?, hline, List.findSome?_eq_none_iff]
  intro m hm
  rw [after?_append_eq_none (h m (List.mem_filter.mp hm).1) rest]
  rfl

/-- A tag line behind the mark that fits alone is a comment with the tag line as its content. -/
theorem exists_lineComment? (kind : Kind) (n : Nat) (h : FitsAlone marks mark) (hmark : mark ≠ [])
    (hline : trimStart line = (Form.marked mark).start ++ behind)
    (htrimmed : IsTrimmed ('@' :: behind)) :
    ∃ f, lineComment? kind marks n line = some f ∧ f.content = '@' :: behind ∧
      f.contentLine = n := by
  have hafter : after? mark (trimStart line) = some (' ' :: '@' :: behind) := by
    rw [hline, Form.start_append]
    exact after?_append mark _
  have hmem : mark ∈ marks.filter (!·.isEmpty) := List.mem_filter.mpr ⟨h.1, by simpa using hmark⟩
  cases hcomment : lineComment? kind marks n line with
  | none =>
    rw [lineComment?, List.findSome?_eq_none_iff] at hcomment
    have hnone := hcomment mark hmem
    rw [hafter] at hnone
    cases hnone
  | some f =>
    obtain ⟨m, hm, rest, -, hrest, rfl⟩ := exists_of_lineComment? hcomment
    rw [hline] at hrest
    obtain rfl := h.2 m hm (touches_of_after? (after?_eq_some_iff.mpr hrest))
    rw [Form.start_append] at hrest
    obtain rfl : ' ' :: '@' :: behind = rest := List.append_cancel_left hrest
    exact ⟨_, rfl, trim_space_cons htrimmed, rfl⟩

/-- A tag line behind a mark is read as a comment with the tag line as its content. -/
theorem exists_readLine_marked (n : Nat) (h : style.ReadsMark mark)
    (hline : trimStart line = (Form.marked mark).start ++ behind)
    (htrimmed : IsTrimmed ('@' :: behind)) :
    ∃ f, readLine style n none line = (some f, none) ∧ f.content = '@' :: behind ∧
      f.contentLine = n := by
  obtain ⟨⟨hmark, -, -⟩, hfits⟩ := h
  rcases hfits with hfits | ⟨hdoc, hfits⟩
  · obtain ⟨f, hf, hcontent⟩ := exists_lineComment? .docLine n hfits hmark hline htrimmed
    refine ⟨f, ?_, hcontent⟩
    rw [readLine, hf]
    rfl
  · obtain ⟨f, hf, hcontent⟩ := exists_lineComment? .line n hfits hmark hline htrimmed
    refine ⟨f, ?_, hcontent⟩
    rw [readLine, lineComment?_of_not_touches .docLine n hline hdoc, hf]
    rfl

end

section

variable {style : Style} {d : Delimiters} {indent t : Text}

/-- An opening further behind in a line. -/
def Opening.behindIndent (indent : Text) (o : Opening) : Opening :=
  { o with before := indent ++ o.before }

/-- Delimiters open a block comment behind blanks where they do without them. -/
theorem opening?_indent (kind : Kind) {delimiters : Option Delimiters}
    (hopening : ∀ e ∈ delimiters, IsOpener e.opening) (hindent : ∀ c ∈ indent, isBlank c = true) :
    opening? kind delimiters (indent ++ t) =
      (opening? kind delimiters t).map (Opening.behindIndent indent) := by
  cases delimiters with
  | none => rfl
  | some e =>
    obtain ⟨hne, htrimmed, -⟩ := hopening e rfl
    have hfilter : (some e).filter (fun e => !e.opening.isEmpty) = some e := by simpa using hne
    rw [opening?, opening?, hfilter, Option.bind_eq_bind, Option.bind_some, Option.bind_eq_bind,
      Option.bind_some, cut?_blanks_append hne htrimmed.1 hindent]
    cases cut? e.opening t <;> rfl

/-- A line opens a block comment behind blanks where it does without them. -/
theorem firstOpening?_indent
    (hopening : ∀ e ∈ style.block.toList ++ style.docBlock.toList, IsOpener e.opening)
    (hindent : ∀ c ∈ indent, isBlank c = true) :
    firstOpening? style (indent ++ t) =
      (firstOpening? style t).map (Opening.behindIndent indent) := by
  have hblock : ∀ e ∈ style.block, IsOpener e.opening := fun e he =>
    hopening e (List.mem_append_left _ (Option.mem_toList.mpr he))
  have hdoc : ∀ e ∈ style.docBlock, IsOpener e.opening := fun e he =>
    hopening e (List.mem_append_right _ (Option.mem_toList.mpr he))
  let isKept (o : Opening) : Bool := !startsEmptyBlock style (o.delimiters.opening ++ o.behind)
  have hkept : isKept ∘ Opening.behindIndent indent = isKept := rfl
  rw [firstOpening?, firstOpening?, opening?_indent .block hblock hindent,
    opening?_indent .docBlock hdoc hindent, Option.filter_map, hkept]
  generalize opening? .block style.block t = plain
  generalize (opening? .docBlock style.docBlock t).filter isKept = doc
  cases plain with
  | none => cases doc <;> rfl
  | some p =>
    cases doc with
    | none => rfl
    | some o =>
      have hplace : (indent.length + o.before.length == indent.length + p.before.length) =
          (o.before.length == p.before.length) := by
        rw [Bool.eq_iff_iff]
        simp
      simp only [Option.map_some, Opening.behindIndent, List.length_append, Nat.add_lt_add_iff_left,
        hplace]
      split <;> rfl

/-- Delimiters open a comment at their opening. -/
theorem opening?_append (kind : Kind) (hne : d.opening ≠ []) (rest : Text) :
    opening? kind (some d) (d.opening ++ rest) = some ⟨kind, d, [], rest⟩ := by
  have hfilter : (some d).filter (fun d => !d.opening.isEmpty) = some d := by simpa using hne
  rw [opening?, hfilter, Option.bind_eq_bind, Option.bind_some, cut?_append d.opening rest hne]
  rfl

/-- A block that the plain opening and its closing cannot start does not start as an empty one. -/
theorem startsEmptyBlock_eq_false {front : Text}
    (h : ∀ e ∈ style.block, ¬ Touches (e.opening ++ e.closing) front) :
    startsEmptyBlock style (front ++ t) = false := by
  rw [startsEmptyBlock]
  split
  · rfl
  · rename_i e he
    split
    · rfl
    · rename_i rest hrest
      cases hclose : after? e.closing rest with
      | none => simp
      | some more =>
        have hafter : after? (e.opening ++ e.closing) (front ++ t) = some more := by
          rw [after?_eq_some_iff, List.append_assoc, ← after?_eq_some_iff.mp hclose]
          exact after?_eq_some_iff.mp hrest
        exact absurd (touches_of_after? hafter) (h e (Option.filter_eq_some_iff.mp he).1)

/-- Delimiters open a comment where a tag line stands between them. -/
theorem opening?_start (kind : Kind) (hne : d.opening ≠ []) (behind : Text) :
    opening? kind (some d) ((Form.delimited d).start ++ behind) =
      some ⟨kind, d, [], ' ' :: '@' :: behind⟩ := by
  rw [Form.start_append]
  exact opening?_append kind hne _

/-- Between plain delimiters a tag line opens their block, if no documentation block starts there:
one that starts further behind does not count. -/
theorem firstOpening?_of_block (hne : d.opening ≠ []) (hblock : style.block = some d)
    (hdoc : ∀ e ∈ style.docBlock, ¬ Touches e.opening (Form.delimited d).start) (behind : Text) :
    firstOpening? style ((Form.delimited d).start ++ behind) =
      some ⟨.block, d, [], ' ' :: '@' :: behind⟩ := by
  rw [firstOpening?, hblock, opening?_start .block hne]
  cases hfound : (opening? .docBlock style.docBlock ((Form.delimited d).start ++ behind)).filter
      fun o => !startsEmptyBlock style (o.delimiters.opening ++ o.behind) with
  | none => rfl
  | some o =>
    obtain ⟨-, he, -, htext⟩ := eq_of_opening? (Option.filter_eq_some_iff.mp hfound).1
    have hbefore : o.before ≠ [] := by
      intro hnil
      rw [hnil, List.nil_append] at htext
      exact hdoc o.delimiters he (touches_of_after? (after?_eq_some_iff.mpr htext))
    have hlength : o.before.length ≠ 0 :=
      fun hzero => hbefore (List.eq_nil_of_length_eq_zero hzero)
    exact if_neg (by simp [hlength])

/-- Between documentation delimiters a tag line opens their block, if a plain opening that starts
there is shorter and does not start an empty block. -/
theorem firstOpening?_of_docBlock (hne : d.opening ≠ []) (hdoc : style.docBlock = some d)
    (hblock : ∀ e ∈ style.block, ¬ (Form.delimited d).start <+: e.opening ∧
      (e.opening <+: (Form.delimited d).start → e.opening.length < d.opening.length) ∧
      ¬ Touches (e.opening ++ e.closing) (Form.delimited d).start) (behind : Text) :
    firstOpening? style ((Form.delimited d).start ++ behind) =
      some ⟨.docBlock, d, [], ' ' :: '@' :: behind⟩ := by
  have hempty : startsEmptyBlock style (d.opening ++ ' ' :: '@' :: behind) = false := by
    have hstart := Form.start_append (.delimited d) behind
    rw [Form.opener] at hstart
    rw [← hstart]
    exact startsEmptyBlock_eq_false fun e he => (hblock e he).2.2
  have hkept : (some (Opening.mk .docBlock d [] (' ' :: '@' :: behind))).filter
      (fun o => !startsEmptyBlock style (o.delimiters.opening ++ o.behind)) =
        some ⟨.docBlock, d, [], ' ' :: '@' :: behind⟩ := by
    simpa using hempty
  rw [firstOpening?, hdoc, opening?_start .docBlock hne, hkept]
  cases hfound : opening? .block style.block ((Form.delimited d).start ++ behind) with
  | none => rfl
  | some p =>
    obtain ⟨-, he, -, htext⟩ := eq_of_opening? hfound
    obtain ⟨hstart, hshorter, -⟩ := hblock p.delimiters he
    refine if_pos ?_
    by_cases hbefore : p.before = []
    · rw [hbefore, List.nil_append] at htext
      have hopening := (touches_of_after? (after?_eq_some_iff.mpr htext)).resolve_right hstart
      simpa [hbefore] using hshorter hopening
    · simpa [List.length_pos_iff] using .inl hbefore

/-- Between delimiters a tag line opens the block of these delimiters. -/
theorem exists_firstOpening? (h : style.ReadsDelimited d) (behind : Text) :
    ∃ kind, firstOpening? style ((Form.delimited d).start ++ behind) =
      some ⟨kind, d, [], ' ' :: '@' :: behind⟩ := by
  obtain ⟨⟨hne, -, -⟩, -, -, -, ⟨hblock, hother⟩ | ⟨hdoc, hother⟩⟩ := h
  · exact ⟨.block, firstOpening?_of_block hne hblock hother behind⟩
  · exact ⟨.docBlock, firstOpening?_of_docBlock hne hdoc hother behind⟩

/-- The block comment that a tag line between delimiters is, from the line on which it stands. -/
theorem exists_push (o : Opening) (n : Nat) (line : Text) {body : Text}
    (hbehind : o.behind = ' ' :: '@' :: body ++ ' ' :: o.delimiters.closing)
    (hclosing : IsCloser o.delimiters.closing)
    (hbody : ¬ o.delimiters.closing <:+: '@' :: body) (htrimmed : IsTrimmed ('@' :: body)) :
    ∃ f, (o.start n).push line o.behind = .inl f ∧ f.content = '@' :: body ∧
      f.contentLine = n := by
  obtain ⟨hne, hblank⟩ := hclosing
  have hspace : ¬ o.delimiters.closing <:+: ' ' :: '@' :: body := by
    rw [List.infix_cons_iff, not_or]
    refine ⟨?_, hbody⟩
    intro hpre
    obtain ⟨c, more, hc⟩ := List.exists_cons_of_ne_nil hne
    rw [hc, List.cons_prefix_cons] at hpre
    have hhead := hblank c (hc ▸ List.mem_cons_self)
    rw [hpre.1] at hhead
    cases hhead
  have hclose : closeLine? (o.start n).closing o.behind = some (' ' :: '@' :: body ++ [' ']) := by
    have hcut := cut?_append_space hne hblank hspace
    rw [closeLine?, if_neg (by simpa [Opening.start] using hne), hbehind]
    exact congrArg (Option.map Prod.fst) hcut
  have hclean : cleanLine (' ' :: '@' :: body ++ [' ']) = '@' :: body :=
    trim_append_space (List.cons_ne_nil _ _) htrimmed
  refine ⟨_, by rw [OpenBlock.push, hclose], ?_, ?_⟩
  · simp only [OpenBlock.finish, Opening.start, List.nil_append, List.map_singleton, hclean,
      unlines_singleton, trim_of_isTrimmed htrimmed]
  · simp only [OpenBlock.finish, Opening.start, List.nil_append, List.map_singleton, hclean]
    rfl

/-- A tag line between delimiters is read as a comment with the tag line as its content. -/
theorem exists_readLine_delimited (n : Nat) (h : style.ReadsDelimited d)
    (hindent : ∀ c ∈ indent, isBlank c = true) {body : Text} (htrimmed : IsTrimmed ('@' :: body))
    (hbody : ¬ d.closing <:+: '@' :: body) :
    ∃ f, readLine style n none ((Form.delimited d).write indent ('@' :: body)) = (some f, none) ∧
      f.content = '@' :: body ∧ f.contentLine = n := by
  obtain ⟨hopener, hclosing, hmarks, hopenings, -⟩ := id h
  let behind := body ++ ' ' :: d.closing
  have hline : (Form.delimited d).write indent ('@' :: body) =
      indent ++ ((Form.delimited d).start ++ behind) := by
    rw [Form.start_append]
    rfl
  have hstart : trimStart ((Form.delimited d).write indent ('@' :: body)) =
      (Form.delimited d).start ++ behind := by
    rw [hline]
    exact Form.trimStart_indent (.delimited d) hopener hindent behind
  obtain ⟨kind, hfirst⟩ := exists_firstOpening? h behind
  let o : Opening := ⟨kind, d, indent, ' ' :: '@' :: behind⟩
  have hopens : firstOpening? style ((Form.delimited d).write indent ('@' :: body)) = some o := by
    rw [hline, firstOpening?_indent hopenings hindent, hfirst, Option.map_some,
      Opening.behindIndent, List.append_nil]
  obtain ⟨f, hpush, hf⟩ := exists_push o n ((Form.delimited d).write indent ('@' :: body)) rfl
    hclosing hbody htrimmed
  have hstarts : style.StartsBlock n ((Form.delimited d).write indent ('@' :: body)) o := {
    no_docLine := lineComment?_of_not_touches .docLine n hstart fun m hm =>
      hmarks m (List.mem_append_left _ hm)
    no_line := lineComment?_of_not_touches .line n hstart fun m hm =>
      hmarks m (List.mem_append_right _ hm)
    opens := hopens }
  refine ⟨f, ?_, hf⟩
  rw [hstarts.readLine_eq, OpenBlock.read, hpush]
  rfl

/-- A tag line in a comment of a form is read as a comment with the tag line as its content. -/
theorem exists_readLine_write (n : Nat) {form : Form} (h : style.Reads form)
    (hindent : ∀ c ∈ indent, isBlank c = true) {body : Text} (htrimmed : IsTrimmed ('@' :: body))
    (hadmits : form.Admits ('@' :: body)) :
    ∃ f, readLine style n none (form.write indent ('@' :: body)) = (some f, none) ∧
      f.content = '@' :: body ∧ f.contentLine = n := by
  cases form with
  | marked mark =>
    have hline : (Form.marked mark).write indent ('@' :: body) =
        indent ++ ((Form.marked mark).start ++ body) := by
      rw [Form.start_append]
      rfl
    apply exists_readLine_marked n h _ htrimmed
    rw [hline]
    exact Form.trimStart_indent (.marked mark) h.1 hindent body
  | delimited d => exact exists_readLine_delimited n h hindent htrimmed hadmits

/-- A comment of a form stands on one line, without a carriage return at its end. -/
theorem sourceLines_write {form : Form} (h : style.Reads form)
    (hindent : ∀ c ∈ indent, c = ' ' ∨ c = '\t') {body : Text} (htrimmed : IsTrimmed body)
    (hbody : '\n' ∉ body) : sourceLines (form.write indent body) = [form.write indent body] := by
  have hnewline : '\n' ∉ indent := fun hmem => by rcases hindent _ hmem with h | h <;> cases h
  have hline : '\n' ∉ form.write indent body ∧
      chomp (form.write indent body) = form.write indent body := by
    cases form with
    | marked mark =>
      obtain ⟨⟨-, -, hmark⟩, -⟩ := h
      have hwrite : (Form.marked mark).write indent body = (indent ++ (mark ++ [' '])) ++ body := by
        simp [Form.write]
      refine ⟨by simp [hwrite, hnewline, hmark, hbody], ?_⟩
      rw [hwrite]
      exact chomp_append (by simp) htrimmed
    | delimited d =>
      obtain ⟨⟨-, -, hopening⟩, ⟨-, hclosing⟩, -⟩ := h
      have hwrite : (Form.delimited d).write indent body =
          (indent ++ (d.opening ++ ' ' :: body)) ++ [' '] ++ d.closing := by
        simp [Form.write]
      have hnone : '\n' ∉ d.closing := fun hmem => by cases hclosing _ hmem
      refine ⟨by simp [hwrite, hnewline, hopening, hbody, hnone], ?_⟩
      rw [hwrite]
      exact chomp_append (by rw [List.getLast?_concat]; decide) (isTrimmed_of_forall hclosing)
  have hlines := sourceLines_unlines (List.cons_ne_nil _ _) (List.forall_mem_singleton.mpr hline)
  rwa [unlines_singleton] at hlines

/-- A tag line in a comment of a form is the only comment of its text. -/
theorem exists_fragments_write {form : Form} (h : style.Reads form)
    (hindent : ∀ c ∈ indent, c = ' ' ∨ c = '\t') {body : Text} (htrimmed : IsTrimmed ('@' :: body))
    (hbody : '\n' ∉ '@' :: body) (hadmits : form.Admits ('@' :: body)) :
    ∃ f, fragments style (form.write indent ('@' :: body)) = [f] ∧ f.content = '@' :: body ∧
      f.contentLine = 1 := by
  have hblank : ∀ c ∈ indent, isBlank c = true := fun c hc => by
    rcases hindent c hc with rfl | rfl <;> rfl
  obtain ⟨f, hread, hf⟩ := exists_readLine_write 1 h hblank htrimmed hadmits
  refine ⟨f, ?_, hf⟩
  rw [fragments, sourceLines_write h hindent htrimmed hbody, readLines_cons, hread]
  rfl

end

/-- The style of every extension is one of those that are known from the start. -/
theorem exists_styleFor_builtin (extension : Text) :
    ∃ l ∈ StyleTable.builtinLanguages,
      StyleTable.builtin.styleFor (some extension) none = l.2.2 := by
  have hstyle : StyleTable.builtin.styleFor (some extension) none =
      (StyleTable.builtin.styleOfExtension? (normalizeName extension)).getD .cLike := rfl
  rw [hstyle]
  cases hfound : StyleTable.builtin.styleOfExtension? (normalizeName extension) with
  | none =>
    have hslash : ∃ l ∈ StyleTable.builtinLanguages, Style.cLike = l.2.2 := by decide
    exact hslash
  | some style =>
    obtain ⟨name, -, hlanguage⟩ := Option.bind_eq_some_iff.mp hfound
    obtain ⟨l, hl, heq⟩ := List.mem_map.mp
      (Dictionary.mem_entries_ofList ((Dictionary.mem_entries_iff _).mpr hlanguage))
    exact ⟨l, hl, (Prod.mk.inj heq).2.symm⟩

/-- A tag line in a comment of any form of the style of an extension, behind spaces and tabs, is
read as one comment that holds one tag, with the name and the words of the line and on line one, if
the name is neither that of the opening tag nor that of a block tag. Between delimiters, the tag
line must not hold the closing one. -/
theorem ofFragment_write (initTag extension : Text) {form : Form}
    (hform : form ∈ (StyleTable.builtin.styleFor (some extension) none).forms) {indent : Text}
    (hindent : ∀ c ∈ indent, c = ' ' ∨ c = '\t') {l : Tag.Line}
    (hblock : Tag.isBlockName l.name = false) (hinit : l.name ≠ initTag)
    (hadmits : form.Admits l.text) :
    ∃ f, fragments (StyleTable.builtin.styleFor (some extension) none) (form.write indent l.text) =
        [f] ∧ Tag.ofFragment initTag f = [⟨l.name, l.fields, unwords l.fields, 1⟩] := by
  obtain ⟨language, hlanguage, hstyle⟩ := exists_styleFor_builtin extension
  obtain ⟨behind, htext, -, -⟩ := Tag.exists_lineText_eq l.name l.isWordText_of_mem_fields
  have hbody : l.text = '@' :: (l.name ++ behind) := htext
  have htrimmed := l.isTrimmed_text
  have hnewline := l.newline_notMem_text
  rw [hstyle] at hform ⊢
  have hreads := reads_of_mem_builtinLanguages language hlanguage form hform
  have htag : l.tag initTag 1 = ⟨l.name, l.fields, unwords l.fields, 1⟩ := by
    rw [Tag.Line.tag, Tag.ofParts, if_neg (by simp [hblock]), l.trim_unwords_fields]
    simp only [if_neg hinit, words_unwords l.isWordText_of_mem_fields]
  rw [hbody] at htrimmed hnewline hadmits
  obtain ⟨f, hf, hcontent, hline⟩ :=
    exists_fragments_write hreads hindent htrimmed hnewline hadmits
  refine ⟨f, by rw [hbody, hf], ?_⟩
  rw [Tag.ofFragment, hcontent, hline, ← hbody, Tag.Line.ofText_text, htag]

/-- A tag line whose words are the openings and marks of other comments. -/
def openingsLine : Tag.Line where
  name := "t.u".toList
  isName_name := by decide
  words := [⟨"/*".toList, by decide, List.all_eq_true.mp rfl⟩,
    ⟨"//*".toList, by decide, List.all_eq_true.mp rfl⟩,
    ⟨"*".toList, by decide, List.all_eq_true.mp rfl⟩,
    ⟨"\"\"\"".toList, by decide, List.all_eq_true.mp rfl⟩]

/-- Between the delimiters of documentation in the slash style, that line is read as one tag. -/
theorem ofFragment_write_docBlock :
    let style := StyleTable.builtin.styleFor (some "ts".toList) none
    let form := Form.delimited ⟨"/**".toList, "*/".toList⟩
    form ∈ style.forms ∧ form.Admits openingsLine.text ∧
      ∃ f, fragments style "\t /** @t.u /* //* * \"\"\" */".toList = [f] ∧
        Tag.ofFragment "doc".toList f = [⟨"t.u".toList,
          ["/*".toList, "//*".toList, "*".toList, "\"\"\"".toList],
          "/* //* * \"\"\"".toList, 1⟩] := by
  intro style form
  have hform : form ∈ style.forms := by decide
  have hadmits : form.Admits openingsLine.text := by
    change ¬ "*/".toList <:+: openingsLine.text
    decide
  have hindent : ∀ c ∈ "\t ".toList, c = ' ' ∨ c = '\t' := by simp
  obtain ⟨f, hf, htags⟩ := ofFragment_write "doc".toList "ts".toList hform hindent
    (by decide : Tag.isBlockName openingsLine.name = false) (by decide) hadmits
  exact ⟨hform, hadmits, f, hf, htags⟩

end Marginalia.Comment
