import Mathlib.Data.List.Nodup
import Marginalia.Proofs.Dictionary
import Marginalia.Settings.Basic

/-!
# What the changes of styles amount to

Changes are applied one after another, in the order of their names as written. A language ends with
its own change applied, and an extension that is routed to it follows, unless the extension has a
change of its own: then it keeps a copy of the style as that was when its change was applied, so a
change of the language that comes later does not reach it.
-/

namespace Marginalia.Comment

open Text

/-- The parts of a style. -/
inductive Part
  | line
  | docLine
  | block
  | docBlock

/-- What a style has in a part. -/
def Part.Value : Part → Type
  | .line | .docLine => List Text
  | .block | .docBlock => Option Delimiters

/-- A part of a style. -/
def Style.part (style : Style) : (p : Part) → p.Value
  | .line => style.line
  | .docLine => style.docLine
  | .block => style.block
  | .docBlock => style.docBlock

/-- What a change sets a part to, if it sets it. -/
def StyleChange.part? (change : StyleChange) : (p : Part) → Option p.Value
  | .line => change.line
  | .docLine => change.docLine
  | .block => change.block.map some
  | .docBlock => change.docBlock.map some

/-- A changed style has the parts that the change sets, and its other parts as they were. -/
theorem Style.part_applying (style : Style) (change : StyleChange) (p : Part) :
    (style.applying change).part p = (change.part? p).getD (style.part p) := by
  obtain ⟨line, docLine, block, docBlock⟩ := change
  cases p with
  | line => rfl
  | docLine => rfl
  | block => cases block <;> rfl
  | docBlock => cases docBlock <;> rfl

/-- Whether no two changes have the same name in its kept form. -/
def AreDistinct (changes : List (Text × StyleChange)) : Prop :=
  changes.Pairwise fun a b => normalizeName a.1 ≠ normalizeName b.1

/-- The change of a name, given in its kept form. -/
def changeOf? (changes : List (Text × StyleChange)) (key : Text) : Option StyleChange :=
  (changes.find? fun e => normalizeName e.1 = key).map Prod.snd

/-- The first of several changes is that of its own name. -/
theorem changeOf?_cons (e : Text × StyleChange) (rest : List (Text × StyleChange)) (key : Text) :
    changeOf? (e :: rest) key =
      if normalizeName e.1 = key then some e.2 else changeOf? rest key := by
  rw [changeOf?, List.find?_cons]
  by_cases he : normalizeName e.1 = key
  · simp [he]
  · simp [he, changeOf?]

/-- A name has no change exactly when it is not among the names of the changes. -/
theorem changeOf?_eq_none_iff {changes : List (Text × StyleChange)} {key : Text} :
    changeOf? changes key = none ↔ ∀ e ∈ changes, normalizeName e.1 ≠ key := by
  simp [changeOf?]

/-- The change of a name is the one that has it. -/
theorem changeOf?_eq_some_iff {changes : List (Text × StyleChange)} (h : AreDistinct changes)
    {key : Text} {change : StyleChange} :
    changeOf? changes key = some change ↔
      ∃ name, (name, change) ∈ changes ∧ normalizeName name = key := by
  induction changes with
  | nil => simp [changeOf?]
  | cons e rest ih =>
    obtain ⟨hfirst, hrest⟩ := List.pairwise_cons.mp h
    rw [changeOf?_cons]
    by_cases he : normalizeName e.1 = key
    · have hother : ∀ name, (name, change) ∈ rest → normalizeName name ≠ key :=
        fun name hname heq => hfirst _ hname (he.trans heq.symm)
      rw [if_pos he, Option.some.injEq]
      constructor
      · rintro rfl
        exact ⟨e.1, List.mem_cons_self, he⟩
      · rintro ⟨name, hname, hkey⟩
        rcases List.mem_cons.mp hname with heq | hname
        · exact congrArg Prod.snd heq.symm
        · exact absurd hkey (hother name hname)
    · rw [if_neg he, ih hrest]
      refine exists_congr fun name => and_congr_left fun hkey => ?_
      rw [List.mem_cons, or_iff_right]
      rintro rfl
      exact he hkey

/-- Of distinct changes, two with the same name in its kept form are one. -/
theorem AreDistinct.eq_of_mem {changes : List (Text × StyleChange)} (h : AreDistinct changes)
    {a b : Text × StyleChange} (ha : a ∈ changes) (hb : b ∈ changes)
    (hkey : normalizeName a.1 = normalizeName b.1) : a = b := by
  have hnodup : (changes.map fun e => normalizeName e.1).Nodup := List.pairwise_map.mpr h
  exact List.inj_on_of_nodup_map hnodup ha hb hkey

namespace StyleTable

variable {table : StyleTable} {key name extension : Text} {style : Style} {change : StyleChange}

/-- A change leaves the styles of all other languages as they are. -/
theorem find?_languages_changeKept_of_ne (hkey : name ≠ key) (hown : name ≠ ownLanguage key) :
    (table.changeKept key change).languages.find? name = table.languages.find? name := by
  rw [changeKept]
  split
  · exact (Dictionary.find?_insert _ _ _ _).trans (if_neg hkey)
  · exact (Dictionary.find?_insert _ _ _ _).trans (if_neg hown)

/-- The change of a language is applied to its style. -/
theorem find?_languages_changeKept_self (h : table.languages.find? key = some style) :
    (table.changeKept key change).languages.find? key = some (style.applying change) := by
  rw [changeKept, h]
  exact (Dictionary.find?_insert _ _ _ _).trans (if_pos rfl)

/-- A change leaves all other extensions where they are routed. -/
theorem find?_extensions_changeKept_of_ne (hkey : extension ≠ key) :
    (table.changeKept key change).extensions.find? extension =
      table.extensions.find? extension := by
  rw [changeKept]
  split
  · rfl
  · exact (Dictionary.find?_insert _ _ _ _).trans (if_neg hkey)

/-- The change of a language leaves every extension where it is routed. -/
theorem extensions_changeKept_of_language (h : table.languages.find? key = some style) :
    (table.changeKept key change).extensions = table.extensions := by
  rw [changeKept, h]

/-- The change of a name that is no language gives an extension of that name a language of its
own, whose style is the one that the extension had, changed. -/
theorem changeKept_of_extension (change : StyleChange)
    (h : table.languages.find? key = none) :
    (table.changeKept key change).extensions.find? key = some (ownLanguage key) ∧
      (table.changeKept key change).languages.find? (ownLanguage key) =
        some (((table.styleOfExtension? key).getD {}).applying change) := by
  rw [changeKept, h]
  exact ⟨(Dictionary.find?_insert _ _ _ _).trans (if_pos rfl),
    (Dictionary.find?_insert _ _ _ _).trans (if_pos rfl)⟩

/-- The table after changes, in their order. -/
def changeEach (table : StyleTable) (changes : List (Text × StyleChange)) : StyleTable :=
  changes.foldl (fun t e => t.changeKept (normalizeName e.1) e.2) table

/-- Changes are applied one after another. -/
theorem changeEach_append_cons (before behind : List (Text × StyleChange))
    (e : Text × StyleChange) :
    table.changeEach (before ++ e :: behind) =
      ((table.changeEach before).changeKept (normalizeName e.1) e.2).changeEach behind := by
  rw [changeEach, List.foldl_append]
  rfl

/-- A language ends with its own change applied, unless a change gives an extension a language of
that name. -/
theorem find?_languages_changeEach {changes : List (Text × StyleChange)}
    (h : table.languages.find? name = some style) (hdistinct : AreDistinct changes)
    (hown : ∀ e ∈ changes, ownLanguage (normalizeName e.1) ≠ name) :
    (table.changeEach changes).languages.find? name =
      some (style.applying ((changeOf? changes name).getD {})) := by
  induction changes generalizing table style with
  | nil => exact h
  | cons e rest ih =>
    obtain ⟨hfirst, hrest⟩ := List.pairwise_cons.mp hdistinct
    obtain ⟨hownfirst, hownrest⟩ := List.forall_mem_cons.mp hown
    rw [changeOf?_cons, changeEach, List.foldl_cons]
    by_cases he : normalizeName e.1 = name
    · have hnone : changeOf? rest name = none :=
        changeOf?_eq_none_iff.mpr fun d hd heq => hfirst d hd (he.trans heq.symm)
      have hstep : (table.changeKept (normalizeName e.1) e.2).languages.find? name =
          some (style.applying e.2) := he ▸ find?_languages_changeKept_self (he ▸ h)
      rw [if_pos he]
      exact (ih hstep hrest hownrest).trans (by rw [hnone]; rfl)
    · have hstep : (table.changeKept (normalizeName e.1) e.2).languages.find? name = some style :=
        (find?_languages_changeKept_of_ne (Ne.symm he) hownfirst.symm).trans h
      rw [if_neg he]
      exact ih hstep hrest hownrest

/-- An extension without a change of its own stays where it is routed. -/
theorem find?_extensions_changeEach {changes : List (Text × StyleChange)}
    (h : ∀ e ∈ changes, normalizeName e.1 ≠ extension) :
    (table.changeEach changes).extensions.find? extension =
      table.extensions.find? extension := by
  induction changes generalizing table with
  | nil => rfl
  | cons e rest ih =>
    obtain ⟨hfirst, hrest⟩ := List.forall_mem_cons.mp h
    rw [changeEach, List.foldl_cons]
    exact (ih hrest).trans (find?_extensions_changeKept_of_ne (Ne.symm hfirst))

/-- An extension whose name is that of a language when its change is applied stays where it is
routed. -/
theorem find?_extensions_changeEach_of_language {before behind : List (Text × StyleChange)}
    {e : Text × StyleChange} (hkey : normalizeName e.1 = extension)
    (hdistinct : AreDistinct (before ++ e :: behind))
    (h : (table.changeEach before).languages.find? extension = some style) :
    (table.changeEach (before ++ e :: behind)).extensions.find? extension =
      table.extensions.find? extension := by
  obtain ⟨-, hrest, hcross⟩ := List.pairwise_append.mp hdistinct
  obtain ⟨hself, -⟩ := List.pairwise_cons.mp hrest
  rw [changeEach_append_cons, hkey,
    find?_extensions_changeEach fun d hd => hkey ▸ (hself d hd).symm,
    extensions_changeKept_of_language h]
  exact find?_extensions_changeEach fun d hd => hkey ▸ hcross d hd e List.mem_cons_self

/-- An extension that is still routed to a language behind changes has the style of the language
with the change of that name applied. -/
theorem styleOfExtension?_changeEach {changes : List (Text × StyleChange)}
    (hrouted : (table.changeEach changes).extensions.find? extension = some name)
    (h : table.languages.find? name = some style) (hdistinct : AreDistinct changes)
    (hown : ∀ e ∈ changes, ownLanguage (normalizeName e.1) ≠ name) :
    (table.changeEach changes).styleOfExtension? extension =
      some (style.applying ((changeOf? changes name).getD {})) := by
  rw [styleOfExtension?, hrouted, Option.bind_some]
  exact find?_languages_changeEach h hdistinct hown

/-- The own languages of two extensions have different names. -/
theorem ownLanguage_inj {a b : Text} (h : ownLanguage a = ownLanguage b) : a = b :=
  List.append_cancel_left h

/-- No language that is known from the start is the own language of an extension. -/
theorem ownLanguage_ne_of_builtin (h : builtin.languages.find? name = some style)
    (extension : Text) : ownLanguage extension ≠ name := by
  have hall : ∀ l ∈ builtinLanguages, ¬ "ext:".toList <+: l.1.toList := by decide
  obtain ⟨l, hl, heq⟩ := List.mem_map.mp
    (Dictionary.mem_entries_ofList ((Dictionary.mem_entries_iff _).mpr h))
  obtain ⟨rfl, -⟩ := Prod.mk.inj heq
  rintro heq
  exact hall l hl (heq ▸ List.prefix_append _ _)

/-- An extension that is routed to a language, and whose name is changed while it names no language,
ends with a copy of the style of the language as the changes before left it, to which its own change
is applied and then the change of its own language, if a later change has that name. -/
theorem styleOfExtension?_changeEach_own {before behind : List (Text × StyleChange)}
    {e : Text × StyleChange} (hkey : normalizeName e.1 = extension)
    (hdistinct : AreDistinct (before ++ e :: behind))
    (hrouted : table.extensions.find? extension = some name)
    (h : table.languages.find? name = some style)
    (hown : ∀ x, ownLanguage x ≠ name)
    (hnone : (table.changeEach before).languages.find? extension = none) :
    (table.changeEach (before ++ e :: behind)).styleOfExtension? extension =
      some (((style.applying ((changeOf? before name).getD {})).applying e.2).applying
        ((changeOf? behind (ownLanguage extension)).getD {})) := by
  obtain ⟨hbefore, hrest, hcross⟩ := List.pairwise_append.mp hdistinct
  obtain ⟨hself, hbehind⟩ := List.pairwise_cons.mp hrest
  have hroute : (table.changeEach before).extensions.find? extension = some name :=
    (find?_extensions_changeEach fun d hd => hkey ▸ hcross d hd e List.mem_cons_self).trans hrouted
  have hcopied := styleOfExtension?_changeEach hroute h hbefore fun d _ => hown _
  obtain ⟨hextension, hlanguage⟩ := changeKept_of_extension e.2 hnone
  rw [hcopied, Option.getD_some] at hlanguage
  rw [changeEach_append_cons, hkey]
  apply styleOfExtension?_changeEach
  · refine (find?_extensions_changeEach fun d hd => ?_).trans hextension
    exact hkey ▸ (hself d hd).symm
  · exact hlanguage
  · exact hbehind
  · exact fun d hd heq => hself d hd (hkey.trans (ownLanguage_inj heq).symm)

end StyleTable

end Marginalia.Comment

namespace Marginalia.Settings

open Text Comment

variable {s : Settings}

/-- The table of styles before any style is changed. -/
def routed (s : Settings) : StyleTable :=
  s.languages.entries.foldl (fun table e => table.route e.1 e.2) .builtin

/-- The table of styles when the change of a name, as written, is applied. -/
def stylesBefore (s : Settings) (name : Text) : StyleTable :=
  s.routed.changeEach (s.commentPatterns.entries.filter fun e => isBefore e.1 name)

/-- Whether a change behind that of a name, as written, has a name in its kept form and sets a part
to a value. -/
def SetsBehind (s : Settings) (name key : Text) (p : Part) (value : p.Value) : Prop :=
  ∃ e ∈ s.commentPatterns.entries,
    isBefore name e.1 = true ∧ normalizeName e.1 = key ∧ e.2.part? p = some value

/-- Routing extensions adds no language and changes no style. -/
theorem languages_routed (s : Settings) : s.routed.languages = StyleTable.builtin.languages := by
  rw [routed]
  generalize StyleTable.builtin = table
  induction s.languages.entries generalizing table with
  | nil => rfl
  | cons e rest ih => exact ih _

/-- The table of styles is the routed one with the changes applied in their order. -/
theorem styles_eq (s : Settings) : s.styles = s.routed.changeEach s.commentPatterns.entries := rfl

/-- An extension stays where it is routed unless its name is changed while it names no language. -/
theorem find?_extensions_styles (hdistinct : AreDistinct s.commentPatterns.entries) {key : Text}
    (h : ∀ e ∈ s.commentPatterns.entries, normalizeName e.1 = key →
      (s.stylesBefore e.1).languages.find? key ≠ none) :
    s.styles.extensions.find? key = s.routed.extensions.find? key := by
  rw [styles_eq]
  by_cases hmem : ∃ e ∈ s.commentPatterns.entries, normalizeName e.1 = key
  · obtain ⟨e, he, hkey⟩ := hmem
    obtain ⟨before, behind, hentries⟩ := List.append_of_mem he
    have hlanguage := h e he hkey
    rw [stylesBefore, Dictionary.filter_isBefore_entries hentries] at hlanguage
    obtain ⟨style, hstyle⟩ := Option.ne_none_iff_exists'.mp hlanguage
    rw [hentries] at hdistinct ⊢
    exact StyleTable.find?_extensions_changeEach_of_language hkey hdistinct hstyle
  · exact StyleTable.find?_extensions_changeEach fun e he hkey => hmem ⟨e, he, hkey⟩

/-- What stands behind a change sets a part exactly when the changes behind it do. -/
theorem setsBehind_iff {before behind : List (Text × StyleChange)} {e : Text × StyleChange}
    (hentries : s.commentPatterns.entries = before ++ e :: behind) (hdistinct : AreDistinct behind)
    {key : Text} {p : Part} {value : p.Value} :
    s.SetsBehind e.1 key p value ↔
      ((changeOf? behind key).getD {}).part? p = some value := by
  have hmem : ∀ d ∈ behind, d ∈ s.commentPatterns.entries := fun d hd =>
    hentries ▸ List.mem_append_right before (List.mem_cons_of_mem e hd)
  constructor
  · rintro ⟨d, hd, hkey, hname, hvalue⟩
    have hchange := (changeOf?_eq_some_iff hdistinct).mpr
      ⟨d.1, (Dictionary.mem_behind_iff hentries hd).mpr hkey, hname⟩
    rwa [hchange, Option.getD_some]
  · intro hvalue
    cases hchange : changeOf? behind key with
    | none =>
      rw [hchange] at hvalue
      cases p <;> cases hvalue
    | some change =>
      rw [hchange, Option.getD_some] at hvalue
      obtain ⟨name, hname, hkey⟩ := (changeOf?_eq_some_iff hdistinct).mp hchange
      have hd := hmem _ hname
      exact ⟨_, hd, (Dictionary.mem_behind_iff hentries hd).mp hname, hkey, hvalue⟩

section

variable {path : Path} {extension name : Text} {change : StyleChange} {style : Style} {p : Part}
  {value : p.Value}

/-- The style of a file is that of its extension. -/
theorem styleFor_eq (hextension : path.extensionText? = some extension) :
    s.reading.styles.styleFor path.extensionText? none =
      (s.styles.styleOfExtension? (normalizeName extension)).getD .cLike := by
  rw [hextension]
  rfl

/-- Behind the changes before one of them, a language has the part as its own change sets it exactly
when its change is among these, or sets the part to what it was. -/
theorem part_inherited_iff (hdistinct : AreDistinct s.commentPatterns.entries)
    {before behind : List (Text × StyleChange)} {e : Text × StyleChange}
    (hentries : s.commentPatterns.entries = before ++ e :: behind)
    (hchange : s.commentPatterns.find? name = some change) (hset : change.part? p = some value)
    (style : Style) :
    (((changeOf? before (normalizeName name)).getD {}).part? p).getD (style.part p) = value ↔
      isBefore name e.1 = true ∨ style.part p = value := by
  have hentry := (Dictionary.mem_entries_iff _).mpr hchange
  obtain ⟨hbefore, -, -⟩ := List.pairwise_append.mp (hentries ▸ hdistinct)
  rw [← Dictionary.mem_before_iff hentries hentry]
  by_cases hfirst : (name, change) ∈ before
  · have hself := (changeOf?_eq_some_iff hbefore).mpr ⟨name, hfirst, rfl⟩
    simp only [hself, Option.getD_some, hset, hfirst, true_or]
  · have hlater : changeOf? before (normalizeName name) = none := by
      rw [changeOf?_eq_none_iff]
      intro d hd hname
      have hmem : d ∈ s.commentPatterns.entries := hentries ▸ List.mem_append_left _ hd
      exact hfirst (hdistinct.eq_of_mem hmem hentry hname ▸ hd)
    rw [hlater, or_iff_right hfirst]
    cases p <;> rfl

/-- Take a change that sets a part of a language known from the start, and a file with an extension
that is no such language, is routed to this one, and has no change of its own that sets the part.
The file is read with the part as it is set exactly when one of these holds: the extension has no
change of its own; its name is that of a language when its change is applied; its own language is
changed later to have that part; or that part of its own language is not changed later, and the
change of the language comes before that of the extension, or sets the part to what it was. -/
theorem part_styleFor_eq_iff (hdistinct : AreDistinct s.commentPatterns.entries)
    (hlanguage : StyleTable.builtin.languages.find? (normalizeName name) = some style)
    (hchange : s.commentPatterns.find? name = some change) (hset : change.part? p = some value)
    (hextension : path.extensionText? = some extension)
    (hrouted : s.routed.extensions.find? (normalizeName extension) = some (normalizeName name))
    (hkept : ∀ e ∈ s.commentPatterns.entries,
      normalizeName e.1 = normalizeName extension → e.2.part? p = none) :
    (s.reading.styles.styleFor path.extensionText? none).part p = value ↔
      ∀ e ∈ s.commentPatterns.entries, normalizeName e.1 = normalizeName extension →
        (s.stylesBefore e.1).languages.find? (normalizeName extension) = none →
          let own := StyleTable.ownLanguage (normalizeName extension)
          s.SetsBehind e.1 own p value ∨ (¬ ∃ other, s.SetsBehind e.1 own p other) ∧
            (isBefore name e.1 = true ∨ style.part p = value) := by
  have hentry := (Dictionary.mem_entries_iff _).mpr hchange
  have hstyle : s.routed.languages.find? (normalizeName name) = some style :=
    s.languages_routed ▸ hlanguage
  have hown := StyleTable.ownLanguage_ne_of_builtin hlanguage
  rw [styleFor_eq hextension, styles_eq]
  by_cases hcopy : ∃ e ∈ s.commentPatterns.entries,
      normalizeName e.1 = normalizeName extension ∧
        (s.stylesBefore e.1).languages.find? (normalizeName extension) = none
  · obtain ⟨e, he, hkey, hnone⟩ := hcopy
    obtain ⟨before, behind, hentries⟩ := List.append_of_mem he
    obtain ⟨-, hrest, -⟩ := List.pairwise_append.mp (hentries ▸ hdistinct)
    have hcopied := StyleTable.styleOfExtension?_changeEach_own hkey (hentries ▸ hdistinct) hrouted
      hstyle hown (Dictionary.filter_isBefore_entries hentries ▸ hnone)
    -- Only this change has the name of the extension, so the condition is about it alone.
    have honly : ∀ d ∈ s.commentPatterns.entries,
        normalizeName d.1 = normalizeName extension → d = e := fun d hd hdkey =>
      hdistinct.eq_of_mem hd he (hdkey.trans hkey.symm)
    rw [hentries, hcopied, Option.getD_some, Style.part_applying, Style.part_applying,
      Style.part_applying, hkept e he hkey, Option.getD_none, ← hentries]
    refine Iff.trans ?_ ⟨fun h d hd hdkey _ => honly d hd hdkey ▸ h, fun h => h e he hkey hnone⟩
    simp only [setsBehind_iff hentries (List.pairwise_cons.mp hrest).2]
    cases ((changeOf? behind
        (StyleTable.ownLanguage (normalizeName extension))).getD {}).part? p with
    | none => simpa using part_inherited_iff hdistinct hentries hchange hset style
    | some other => simp
  · have hself := (changeOf?_eq_some_iff hdistinct).mpr ⟨name, hentry, rfl⟩
    have hroute := (find?_extensions_styles hdistinct fun e he hkey hnone =>
      hcopy ⟨e, he, hkey, hnone⟩).trans hrouted
    rw [styles_eq] at hroute
    have hfound := StyleTable.styleOfExtension?_changeEach hroute hstyle hdistinct fun _ _ => hown _
    have hvalue : (((s.routed.changeEach s.commentPatterns.entries).styleOfExtension?
        (normalizeName extension)).getD .cLike).part p = value := by
      rw [hfound, hself, Option.getD_some, Option.getD_some, Style.part_applying, hset,
        Option.getD_some]
    exact ⟨fun _ e he hkey hnone => absurd ⟨e, he, hkey, hnone⟩ hcopy, fun _ => hvalue⟩

end

/-- Settings that change the line mark of a language and another part of one of its extensions. -/
def changing (language extension : String) : Settings where
  commentPatterns := .ofList [(language.toList, { line := some ["%".toList] }),
    (extension.toList, { docLine := some ["##".toList] })]

/-- The name of the slash style comes before that of its extension, so the file has the line
mark. -/
theorem part_styleFor_eq_iff_ts :
    let s := changing "c" "ts"
    let path : Path := ⟨"a.ts".toList⟩
    AreDistinct s.commentPatterns.entries ∧
      StyleTable.builtin.languages.find? (normalizeName "c".toList) = some .cLike ∧
      s.commentPatterns.find? "c".toList = some { line := some ["%".toList] } ∧
      path.extensionText? = some "ts".toList ∧
      s.routed.extensions.find? (normalizeName "ts".toList) =
        some (normalizeName "c".toList) ∧
      (s.reading.styles.styleFor path.extensionText? none).part .line = ["%".toList] := by
  intro s path
  have hdistinct : AreDistinct s.commentPatterns.entries := by unfold AreDistinct; decide
  have hlanguage : StyleTable.builtin.languages.find? (normalizeName "c".toList) = some .cLike := by
    decide
  have hchange : s.commentPatterns.find? "c".toList = some { line := some ["%".toList] } := by
    decide
  have hextension : path.extensionText? = some "ts".toList := by decide +kernel
  have hrouted : s.routed.extensions.find? (normalizeName "ts".toList) =
      some (normalizeName "c".toList) := by decide
  have hkept : ∀ e ∈ s.commentPatterns.entries,
      normalizeName e.1 = normalizeName "ts".toList → e.2.part? .line = none := by
    change ∀ e ∈ s.commentPatterns.entries,
      normalizeName e.1 = normalizeName "ts".toList → e.2.line = none
    decide
  have hset : StyleChange.part? { line := some ["%".toList] } .line = some ["%".toList] := rfl
  have hbefore : ∀ e ∈ s.commentPatterns.entries,
      normalizeName e.1 = normalizeName "ts".toList → isBefore "c".toList e.1 = true := by decide
  have hbehind : ∀ e ∈ s.commentPatterns.entries, ∀ d ∈ s.commentPatterns.entries,
      normalizeName d.1 ≠ StyleTable.ownLanguage (normalizeName "ts".toList) := by decide
  refine ⟨hdistinct, hlanguage, hchange, hextension, hrouted, ?_⟩
  apply (part_styleFor_eq_iff hdistinct hlanguage hchange hset hextension hrouted hkept).mpr
  intro e he hkey _
  refine .inr ⟨?_, .inl (hbefore e he hkey)⟩
  rintro ⟨other, d, hd, -, hown, -⟩
  exact hbehind e he d hd hown

/-- The name of the shell comes behind that of its extension, so the extension keeps the line mark
that the shell had before. -/
theorem changed_language_misses_extension :
    let s := changing "shell" "bash"
    let path : Path := ⟨"a.bash".toList⟩
    AreDistinct s.commentPatterns.entries ∧
      StyleTable.builtin.languages.find? (normalizeName "shell".toList) = some .shell ∧
      s.commentPatterns.find? "shell".toList = some { line := some ["%".toList] } ∧
      path.extensionText? = some "bash".toList ∧
      StyleTable.builtin.languages.find? (normalizeName "bash".toList) = none ∧
      s.routed.extensions.find? (normalizeName "bash".toList) =
        some (normalizeName "shell".toList) ∧
      (∀ e ∈ s.commentPatterns.entries,
        normalizeName e.1 = normalizeName "bash".toList → e.2.line = none) ∧
      (s.reading.styles.styleFor path.extensionText? none).line ≠ ["%".toList] := by
  intro s path
  have hextension : path.extensionText? = some "bash".toList := by decide +kernel
  rw [hextension]
  unfold AreDistinct
  decide

end Marginalia.Settings
