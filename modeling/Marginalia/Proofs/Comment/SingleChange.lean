import Marginalia.Path
import Marginalia.Proofs.Comment.StyleChange
import Marginalia.Proofs.Text.Blank

/-!
# What a single change of a style reaches

A single change gives a new style to one language: to the one that has its name or else to the own
language of an extension, to which this extension is then routed. Whatever is not routed there is
read as before. The extension itself ends with the style of the language to which it was routed,
changed. If there is no such language, it ends with what the change sets and nothing else, though it
was read in the slash style before.
-/

namespace Marginalia

namespace Text

/-- A character is left as it is in lower case, or it is one of the capital letters. -/
theorem toLower_eq_or_exists (c : Char) :
    c.toLower = c ∨ ∃ n < 26, c = Char.ofNat (65 + n) := by
  by_cases hupper : c.val ≥ 'A'.val ∧ c.val ≤ 'Z'.val
  · have hlow : 65 ≤ c.toNat := hupper.1
    have hhigh : c.toNat ≤ 90 := hupper.2
    obtain ⟨n, hn⟩ := Nat.exists_eq_add_of_le hlow
    exact .inr ⟨n, by omega, by rw [← hn, Char.ofNat_toNat]⟩
  · exact .inl (dif_neg hupper)

/-- A character that is not blank is not blank in lower case either. -/
theorem isBlank_toLower {c : Char} (h : isBlank c = false) : isBlank c.toLower = false := by
  have hletters : ∀ n < 26, isBlank (Char.ofNat (65 + n)).toLower = false := by decide
  rcases toLower_eq_or_exists c with hsame | ⟨n, hn, rfl⟩
  · rwa [hsame]
  · exact hletters n hn

/-- A character in lower case is left as it is. -/
theorem toLower_toLower (c : Char) : c.toLower.toLower = c.toLower := by
  have hletters : ∀ n < 26,
      (Char.ofNat (65 + n)).toLower.toLower = (Char.ofNat (65 + n)).toLower := by decide
  rcases toLower_eq_or_exists c with hsame | ⟨n, hn, rfl⟩
  · rw [hsame, hsame]
  · exact hletters n hn

/-- A text in lower case is left as it is. -/
@[simp] theorem toAsciiLower_toAsciiLower (t : Text) :
    toAsciiLower (toAsciiLower t) = toAsciiLower t := by
  simp only [toAsciiLower, List.map_map]
  exact List.map_congr_left fun c _ => toLower_toLower c

end Text

namespace Comment

open Text

/-- The kept form of a name ends with no blank. -/
theorem isBlank_of_mem_getLast?_normalizeName (name : Text) :
    ∀ c ∈ (normalizeName name).getLast?, isBlank c = false := by
  intro c hc
  rw [normalizeName, toAsciiLower, List.getLast?_map] at hc
  obtain ⟨d, hd, rfl⟩ := Option.map_eq_some_iff.mp hc
  obtain ⟨front, hfront⟩ := List.dropWhile_suffix (l := trim name) (· == '.')
  refine isBlank_toLower ((isTrimmed_trim name).2 d ?_)
  rw [← hfront, List.getLast?_append, hd]
  rfl

/-- The own language of an extension in its kept form has a name without blanks at its ends. -/
theorem isTrimmed_ownLanguage (name : Text) :
    IsTrimmed (StyleTable.ownLanguage (normalizeName name)) := by
  refine ⟨fun c hc => ?_, fun c hc => ?_⟩
  · obtain rfl : 'e' = c := Option.some.inj hc
    decide
  · rw [StyleTable.ownLanguage, List.getLast?_append] at hc
    cases hlast : (normalizeName name).getLast? with
    | none =>
      rw [hlast] at hc
      obtain rfl : ':' = c := Option.some.inj hc
      decide
    | some d =>
      rw [hlast] at hc
      obtain rfl : d = c := Option.some.inj hc
      exact isBlank_of_mem_getLast?_normalizeName name d hlast

/-- The own language of an extension in its kept form has a name in its kept form. -/
theorem normalizeName_ownLanguage (name : Text) :
    normalizeName (StyleTable.ownLanguage (normalizeName name)) =
      StyleTable.ownLanguage (normalizeName name) := by
  have hdots : (StyleTable.ownLanguage (normalizeName name)).dropWhile (· == '.') =
      StyleTable.ownLanguage (normalizeName name) := rfl
  have hlower : toAsciiLower (normalizeName name) = normalizeName name :=
    toAsciiLower_toAsciiLower _
  conv_lhs => rw [normalizeName, trim_of_isTrimmed (isTrimmed_ownLanguage name), hdots]
  conv_rhs => rw [← hlower]
  exact List.map_append

namespace StyleTable

variable {table : StyleTable} {key name : Text} {extension : Option Text} {change : StyleChange}

/-- Whether a table comes from the languages that are known from the start, by routing extensions
and by changing styles. -/
inductive IsReachable : StyleTable → Prop
  | builtin : IsReachable .builtin
  | route {table : StyleTable} (h : IsReachable table) (extension language : Text) :
      IsReachable (table.route extension language)
  | change {table : StyleTable} (h : IsReachable table) (changes : Dictionary StyleChange) :
      IsReachable (table.change changes)

/-- Whether all languages of a table have their names in the kept form. -/
def KeepsNames (table : StyleTable) : Prop :=
  ∀ language, table.languages.contains language = true → normalizeName language = language

/-- The language to which the change of a name, given in its kept form, gives a new style. -/
def changedLanguage (table : StyleTable) (key : Text) : Text :=
  if table.languages.contains key then key else ownLanguage key

/-- A change leaves the styles of all languages but one as they are. -/
theorem find?_languages_changeKept_of_ne_changedLanguage (h : name ≠ table.changedLanguage key) :
    (table.changeKept key change).languages.find? name = table.languages.find? name := by
  rw [changedLanguage, Dictionary.contains] at h
  rw [changeKept]
  cases hlanguage : table.languages.find? key with
  | some style =>
    rw [hlanguage] at h
    exact (Dictionary.find?_insert _ _ _ _).trans (if_neg h)
  | none =>
    rw [hlanguage] at h
    exact (Dictionary.find?_insert _ _ _ _).trans (if_neg h)

/-- The language that a change reaches has its name in the kept form if all languages have. -/
theorem KeepsNames.normalizeName_changedLanguage (h : table.KeepsNames) (name : Text) :
    normalizeName (table.changedLanguage (normalizeName name)) =
      table.changedLanguage (normalizeName name) := by
  rw [changedLanguage]
  split
  · rename_i hlanguage
    exact h _ hlanguage
  · exact normalizeName_ownLanguage name

/-- A change leaves the names of languages in their kept form. -/
theorem KeepsNames.changeKept (h : table.KeepsNames) (name : Text) (change : StyleChange) :
    (table.changeKept (normalizeName name) change).KeepsNames := by
  intro language hlanguage
  by_cases hchanged : language = table.changedLanguage (normalizeName name)
  · rw [hchanged]
    exact h.normalizeName_changedLanguage name
  · rw [Dictionary.contains, find?_languages_changeKept_of_ne_changedLanguage hchanged] at hlanguage
    exact h language hlanguage

/-- Changes leave the names of languages in their kept form. -/
theorem KeepsNames.changeEach (h : table.KeepsNames) (changes : List (Text × StyleChange)) :
    (table.changeEach changes).KeepsNames := by
  induction changes generalizing table with
  | nil => exact h
  | cons e rest ih => exact ih (h.changeKept e.1 e.2)

/-- The languages that are known from the start have their names in the kept form. -/
theorem keepsNames_builtin : builtin.KeepsNames := by
  have hall : ∀ l ∈ builtinLanguages, normalizeName l.1.toList = l.1.toList := by decide
  intro language hlanguage
  obtain ⟨style, hstyle⟩ := Option.isSome_iff_exists.mp hlanguage
  obtain ⟨l, hl, heq⟩ := List.mem_map.mp
    (Dictionary.mem_entries_ofList ((Dictionary.mem_entries_iff _).mpr hstyle))
  obtain ⟨rfl, -⟩ := Prod.mk.inj heq
  exact hall l hl

/-- The languages of a reachable table have their names in the kept form. -/
theorem IsReachable.keepsNames (h : table.IsReachable) : table.KeepsNames := by
  induction h with
  | builtin => exact keepsNames_builtin
  | route _ _ _ ih => exact ih
  | change _ changes ih => exact ih.changeEach changes.entries

/-- The language to which the extension of a file is routed. -/
def routeOf? (table : StyleTable) (extension : Option Text) : Option Text :=
  extension.bind fun name => table.extensions.find? (normalizeName name)

/-- A file is read in the style of the language to which its extension is routed. -/
theorem styleFor_none (table : StyleTable) (extension : Option Text) :
    table.styleFor extension none =
      ((table.routeOf? extension).bind table.languages.find?).getD .cLike := by
  cases extension <;> rfl

/-- A file is read in the style of the language that is named, if there is one. -/
theorem styleFor_some {language : Text} {style : Style}
    (h : table.languages.find? (normalizeName language) = some style) :
    table.styleFor extension (some language) = style := by
  rw [styleFor, Option.bind_some, h]
  rfl

/-- A single change is applied to its name in the kept form. -/
theorem change_ofList_singleton (table : StyleTable) (name : Text) (change : StyleChange) :
    table.change (.ofList [(name, change)]) = table.changeKept (normalizeName name) change := rfl

/-- A change leaves a file as it is read if its extension is routed to the same language as before,
and this is not the one that the change reaches. -/
theorem styleFor_none_changeKept
    (hsame : (table.changeKept key change).routeOf? extension = table.routeOf? extension)
    (hroute : table.routeOf? extension ≠ some (table.changedLanguage key)) :
    (table.changeKept key change).styleFor extension none = table.styleFor extension none := by
  rw [styleFor_none, styleFor_none, hsame]
  cases hlanguage : table.routeOf? extension with
  | none => rfl
  | some language =>
    have hne : language ≠ table.changedLanguage key := fun heq =>
      hroute (hlanguage.trans (heq ▸ rfl))
    rw [Option.bind_some, Option.bind_some, find?_languages_changeKept_of_ne_changedLanguage hne]

/-- A change leaves a file as it is read in a language that is named and known, if this is not the
one that the change reaches. -/
theorem styleFor_some_changeKept {language : Text}
    (hknown : table.languages.contains (normalizeName language) = true)
    (hne : normalizeName language ≠ table.changedLanguage key) :
    (table.changeKept key change).styleFor extension (some language) =
      table.styleFor extension (some language) := by
  obtain ⟨style, hstyle⟩ := Option.isSome_iff_exists.mp hknown
  rw [styleFor_some hstyle]
  exact styleFor_some ((find?_languages_changeKept_of_ne_changedLanguage hne).trans hstyle)

/-- A change leaves a file with another extension where it is routed. -/
theorem routeOf?_changeKept_of_ne (h : extension.map normalizeName ≠ some key) :
    (table.changeKept key change).routeOf? extension = table.routeOf? extension := by
  cases extension with
  | none => rfl
  | some name =>
    exact find?_extensions_changeKept_of_ne fun heq => h (congrArg some heq)

/-- A change of a language leaves every file where it is routed. -/
theorem routeOf?_changeKept_of_language (h : table.languages.contains key = true) :
    (table.changeKept key change).routeOf? extension = table.routeOf? extension := by
  obtain ⟨style, hstyle⟩ := Option.isSome_iff_exists.mp h
  rw [routeOf?, extensions_changeKept_of_language hstyle, routeOf?]

/-- A single change stays local. In a reachable table every language is known by the kept form of
its name. A change of a name that is no language leaves every file as it is read, unless the
extension of the file has this name or is routed to the own language of this extension; and it
leaves every known language as it is, but this own one. A change of a language leaves every file as
it is read, unless its extension is routed to this language, and every other known language as it
is. -/
theorem single_change_is_local (h : table.IsReachable) (name : Text) (change : StyleChange)
    (path : Path) :
    let key := normalizeName name
    let changed := table.change (.ofList [(name, change)])
    (∀ language, table.languages.contains language = true → normalizeName language = language) ∧
    (table.languages.contains key = false →
      (path.extensionText?.map normalizeName ≠ some key →
        table.routeOf? path.extensionText? ≠ some (ownLanguage key) →
        changed.styleFor path.extensionText? none = table.styleFor path.extensionText? none) ∧
      ∀ language, table.languages.contains (normalizeName language) = true →
        normalizeName language ≠ ownLanguage key →
        changed.styleFor path.extensionText? (some language) =
          table.styleFor path.extensionText? (some language)) ∧
    (table.languages.contains key = true →
      (table.routeOf? path.extensionText? ≠ some key →
        changed.styleFor path.extensionText? none = table.styleFor path.extensionText? none) ∧
      ∀ language, table.languages.contains (normalizeName language) = true →
        normalizeName language ≠ key →
        changed.styleFor path.extensionText? (some language) =
          table.styleFor path.extensionText? (some language)) := by
  intro key changed
  have hchanged : changed = table.changeKept key change := change_ofList_singleton table name change
  rw [hchanged]
  refine ⟨h.keepsNames, fun hkey => ?_, fun hkey => ?_⟩
  · have hreached : table.changedLanguage key = ownLanguage key := if_neg (by simp [hkey])
    refine ⟨fun hextension hroute => ?_, fun language hknown hne => ?_⟩
    · exact styleFor_none_changeKept (routeOf?_changeKept_of_ne hextension) (by rwa [hreached])
    · exact styleFor_some_changeKept hknown (by rwa [hreached])
  · have hreached : table.changedLanguage key = key := if_pos hkey
    refine ⟨fun hroute => ?_, fun language hknown hne => ?_⟩
    · exact styleFor_none_changeKept (routeOf?_changeKept_of_language hkey) (by rwa [hreached])
    · exact styleFor_some_changeKept hknown (by rwa [hreached])

/-- A second change of an extension, to whose own language another one is routed meanwhile. A third
one is still routed to the language that the first shared with it, and it is read as before, and so
is a file in a language that is named. -/
theorem single_change_is_local_sharedLanguage :
    let table := (builtin.change (.ofList [(".ts".toList, { line := some ["%".toList] })])).route
      "jsx".toList "ext:ts".toList
    let changed := table.change (.ofList [("TS".toList, { docLine := some [] })])
    let path : Path := ⟨"a.js".toList⟩
    table.IsReachable ∧
      changed.styleFor path.extensionText? none = table.styleFor path.extensionText? none ∧
      changed.styleFor path.extensionText? (some "Python".toList) =
        table.styleFor path.extensionText? (some "Python".toList) := by
  intro table changed path
  have htable : table.IsReachable := (IsReachable.builtin.change _).route _ _
  have hextension : path.extensionText? = some "js".toList := by decide +kernel
  obtain ⟨-, hother, -⟩ :=
    single_change_is_local htable "TS".toList { docLine := some [] } path
  obtain ⟨hfile, hlanguage⟩ := hother (by decide)
  rw [hextension] at hfile hlanguage ⊢
  exact ⟨htable, hfile (by decide) (by decide), hlanguage _ (by decide) (by decide)⟩

/-- The change of an extension that is no language is applied to the style of the language to which
the extension was routed. If there is no such language, only the parts that the change sets are
there. -/
theorem styleFor_changeKept_self (hkey : table.languages.contains key = false)
    (hextension : extension.map normalizeName = some key) :
    (table.changeKept key change).styleFor extension none =
      ((table.styleOfExtension? key).getD {}).applying change := by
  obtain ⟨name, rfl, rfl⟩ := Option.map_eq_some_iff.mp hextension
  have hnone : table.languages.find? (normalizeName name) = none := by
    simpa [Dictionary.contains] using hkey
  obtain ⟨hroute, hstyle⟩ := changeKept_of_extension change hnone
  rw [styleFor_none, routeOf?, Option.bind_some, hroute, Option.bind_some, hstyle, Option.getD_some]

/-- Before a change, an extension is read in the style of the language to which it is routed, and in
the slash style if there is no such language. -/
theorem styleFor_of_map_eq (hextension : extension.map normalizeName = some key) :
    table.styleFor extension none = (table.styleOfExtension? key).getD .cLike := by
  obtain ⟨name, rfl, rfl⟩ := Option.map_eq_some_iff.mp hextension
  rfl

/-- The slash style has every part, and a style without any part has none of them. -/
theorem part_empty_ne_cLike (p : Part) : ({} : Style).part p ≠ Style.cLike.part p := by
  intro h
  cases p <;> cases h

/-- Take a single change of an extension that is no language, and a file with this extension. A part
that the change sets is as it is set. A part that it does not set is that of the language to which
the extension was routed, or is not there if there is no such language. So it is the part with which
the file was read before exactly when there is such a language. -/
theorem part_styleFor_change_iff (hkey : table.languages.contains (normalizeName name) = false)
    {path : Path} (hextension : path.extensionText?.map normalizeName = some (normalizeName name))
    (change : StyleChange) (p : Part) :
    let before := table.styleFor path.extensionText? none
    let after := (table.change (.ofList [(name, change)])).styleFor path.extensionText? none
    let routed := table.styleOfExtension? (normalizeName name)
    after.part p = (change.part? p).getD ((routed.getD {}).part p) ∧
      (after.part p = (change.part? p).getD (before.part p) ↔
        change.part? p ≠ none ∨ routed ≠ none) := by
  intro before after routed
  have hbefore : before = routed.getD .cLike := styleFor_of_map_eq hextension
  have hafter : after = (routed.getD {}).applying change := by
    rw [← styleFor_changeKept_self hkey hextension, ← change_ofList_singleton]
  rw [hbefore, hafter, Style.part_applying]
  refine ⟨rfl, ?_⟩
  cases hset : change.part? p with
  | some value => simp
  | none =>
    cases hrouted : routed with
    | some style => simp
    | none => simpa using part_empty_ne_cLike p

/-- An extension that is routed to the slash style, with a change of its line marks. -/
theorem part_styleFor_change_iff_inc :
    let table := builtin.route ".Inc".toList "c".toList
    let path : Path := ⟨"a.inc".toList⟩
    let after := (table.change (.ofList [("inc".toList, { line := some ["%".toList] })])).styleFor
      path.extensionText? none
    table.languages.contains (normalizeName "inc".toList) = false ∧
      path.extensionText?.map normalizeName = some (normalizeName "inc".toList) ∧
      after.part .line = ["%".toList] ∧
      after.part .docLine = (table.styleFor path.extensionText? none).part .docLine := by
  intro table path after
  have hkey : table.languages.contains (normalizeName "inc".toList) = false := by decide
  have hextension : path.extensionText?.map normalizeName =
      some (normalizeName "inc".toList) := by decide +kernel
  let change : StyleChange := { line := some ["%".toList] }
  obtain ⟨hline, -⟩ := part_styleFor_change_iff hkey hextension change .line
  obtain ⟨-, hdocLine⟩ := part_styleFor_change_iff hkey hextension change .docLine
  exact ⟨hkey, hextension, hline, hdocLine.mpr (.inr (by decide))⟩

/-- An extension that is routed to a language that is not there is read in the slash style. A change
of its line marks leaves it without the marks for documentation. -/
theorem change_empties_unchanged_part :
    let table := builtin.route "foo".toList "bar".toList
    let changed := table.change (.ofList [("foo".toList, { line := some ["%".toList] })])
    let path : Path := ⟨"a.foo".toList⟩
    table.IsReachable ∧ table.knowsExtension "foo".toList = true ∧
      table.languages.contains (normalizeName "foo".toList) = false ∧
      path.extensionText? = some "foo".toList ∧
      (table.styleFor path.extensionText? none).docLine = ["///".toList] ∧
      (changed.styleFor path.extensionText? none).docLine = [] := by
  intro table changed path
  have hextension : path.extensionText? = some "foo".toList := by decide +kernel
  refine ⟨.route .builtin _ _, by decide, by decide, hextension, ?_, ?_⟩
  · rw [hextension]
    decide
  · rw [hextension]
    decide

end StyleTable

end Comment

end Marginalia
