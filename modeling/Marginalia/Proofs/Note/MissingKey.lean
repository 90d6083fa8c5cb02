import Marginalia.Proofs.Comment.LineNumber
import Marginalia.Proofs.Note.Section

/-!
# Missing keys

A comment that carries the opening tag opens a section, and whether the section makes a note is
settled by the first opening tag of this comment alone. So the comments of a file fail exactly when
one of them has no argument on its first opening tag, and the first of these is the one that is
reported. Otherwise each comment that carries the opening tag has its note, and there are no others.
-/

namespace Marginalia

open Text Comment

namespace Section

variable {initTag : Text} {file : SourceFile} {f : Fragment} {tag : Tag}

/-- Whether a comment lacks a key: it carries the opening tag, and there is no argument on the first
one. -/
def LacksKey (initTag : Text) (f : Fragment) : Prop :=
  ∃ tag ∈ openingTag? initTag f, tag.arguments = []

instance (initTag : Text) : DecidablePred (LacksKey initTag) := fun f =>
  inferInstanceAs (Decidable (∃ tag ∈ openingTag? initTag f, tag.arguments = []))

/-- The first opening tag of a comment that does not lack a key has one. -/
theorem exists_arguments_eq (hopening : openingTag? initTag f = some tag)
    (hkey : ¬ LacksKey initTag f) : ∃ key more, tag.arguments = key :: more := by
  cases harguments : tag.arguments with
  | nil => exact absurd ⟨tag, hopening, harguments⟩ hkey
  | cons key more => exact ⟨key, more, rfl⟩

/-- No comment lacks a key, or one is the first that does. -/
theorem lacksKey_cases (initTag : Text) (fragments : List Fragment) :
    (∀ f ∈ fragments, ¬ LacksKey initTag f) ∨
      ∃ before f behind tag, fragments = before ++ f :: behind ∧
        (∀ g ∈ before, ¬ LacksKey initTag g) ∧ openingTag? initTag f = some tag ∧
        tag.arguments = [] := by
  cases hfirst : fragments.find? fun f => LacksKey initTag f with
  | none => exact .inl (by simpa using hfirst)
  | some f =>
    obtain ⟨hlacks, before, behind, hsplit, hbefore⟩ := List.find?_eq_some_iff_append.mp hfirst
    obtain ⟨tag, hopening, harguments⟩ := of_decide_eq_true hlacks
    exact .inr ⟨before, f, behind, tag, hsplit, by simpa using hbefore, hopening, harguments⟩

/-- A comment that carries no opening tag opens no section. -/
theorem snd_cut_cons_of_not (h : ¬ Opens initTag f) (rest : List Fragment) :
    (cut initTag (f :: rest)).2 = (cut initTag rest).2 := by
  rw [cut, openingTag?_eq_none_iff.mpr h]

/-- A comment that carries the opening tag opens a section in front of those below it. -/
theorem snd_cut_cons_of_openingTag? (h : openingTag? initTag f = some tag) (rest : List Fragment) :
    (cut initTag (f :: rest)).2 = ⟨tag, f :: (cut initTag rest).1⟩ :: (cut initTag rest).2 := by
  rw [cut, h]

/-- Of the comments of a source, an opening tag stands on the line that its number says. -/
theorem exists_line?_of_openingTag? {style : Style} {t : Text} (hf : f ∈ Comment.fragments style t)
    (h : openingTag? initTag f = some tag) :
    ∃ s, line? t tag.line = some s ∧ '@' :: initTag <:+: s := by
  obtain ⟨hmem, hname⟩ := mem_of_openingTag? h
  obtain ⟨i, l, hl, hline, hstands⟩ := Tag.exists_of_mem_readLines hmem
  obtain ⟨-, s, hs, hpiece⟩ := exists_of_getElem?_content hf hl
  rw [hname] at hstands
  exact ⟨s, hline ▸ hs, hstands.trans hpiece⟩

end Section

namespace Note

open Section

variable {initTag : Text} {file : SourceFile} {f : Fragment} {tag : Tag}

/-- Whether a note is that of the comment that opens its section: it has the key of the first
opening tag, the label of this tag or else the key, and the line of the comment. -/
def IsOpenedBy (initTag : Text) (file : SourceFile) (f : Fragment) (n : Note) : Prop :=
  ∃ tag key more, openingTag? initTag f = some tag ∧ tag.arguments = key :: more ∧
    n.label = more.head?.getD key ∧ n.origin = { file with line := f.line, key := key }

/-- A comment that carries no opening tag makes no note of its own, and it does not fail. -/
theorem ofFragments_cons_of_not (h : ¬ Opens initTag f) (rest : List Fragment) :
    ofFragments initTag file (f :: rest) = ofFragments initTag file rest := by
  rw [ofFragments, snd_cut_cons_of_not h, ofFragments]

/-- A comment without a key fails, whatever stands below it. -/
theorem ofFragments_cons_of_nil (hopening : openingTag? initTag f = some tag)
    (harguments : tag.arguments = []) (rest : List Fragment) :
    ofFragments initTag file (f :: rest) = .error (.missingKey initTag file.path tag.line) := by
  rw [ofFragments, snd_cut_cons_of_openingTag? hopening, List.mapM_cons, note, harguments]
  rfl

/-- A comment with a key makes a note in front of those of the comments below it. -/
theorem exists_ofFragments_cons_eq (hopens : Opens initTag f) (hkey : ¬ LacksKey initTag f)
    (rest : List Fragment) :
    ∃ n, IsOpenedBy initTag file f n ∧
      ofFragments initTag file (f :: rest) = (ofFragments initTag file rest).map (n :: ·) := by
  cases hopening : openingTag? initTag f with
  | none => exact absurd hopens (openingTag?_eq_none_iff.mp hopening)
  | some tag =>
    obtain ⟨key, more, harguments⟩ := exists_arguments_eq hopening hkey
    let s : Section := ⟨tag, f :: (cut initTag rest).1⟩
    obtain ⟨n, hn, hnote⟩ : ∃ n, IsOpenedBy initTag file f n ∧ s.note initTag file = .ok n :=
      ⟨_, ⟨tag, key, more, hopening, harguments, rfl, rfl⟩,
        note_eq_ok_iff.mpr ⟨key, more, harguments, rfl⟩⟩
    refine ⟨n, hn, ?_⟩
    rw [ofFragments, snd_cut_cons_of_openingTag? hopening, List.mapM_cons, hnote, ofFragments]
    cases (cut initTag rest).2.mapM (note initTag file) <;> rfl

/-- Comments of which none lacks a key make notes, one for each that carries the opening tag. -/
theorem exists_ofFragments_eq_ok {fragments : List Fragment}
    (h : ∀ f ∈ fragments, ¬ LacksKey initTag f) :
    ∃ notes, ofFragments initTag file fragments = .ok notes ∧
      List.Forall₂ (IsOpenedBy initTag file) (fragments.filter (Opens initTag)) notes := by
  induction fragments with
  | nil => exact ⟨[], rfl, .nil⟩
  | cons f rest ih =>
    obtain ⟨hkey, hrest⟩ := List.forall_mem_cons.mp h
    obtain ⟨notes, hnotes, hopened⟩ := ih hrest
    by_cases hopens : Opens initTag f
    · obtain ⟨n, hn, hcons⟩ := exists_ofFragments_cons_eq hopens hkey rest
      rw [hcons, hnotes, List.filter_cons_of_pos (by simpa using hopens)]
      exact ⟨n :: notes, rfl, .cons hn hopened⟩
    · rw [ofFragments_cons_of_not hopens, List.filter_cons_of_neg (by simpa using hopens)]
      exact ⟨notes, hnotes, hopened⟩

/-- The first comment that lacks a key is the one that fails. -/
theorem ofFragments_append_of_nil {before : List Fragment}
    (hbefore : ∀ g ∈ before, ¬ LacksKey initTag g) (hopening : openingTag? initTag f = some tag)
    (harguments : tag.arguments = []) (behind : List Fragment) :
    ofFragments initTag file (before ++ f :: behind) =
      .error (.missingKey initTag file.path tag.line) := by
  induction before with
  | nil => exact ofFragments_cons_of_nil hopening harguments behind
  | cons g before ih =>
    obtain ⟨hkey, hrest⟩ := List.forall_mem_cons.mp hbefore
    rw [List.cons_append]
    by_cases hopens : Opens initTag g
    · obtain ⟨n, -, hcons⟩ := exists_ofFragments_cons_eq hopens hkey (before ++ f :: behind)
      rw [hcons, ih hrest]
      rfl
    · rw [ofFragments_cons_of_not hopens, ih hrest]

/-- Comments fail exactly at the first one that lacks a key, with the line of its first opening tag.
-/
theorem ofFragments_eq_error_iff {fragments : List Fragment} {e : Failure} :
    ofFragments initTag file fragments = .error e ↔
      ∃ before f behind tag, fragments = before ++ f :: behind ∧
        (∀ g ∈ before, ¬ LacksKey initTag g) ∧ openingTag? initTag f = some tag ∧
        tag.arguments = [] ∧ e = .missingKey initTag file.path tag.line := by
  constructor
  · intro h
    rcases lacksKey_cases initTag fragments with
      hnone | ⟨before, f, behind, tag, rfl, hbefore, hopening, harguments⟩
    · obtain ⟨notes, hnotes, -⟩ := exists_ofFragments_eq_ok hnone
      rw [hnotes] at h
      cases h
    · rw [ofFragments_append_of_nil hbefore hopening harguments] at h
      obtain rfl := Except.error.inj h
      exact ⟨before, f, behind, tag, rfl, hbefore, hopening, harguments, rfl⟩
  · rintro ⟨before, f, behind, tag, rfl, hbefore, hopening, harguments, rfl⟩
    exact ofFragments_append_of_nil hbefore hopening harguments behind

/-- A missing key is reported exactly when and where it occurs: a source fails exactly when one of
its comments lacks a key. The failure names the opening tag, the path of the source and the line of
the first opening tag of the first such comment, and the opening tag stands on this line. If no
comment lacks a key, there is one note for each comment that carries the opening tag, in their
order, with the key and the label of its first opening tag and with the line of the comment. -/
theorem missing_keys_are_reported (initTag : Text) (style : Style) (file : SourceFile) (t : Text) :
    ((∃ e, ofText initTag style file t = .error e) ↔
      ∃ f ∈ fragments style t, LacksKey initTag f) ∧
    (∀ e, ofText initTag style file t = .error e →
      ∃ before f behind tag, fragments style t = before ++ f :: behind ∧
        (∀ g ∈ before, ¬ LacksKey initTag g) ∧ openingTag? initTag f = some tag ∧
        tag.arguments = [] ∧ e = .missingKey initTag file.path tag.line ∧
        ∃ s, line? t tag.line = some s ∧ '@' :: initTag <:+: s) ∧
    ((∀ f ∈ fragments style t, ¬ LacksKey initTag f) →
      ∃ notes, ofText initTag style file t = .ok notes ∧
        List.Forall₂ (IsOpenedBy initTag file) ((fragments style t).filter (Opens initTag)) notes) := by
  refine ⟨⟨?_, ?_⟩, ?_, exists_ofFragments_eq_ok⟩
  · rintro ⟨e, he⟩
    obtain ⟨before, f, behind, tag, hsplit, -, hopening, harguments, -⟩ :=
      ofFragments_eq_error_iff.mp he
    exact ⟨f, by simp [hsplit], tag, hopening, harguments⟩
  · rintro ⟨f, hf, hlacks⟩
    rcases lacksKey_cases initTag (fragments style t) with
      hnone | ⟨before, g, behind, tag, hsplit, hbefore, hopening, harguments⟩
    · exact absurd hlacks (hnone f hf)
    · exact ⟨_, ofFragments_eq_error_iff.mpr
        ⟨before, g, behind, tag, hsplit, hbefore, hopening, harguments, rfl⟩⟩
  · intro e he
    obtain ⟨before, f, behind, tag, hsplit, hbefore, hopening, harguments, heq⟩ :=
      ofFragments_eq_error_iff.mp he
    have hf : f ∈ fragments style t := by simp [hsplit]
    exact ⟨before, f, behind, tag, hsplit, hbefore, hopening, harguments, heq,
      exists_line?_of_openingTag? hf hopening⟩

/-- Of three comments, the second and the third lack a key, and the failure has the line of the tag
in the second. Where a second opening tag in one comment has no key, there is no failure, and the
two comments have their notes. -/
theorem missing_keys_are_reported_second :
    let file : SourceFile := ⟨['p'], ['f'], ['e'], ['l']⟩
    let failing := "// @doc a A b\n/* x\n@t\n@doc\n*/\n// @doc".toList
    let working := "// @doc a A  b\n\n/** @t x\n@doc k\n@doc */\n// y".toList
    ofText "doc".toList .cLike file failing = .error (.missingKey "doc".toList ['p'] 4) ∧
      (∃ f ∈ fragments .cLike failing, LacksKey "doc".toList f) ∧
      (∃ s, line? failing 4 = some s ∧ '@' :: "doc".toList <:+: s) ∧
      ((fragments .cLike working).filter (Opens "doc".toList)).map Fragment.line = [1, 3] ∧
      ∃ notes, ofText "doc".toList .cLike file working = .ok notes ∧
        List.Forall₂ (IsOpenedBy "doc".toList file)
          ((fragments .cLike working).filter (Opens "doc".toList)) notes := by
  intro file failing working
  obtain ⟨hfails, herror, -⟩ := missing_keys_are_reported "doc".toList .cLike file failing
  obtain ⟨-, -, hnotes⟩ := missing_keys_are_reported "doc".toList .cLike file working
  have hresult : ofText "doc".toList .cLike file failing =
      .error (.missingKey "doc".toList ['p'] 4) := by decide
  obtain ⟨before, f, behind, tag, -, -, -, -, hfailure, hline⟩ := herror _ hresult
  obtain ⟨-, -, hnumber⟩ := Failure.missingKey.inj hfailure
  refine ⟨hresult, hfails.mp ⟨_, hresult⟩, ?_, by decide, hnotes (by decide)⟩
  rwa [← hnumber] at hline

end Note

end Marginalia
