import Marginalia.Proofs.Text.Blank
import Marginalia.Proofs.Text.Lines

/-!
# Where a piece occurs first

A text is cut at the first occurrence of a piece. A piece that does not start with a blank does not
occur in blanks, and a piece without blanks that does not occur in a text occurs behind it only
where it stands, when a blank is between. A piece without line feeds occurs in joined lines exactly
where it occurs in one of them, so it is found first on the first line that holds it.
-/

namespace Marginalia.Text

/-- Whether one of two texts starts with the other. Two texts of which none does are told apart by
their starts, whatever follows. -/
def Touches (a b : Text) : Prop :=
  a <+: b ∨ b <+: a

instance (a b : Text) : Decidable (Touches a b) :=
  inferInstanceAs (Decidable (_ ∨ _))

/-- Behind its own start stands the rest of a text. -/
theorem after?_append (front rest : Text) : after? front (front ++ rest) = some rest :=
  after?_eq_some_iff.mpr rfl

/-- What is found at the start of a text touches every start of the text. -/
theorem touches_of_after? {piece front rest behind : Text}
    (h : after? piece (front ++ rest) = some behind) : Touches piece front :=
  List.prefix_or_prefix_of_prefix ⟨behind, (after?_eq_some_iff.mp h).symm⟩ (List.prefix_append _ _)

/-- What does not touch the start of a text is not found there. -/
theorem after?_append_eq_none {piece front : Text} (h : ¬ Touches piece front) (rest : Text) :
    after? piece (front ++ rest) = none := by
  cases hafter : after? piece (front ++ rest) with
  | none => rfl
  | some behind => exact absurd (touches_of_after? hafter) h

/-- A piece at the start of a text occurs there first. -/
theorem cut?_append (piece : Text) (rest : Text) (hpiece : piece ≠ []) :
    cut? piece (piece ++ rest) = some ([], rest) := by
  obtain ⟨c, more, rfl⟩ := List.exists_cons_of_ne_nil hpiece
  have hafter := after?_append (c :: more) rest
  rw [List.cons_append] at hafter ⊢
  rw [cut?, hafter]

/-- A piece that does not stand at the start of a text occurs behind the first character. -/
theorem cut?_cons {piece : Text} {c : Char} {t : Text} (h : after? piece (c :: t) = none) :
    cut? piece (c :: t) = (cut? piece t).map fun found => (c :: found.1, found.2) := by
  rw [cut?, h]

/-- A piece that does not start with a blank does not occur in blanks in front of a text. -/
theorem cut?_blanks_append {piece : Text} (hpiece : piece ≠ [])
    (hhead : ∀ c ∈ piece.head?, isBlank c = false) {blanks : Text}
    (hblanks : ∀ c ∈ blanks, isBlank c = true) (t : Text) :
    cut? piece (blanks ++ t) =
      (cut? piece t).map fun found => (blanks ++ found.1, found.2) := by
  induction blanks with
  | nil => simp
  | cons b blanks ih =>
    obtain ⟨hb, hrest⟩ := List.forall_mem_cons.mp hblanks
    obtain ⟨c, more, rfl⟩ := List.exists_cons_of_ne_nil hpiece
    have hne : c ≠ b := by
      rintro rfl
      rw [hhead c rfl] at hb
      cases hb
    rw [List.cons_append, cut?_cons (by rw [after?, if_neg hne]), ih hrest, Option.map_map]
    rfl

/-- A piece without blanks that does not occur in a text occurs first where it stands behind the
text and a space. -/
theorem cut?_append_space {piece : Text} (hpiece : piece ≠ [])
    (hblank : ∀ c ∈ piece, isBlank c = false) {t : Text} (ht : ¬ piece <:+: t) :
    cut? piece (t ++ ' ' :: piece) = some (t ++ [' '], []) := by
  have hspace : ' ' ∉ piece := fun hmem => by
    have := hblank _ hmem
    cases this
  induction t with
  | nil =>
    have hself := cut?_append piece [] hpiece
    rw [List.append_nil] at hself
    have hnone : after? piece (' ' :: piece) = none := by
      obtain ⟨c, more, rfl⟩ := List.exists_cons_of_ne_nil hpiece
      have hne : c ≠ ' ' := fun heq => hspace (heq ▸ List.mem_cons_self)
      rw [after?, if_neg hne]
    rw [List.nil_append, cut?_cons hnone, hself]
    rfl
  | cons c t ih =>
    rw [List.infix_cons_iff, not_or] at ht
    have hnot : ¬ Touches piece (c :: t ++ [' ']) := by
      rintro (hpre | hpre)
      · rcases List.prefix_concat_iff.mp hpre with rfl | hpre
        · exact hspace (by simp)
        · exact ht.1 hpre
      · exact hspace (hpre.subset (by simp))
    have hnone := after?_append_eq_none hnot piece
    rw [List.append_assoc, List.singleton_append] at hnone
    rw [List.cons_append] at hnone ⊢
    rw [cut?_cons hnone, ih ht.2]
    rfl

section

variable {piece t u l before : Text}

/-- A text is not cut exactly when the piece does not occur in it. -/
theorem cut?_eq_none_iff : cut? piece t = none ↔ ¬ piece <:+: t := by
  constructor
  · rintro h ⟨front, behind, rfl⟩
    induction front with
    | nil =>
      cases piece with
      | nil => cases behind <;> simp [cut?, after?] at h
      | cons c piece =>
        rw [List.nil_append, cut?_append _ _ (List.cons_ne_nil c piece)] at h
        cases h
    | cons c front ih =>
      rw [List.cons_append, List.cons_append, cut?] at h
      split at h
      · cases h
      · exact ih (Option.map_eq_none_iff.mp h)
  · intro h
    cases hcut : cut? piece t with
    | none => rfl
    | some found =>
      obtain ⟨front, behind⟩ := found
      exact absurd ⟨front, behind, (eq_of_cut?_eq_some hcut).symm⟩ h

/-- Whether a text is what stands before the first occurrence of a piece in another. -/
structure IsBeforeFirst (piece t before : Text) : Prop where
  occurs : before ++ piece <+: t
  first : ∀ front, front ++ piece <+: t → before.length ≤ front.length

/-- A text is cut at the first occurrence of the piece. -/
theorem isBeforeFirst_of_cut? {behind : Text} (h : cut? piece t = some (before, behind)) :
    IsBeforeFirst piece t before := by
  refine ⟨⟨behind, (eq_of_cut?_eq_some h).symm⟩, ?_⟩
  induction t generalizing before with
  | nil =>
    have hlength := congrArg List.length (eq_of_cut?_eq_some h)
    simp only [List.length_nil, List.length_append] at hlength
    omega
  | cons c t ih =>
    intro front hfront
    cases hafter : after? piece (c :: t) with
    | some rest =>
      rw [cut?, hafter] at h
      obtain ⟨rfl, -⟩ : [] = before ∧ rest = behind := by simpa using h
      exact Nat.zero_le _
    | none =>
      rw [cut?_cons hafter] at h
      obtain ⟨⟨b, r⟩, hcut, hb⟩ := Option.map_eq_some_iff.mp h
      obtain ⟨rfl, rfl⟩ : c :: b = before ∧ r = behind := by simpa using hb
      cases front with
      | nil =>
        obtain ⟨rest, hrest⟩ := hfront
        rw [List.nil_append] at hrest
        rw [after?_eq_some_iff.mpr hrest.symm] at hafter
        cases hafter
      | cons d front =>
        have htail := (List.cons_prefix_cons.mp hfront).2
        exact Nat.succ_le_succ (ih hcut front htail)

/-- What is before the first occurrence of a piece does not hold the piece. -/
theorem IsBeforeFirst.not_isInfix (h : IsBeforeFirst piece t before) (hpiece : piece ≠ []) :
    ¬ piece <:+: before := by
  rintro ⟨front, behind, rfl⟩
  have hfront : front ++ piece <+: t :=
    ((List.prefix_append _ behind).trans (List.prefix_append _ piece)).trans h.occurs
  have hle := h.first front hfront
  have hpos : 0 < piece.length := List.length_pos_iff.mpr hpiece
  simp only [List.length_append] at hle
  omega

/-- A first occurrence stays the first when text is added behind. -/
theorem IsBeforeFirst.append (h : IsBeforeFirst piece t before) (u : Text) :
    IsBeforeFirst piece (t ++ u) before := by
  refine ⟨h.occurs.trans (List.prefix_append t u), fun front hfront => ?_⟩
  by_contra hlt
  have hle : (front ++ piece).length ≤ t.length := by
    have hlength := h.occurs.length_le
    rw [List.length_append] at hlength ⊢
    omega
  exact hlt (h.first front (List.prefix_of_prefix_length_le hfront (List.prefix_append t u) hle))

/-- A piece without line feeds that stands in a line and what is below it stands in the line or
below. -/
theorem prefix_append_newline_cases {front : Text} (hpiece : '\n' ∉ piece)
    (h : front ++ piece <+: l ++ '\n' :: u) :
    (∃ more, l = front ++ more ∧ piece <+: more) ∨
      ∃ more, front = l ++ '\n' :: more ∧ more ++ piece <+: u := by
  obtain ⟨behind, hbehind⟩ := h
  rw [List.append_assoc] at hbehind
  rcases List.append_eq_append_iff.mp hbehind with ⟨more, hl, hmore⟩ | ⟨more, hfront, hmore⟩
  · refine .inl ⟨more, hl, ?_⟩
    rcases List.append_eq_append_iff.mp hmore with ⟨rest, hrest, -⟩ | ⟨rest, hrest, hnewline⟩
    · exact ⟨rest, hrest.symm⟩
    · cases rest with
      | nil => exact ⟨[], by rw [hrest, List.append_nil, List.append_nil]⟩
      | cons c rest =>
        obtain rfl : '\n' = c := (List.cons.inj hnewline).1
        exact absurd (by simp [hrest]) hpiece
  · cases more with
    | nil =>
      rw [List.nil_append] at hmore
      cases piece with
      | nil => exact .inl ⟨[], by rw [hfront, List.append_nil, List.append_nil], List.nil_prefix⟩
      | cons c piece =>
        obtain rfl : '\n' = c := (List.cons.inj hmore).1
        exact absurd List.mem_cons_self hpiece
    | cons c more =>
      obtain ⟨rfl, hu⟩ := List.cons.inj hmore
      refine .inr ⟨more, hfront, behind, ?_⟩
      rw [hu, List.append_assoc]
      rfl

/-- A piece without line feeds that occurs in a line and what is below it occurs in one of both. -/
theorem isInfix_append_newline (hpiece : '\n' ∉ piece) (h : piece <:+: l ++ '\n' :: u) :
    piece <:+: l ∨ piece <:+: u := by
  obtain ⟨front, behind, hbehind⟩ := h
  rcases prefix_append_newline_cases hpiece ⟨behind, hbehind⟩ with
    ⟨more, rfl, hmore⟩ | ⟨more, -, hmore⟩
  · exact .inl (hmore.isInfix.trans (List.suffix_append front more).isInfix)
  · exact .inr ((List.suffix_append more piece).isInfix.trans hmore.isInfix)

/-- A piece without line feeds that does not occur in a line occurs first where it does below. -/
theorem IsBeforeFirst.below (h : IsBeforeFirst piece u before) (hpiece : '\n' ∉ piece)
    (hl : ¬ piece <:+: l) : IsBeforeFirst piece (l ++ '\n' :: u) (l ++ '\n' :: before) := by
  refine ⟨?_, fun front hfront => ?_⟩
  · obtain ⟨rest, rfl⟩ := h.occurs
    exact ⟨rest, by simp⟩
  · rcases prefix_append_newline_cases hpiece hfront with ⟨more, rfl, hmore⟩ | ⟨more, rfl, hmore⟩
    · exact absurd (hmore.isInfix.trans (List.suffix_append front more).isInfix) hl
    · have hle := h.first more hmore
      simp only [List.length_append, List.length_cons]
      omega

/-- A piece without line feeds occurs in joined lines exactly when it occurs in one of them. -/
theorem isInfix_unlines_iff (hpiece : '\n' ∉ piece) {ls : List Text} (hne : ls ≠ []) :
    piece <:+: unlines ls ↔ ∃ l ∈ ls, piece <:+: l := by
  induction ls with
  | nil => exact absurd rfl hne
  | cons l ls ih =>
    by_cases hls : ls = []
    · simp [hls]
    · simp only [unlines_cons hls, List.mem_cons, or_and_right, exists_or, exists_eq_left, ← ih hls]
      refine ⟨isInfix_append_newline hpiece, ?_⟩
      rintro (hl | hbelow)
      · exact hl.trans (List.prefix_append _ _).isInfix
      · exact hbelow.trans ⟨l ++ ['\n'], [], by simp⟩

end

end Marginalia.Text
