import Marginalia.Proofs.Template.Argument
import Marginalia.Proofs.Template.TopLevel

/-!
# Cutting at commas

The arguments of a call are cut at the commas of the top level. Lexeme by lexeme or character by
character, the cut is the same, loses nothing and is made at those commas alone; behind a quote that
never closes there are none. Of the texts between them only a blank last one is no argument.
-/

namespace Marginalia.Template

open Text

/-- Texts with commas between. -/
def joinAtCommas (ps : List Text) : Text :=
  List.intercalate [','] ps

@[simp] theorem joinAtCommas_singleton (p : Text) : joinAtCommas [p] = p := by
  simp [joinAtCommas]

/-- The first of several texts is followed by a comma and the others. -/
theorem joinAtCommas_cons {ps : List Text} (hps : ps ≠ []) (p : Text) :
    joinAtCommas (p :: ps) = p ++ ',' :: joinAtCommas ps := by
  simp [joinAtCommas, List.intercalate_cons_of_ne_nil hps]

/-- A character in front of the first text stands in front of the joined texts. -/
theorem joinAtCommas_modifyHead {ps : List Text} (hps : ps ≠ []) (c : Char) :
    joinAtCommas (ps.modifyHead (c :: ·)) = c :: joinAtCommas ps := by
  obtain ⟨p, rest, rfl⟩ := List.exists_cons_of_ne_nil hps
  exact List.intercalate_cons_cons_left

/-- Whether texts, joined by commas, are cut between a front and a rest: some of them make up the
front and the others the rest. -/
def IsCutBetween (ps : List Text) (front rest : Text) : Prop :=
  ∃ before behind, before ≠ [] ∧ behind ≠ [] ∧ ps = before ++ behind ∧
    joinAtCommas before = front ∧ joinAtCommas behind = rest

/-- Behind an empty first text there is a cut. -/
theorem isCutBetween_nil_cons {ps : List Text} (hps : ps ≠ []) :
    IsCutBetween ([] :: ps) [] (joinAtCommas ps) :=
  ⟨[[]], ps, List.cons_ne_nil _ _, hps, rfl, rfl, rfl⟩

/-- An empty first text stands in front of the same cuts. -/
theorem isCutBetween_nil_cons_comma {ps : List Text} {front rest : Text} :
    IsCutBetween ([] :: ps) (',' :: front) rest ↔ IsCutBetween ps front rest := by
  constructor
  · intro h
    obtain ⟨before, behind, hbefore, hbehind, hps, hfront, hrest⟩ := h
    obtain ⟨p, before, rfl⟩ := List.exists_cons_of_ne_nil hbefore
    obtain ⟨rfl, hmore⟩ := List.cons.inj hps
    have hne : before ≠ [] := by
      intro hnil
      rw [hnil, joinAtCommas_singleton] at hfront
      cases hfront
    rw [joinAtCommas_cons hne] at hfront
    exact ⟨before, behind, hne, hbehind, hmore, (List.cons.inj hfront).2, hrest⟩
  · intro h
    obtain ⟨before, behind, hbefore, hbehind, rfl, rfl, hrest⟩ := h
    exact ⟨[] :: before, behind, List.cons_ne_nil _ _, hbehind, rfl,
      joinAtCommas_cons hbefore [], hrest⟩

/-- A character in front of the first text stands in front of the same cuts. -/
theorem isCutBetween_modifyHead {ps : List Text} {c : Char} {front rest : Text} :
    IsCutBetween (ps.modifyHead (c :: ·)) (c :: front) rest ↔ IsCutBetween ps front rest := by
  constructor
  · intro h
    obtain ⟨before, behind, hbefore, hbehind, hps, hfront, hrest⟩ := h
    cases ps with
    | nil => exact absurd hps.symm (by simp [hbefore])
    | cons p ps =>
      obtain ⟨q, before, rfl⟩ := List.exists_cons_of_ne_nil hbefore
      obtain ⟨rfl, rfl⟩ := List.cons.inj hps
      have hsame := joinAtCommas_modifyHead (List.cons_ne_nil p before) c
      refine ⟨p :: before, behind, List.cons_ne_nil _ _, hbehind, rfl, ?_, hrest⟩
      exact (List.cons.inj (hsame.symm.trans hfront)).2
  · intro h
    obtain ⟨before, behind, hbefore, hbehind, rfl, rfl, hrest⟩ := h
    obtain ⟨p, before, rfl⟩ := List.exists_cons_of_ne_nil hbefore
    exact ⟨(c :: p) :: before, behind, List.cons_ne_nil _ _, hbehind, rfl,
      joinAtCommas_modifyHead (List.cons_ne_nil p before) c, hrest⟩

/-- There is no cut before a character in front of the first text. -/
theorem not_isCutBetween_modifyHead_nil {ps : List Text} {c : Char} {rest : Text} :
    ¬ IsCutBetween (ps.modifyHead (c :: ·)) [] rest := by
  intro h
  obtain ⟨before, behind, hbefore, -, hps, hfront, -⟩ := h
  obtain ⟨q, before, rfl⟩ := List.exists_cons_of_ne_nil hbefore
  cases ps with
  | nil => cases hps
  | cons p ps =>
    obtain ⟨rfl, -⟩ := List.cons.inj hps
    rw [← List.modifyHead_cons (f := (c :: ·)), joinAtCommas_modifyHead (by simp)] at hfront
    cases hfront

namespace Standing

/-- The texts between the commas that stand outside quotes and parentheses, for a text whose first
character stands somewhere. -/
def cut : Standing → Text → List Text
  | _, [] => [[]]
  | s, c :: rest =>
    if c = ',' ∧ s = outside 0 then [] :: cut s rest
    else (cut (s.next c) rest).modifyHead (c :: ·)

@[simp] theorem cut_nil (s : Standing) : s.cut [] = [[]] := rfl

/-- A comma outside quotes and parentheses ends the first text. -/
theorem cut_comma (t : Text) : (outside 0).cut (',' :: t) = [] :: (outside 0).cut t :=
  if_pos ⟨rfl, rfl⟩

/-- Any other character belongs to the first text. -/
theorem cut_cons {s : Standing} {c : Char} (h : ¬ (c = ',' ∧ s = outside 0)) (t : Text) :
    s.cut (c :: t) = ((s.next c).cut t).modifyHead (c :: ·) :=
  if_neg h

/-- There is at least one text. -/
theorem cut_ne_nil (s : Standing) (t : Text) : s.cut t ≠ [] := by
  induction t generalizing s with
  | nil => exact List.cons_ne_nil _ _
  | cons c t ih =>
    rw [cut]
    split
    · exact List.cons_ne_nil _ _
    · rw [ne_eq, List.modifyHead_eq_nil_iff]
      exact ih _

/-- Joining the texts between the commas gives the text back. -/
theorem joinAtCommas_cut (s : Standing) (t : Text) : joinAtCommas (s.cut t) = t := by
  induction t generalizing s with
  | nil => rfl
  | cons c t ih =>
    rw [cut]
    split
    · rename_i h
      rw [joinAtCommas_cons (cut_ne_nil s t), ih, h.1]
      rfl
    · rw [joinAtCommas_modifyHead (cut_ne_nil _ t), ih]

/-- A text is cut at a comma exactly when the comma stands outside quotes and parentheses. -/
theorem isCutBetween_cut_iff {s : Standing} {front rest : Text} :
    IsCutBetween (s.cut (front ++ ',' :: rest)) front rest ↔ s.after front = outside 0 := by
  induction front generalizing s with
  | nil =>
    by_cases hs : s = outside 0
    · rw [hs]
      refine iff_of_true ?_ rfl
      have hcut := isCutBetween_nil_cons (cut_ne_nil (outside 0) rest)
      rw [joinAtCommas_cut] at hcut
      exact cut_comma rest ▸ hcut
    · refine iff_of_false ?_ hs
      rw [List.nil_append, cut_cons fun h => hs h.2]
      exact not_isCutBetween_modifyHead_nil
  | cons c front ih =>
    rw [List.cons_append, after_cons, ← ih]
    by_cases h : c = ',' ∧ s = outside 0
    · obtain ⟨rfl, rfl⟩ := h
      rw [cut_comma]
      exact isCutBetween_nil_cons_comma
    · rw [cut_cons h]
      exact isCutBetween_modifyHead

/-- A front without commas outside quotes and parentheses belongs to the first text. -/
theorem cut_append {s : Standing} {front : Text}
    (hfront : ∀ before behind, front = before ++ ',' :: behind → s.after before ≠ outside 0)
    (t : Text) :
    s.cut (front ++ t) = ((s.after front).cut t).modifyHead (front ++ ·) := by
  induction front generalizing s with
  | nil =>
    change s.cut t = (s.cut t).modifyHead id
    rw [List.modifyHead_id]
    rfl
  | cons c front ih =>
    have hc : ¬ (c = ',' ∧ s = outside 0) := by
      intro h
      exact hfront [] front (by rw [h.1]; rfl) h.2
    have hrest : ∀ before behind, front = before ++ ',' :: behind →
        (s.next c).after before ≠ outside 0 := fun before behind h =>
      hfront (c :: before) behind (by rw [h]; rfl)
    rw [List.cons_append, cut_cons hc, ih hrest, List.modifyHead_modifyHead]
    rfl

/-- In quotes a text is cut behind the quoted string only, if that is closed. -/
theorem cut_quoted {quote : Char} (hquote : quote ≠ '\\') (depth : Int) {t : Text}
    (ht : NoEscapedNewline t) :
    (quoted quote depth).cut t =
      match takeQuoted quote t with
      | none => [t]
      | some (string, behind) => ((outside depth).cut behind).modifyHead (string ++ ·) := by
  have hcons (c : Char) (u : Text) : (quoted quote depth).cut (c :: u) =
      ((next (quoted quote depth) c).cut u).modifyHead (c :: ·) :=
    cut_cons (fun h => by cases h.2) u
  fun_induction takeQuoted quote t with
  | case1 => rfl
  | case2 rest => exact absurd ⟨[], rest, rfl⟩ ht
  | case3 c rest hc ih =>
    have hescape : next (quoted quote depth) '\\' = escaped quote depth := by
      rw [next, if_neg (Ne.symm hquote), if_pos rfl]
    rw [hcons, hescape, cut_cons (fun h => by cases h.2), next, ih ht.of_cons.of_cons,
      List.modifyHead_modifyHead]
    cases takeQuoted quote rest with
    | none => rfl
    | some found =>
      simp only [Option.map_some, List.modifyHead_modifyHead]
      rfl
  | case4 c rest =>
    rw [hcons, next, if_pos rfl]
    rfl
  | case5 rest hshort =>
    cases rest with
    | nil => rw [hcons]; rfl
    | cons c rest => exact absurd rfl (hshort c rest rfl)
  | case6 c rest hshort hcq hc ih =>
    rw [hcons, next, if_neg hcq, if_neg hc, ih ht.of_cons]
    cases takeQuoted quote rest with
    | none => rfl
    | some found =>
      simp only [Option.map_some, List.modifyHead_modifyHead]
      rfl

end Standing

/-- Where no lexeme is read, all of a text is left over as one piece. -/
theorem cutFrom_of_next?_eq_none {t : Text} (h : next? t = none) (depth : Int) :
    cutFrom depth t = [t] := by
  have hlexemes : lexemes t = ([], t) := by
    rw [lexemes]
    split
    · rename_i h'
      rw [h] at h'
      cases h'
    · rfl
  rw [cutFrom, hlexemes]
  rfl

/-- A comma in parentheses belongs to the first text. -/
theorem cutFrom_comma_of_ne {depth : Int} (hdepth : depth ≠ 0) (t : Text) :
    cutFrom depth (',' :: t) = (cutFrom depth t).modifyHead (',' :: ·) := by
  have hnext : next? (',' :: t) = some (.comma, t) := rfl
  have hturn : Lexeme.comma.turn = 0 := rfl
  rw [cutFrom_of_next? hnext, if_neg fun h => hdepth h.2, hturn, Int.add_zero]
  rfl

/-- An opening parenthesis leads one level deeper. -/
theorem cutFrom_openParen (depth : Int) (t : Text) :
    cutFrom depth ('(' :: t) = (cutFrom (depth + 1) t).modifyHead ('(' :: ·) := by
  have hnext : next? ('(' :: t) = some (.openParen, t) := rfl
  rw [cutFrom_of_next? hnext, if_neg (by simp)]
  rfl

/-- A closing parenthesis leads one level up. -/
theorem cutFrom_closeParen (depth : Int) (t : Text) :
    cutFrom depth (')' :: t) = (cutFrom (depth - 1) t).modifyHead (')' :: ·) := by
  have hnext : next? (')' :: t) = some (.closeParen, t) := rfl
  rw [cutFrom_of_next? hnext, if_neg (by simp)]
  rfl

/-- A closing brace belongs to the first text. -/
theorem cutFrom_brace (depth : Int) {t : Text} (ht : t.head? ≠ some '\x7d') :
    cutFrom depth ('\x7d' :: t) = (cutFrom depth t).modifyHead ('\x7d' :: ·) := by
  have hnext : next? ('\x7d' :: t) = some (.brace, t) :=
    next?.eq_3 t fun rest h => ht (by rw [h]; rfl)
  exact cutFrom_of_turn_eq_zero hnext (by simp) rfl depth

/-- Two closing braces belong to the first text. -/
theorem cutFrom_closingBraces (depth : Int) (t : Text) :
    cutFrom depth ('\x7d' :: '\x7d' :: t) =
      (cutFrom depth t).modifyHead (closingBraces ++ ·) := by
  have hnext : next? ('\x7d' :: '\x7d' :: t) = some (.close, t) := rfl
  exact cutFrom_of_turn_eq_zero hnext (by simp) rfl depth

/-- Nothing is cut behind a quote that never closes. -/
theorem cutFrom_of_takeQuoted_eq_none {quote : Char} (hquote : quote = '"' ∨ quote = '\'')
    {t : Text} (h : takeQuoted quote t = none) (depth : Int) :
    cutFrom depth (quote :: t) = [quote :: t] := by
  have hnext := next?_of_quote hquote t
  rw [h] at hnext
  exact cutFrom_of_next?_eq_none hnext depth

/-- Outside quotes, a text is cut by characters as it is cut by lexemes. -/
theorem cut_outside (depth : Int) {t : Text} (ht : NoEscapedNewline t) :
    (Standing.outside depth).cut t = cutFrom depth t := by
  induction depth, t using inside_induction with
  | nil depth => simp
  | plain depth c t hc ih =>
    have hne : c ≠ ',' := by
      intro heq
      rw [heq] at hc
      cases hc
    rw [cutFrom_of_isPlain hc, ← ih ht.of_cons, Standing.cut_cons fun h => hne h.1,
      Standing.next_outside_of_isPlain hc]
  | openParen depth t ih =>
    rw [cutFrom_openParen, ← ih ht.of_cons]
    exact Standing.cut_cons (by simp) t
  | closeParen depth t ih =>
    rw [cutFrom_closeParen, ← ih ht.of_cons]
    exact Standing.cut_cons (by simp) t
  | comma depth t ih =>
    by_cases hdepth : depth = 0
    · rw [hdepth, cutFrom_comma, Standing.cut_comma, ← hdepth, ih ht.of_cons]
    · rw [cutFrom_comma_of_ne hdepth, ← ih ht.of_cons]
      exact Standing.cut_cons (by simp [hdepth]) t
  | brace depth t ih =>
    have hbrace (u : Text) : (Standing.outside depth).cut ('\x7d' :: u) =
        ((Standing.outside depth).cut u).modifyHead ('\x7d' :: ·) :=
      Standing.cut_cons (by simp) u
    by_cases hhead : t.head? = some '\x7d'
    · obtain ⟨u, rfl⟩ := List.head?_eq_some_iff.mp hhead
      rw [cutFrom_closingBraces, hbrace, hbrace, ih u (List.suffix_cons _ u) ht.of_cons.of_cons,
        List.modifyHead_modifyHead]
      rfl
    · rw [cutFrom_brace depth hhead, hbrace, ih t (List.suffix_refl t) ht.of_cons]
  | quote depth c t hc ih =>
    have hne : c ≠ ',' ∧ c ≠ '\\' := by
      rcases hc with rfl | rfl <;> decide
    rw [Standing.cut_cons (fun h => hne.1 h.1), Standing.next_outside_of_quote hc,
      Standing.cut_quoted hne.2 depth ht.of_cons]
    cases hstring : takeQuoted c t with
    | none => exact (cutFrom_of_takeQuoted_eq_none hc hstring depth).symm
    | some found =>
      have hbehind : found.2 <:+ t := ⟨found.1, append_of_takeQuoted hstring⟩
      rw [cutFrom_of_takeQuoted hc hstring,
        ← ih found.2 hbehind (ht.of_cons.of_isInfix hbehind.isInfix), List.modifyHead_modifyHead]
      rfl

/-- A text whose first character stands outside quotes is cut into arguments at the commas of the
top level, and the arguments are the texts between, without the blanks around them. -/
theorem splitArguments_eq {t : Text} (ht : NoEscapedNewline t) :
    splitArguments t = dropBlankLast (((Standing.outside 0).cut t).map trim) := by
  rw [cut_outside 0 ht]
  rfl

/-- Of texts without the blanks around them only the last one is left out, if it is blank. -/
theorem dropBlankLast_map_trim (others : List Text) (last : Text) :
    dropBlankLast ((others ++ [last]).map trim) =
      others.map trim ++ if last.all isBlank then [] else [trim last] := by
  rw [dropBlankLast, List.map_append, List.map_singleton, List.getLast?_concat, List.dropLast_concat]
  by_cases hlast : trim last = []
  · rw [if_pos (by rw [hlast]), if_pos (List.all_eq_true.mpr (trim_eq_nil_iff.mp hlast)),
      List.append_nil]
  · have hall : ¬ last.all isBlank = true := fun h =>
      hlast (trim_eq_nil_iff.mpr (List.all_eq_true.mp h))
    rw [if_neg (by simpa using hlast), if_neg hall]

/-- An argument with the blanks that stand around it in a list: not empty, without blanks at its own
ends, with every quote closed, as many opening as closing parentheses, and no comma at the top
level. -/
structure ListedArgument where
  before : Text
  text : Text
  behind : Text
  isBlank_before : ∀ c ∈ before, isBlank c = true
  isBlank_behind : ∀ c ∈ behind, isBlank c = true
  ne_nil : text ≠ []
  isTrimmed : IsTrimmed text
  endsAtTop : Standing.EndsAtTop text
  no_comma : ∀ front rest, text = front ++ ',' :: rest → ¬ Standing.EndsAtTop front

/-- An argument with its blanks as it is written. -/
def ListedArgument.source (a : ListedArgument) : Text :=
  a.before ++ (a.text ++ a.behind)

/-- Blanks are plain. -/
theorem isPlain_of_isBlank {c : Char} (h : isBlank c = true) : isPlain c = true := by
  rcases isPlain_or c with hc | rfl | rfl | rfl | rfl | rfl | rfl
  · exact hc
  all_goals cases h

/-- Behind blanks that stand outside quotes, characters stand where they do before them. -/
theorem after_of_isBlank {front : Text} (hfront : ∀ c ∈ front, isBlank c = true) (depth : Int) :
    (Standing.outside depth).after front = .outside depth := by
  induction front with
  | nil => rfl
  | cons c front ih =>
    obtain ⟨hc, hrest⟩ := List.forall_mem_cons.mp hfront
    rw [Standing.after_cons, Standing.next_outside_of_isPlain (isPlain_of_isBlank hc), ih hrest]

/-- Blanks in front of a text belong to its first piece. -/
theorem cut_append_of_isBlank {front : Text} (hfront : ∀ c ∈ front, isBlank c = true) (t : Text) :
    (Standing.outside 0).cut (front ++ t) =
      ((Standing.outside 0).cut t).modifyHead (front ++ ·) := by
  have hnone : ∀ before behind, front = before ++ ',' :: behind →
      (Standing.outside 0).after before ≠ .outside 0 := by
    intro before behind h
    have hcomma : isBlank ',' = true := hfront ',' (by rw [h]; simp)
    cases hcomma
  have hcut := Standing.cut_append hnone t
  rwa [after_of_isBlank hfront] at hcut

/-- An argument in a list belongs to the first piece, with its blanks. -/
theorem ListedArgument.cut_source_append (a : ListedArgument) (t : Text) :
    (Standing.outside 0).cut (a.source ++ t) =
      ((Standing.outside 0).cut t).modifyHead (a.source ++ ·) := by
  have hnone : ∀ before behind, a.text = before ++ ',' :: behind →
      (Standing.outside 0).after before ≠ .outside 0 := fun before behind h hafter =>
    a.no_comma before behind h (Standing.endsAtTop_iff.mpr hafter)
  have htext := Standing.cut_append hnone (a.behind ++ t)
  rw [Standing.endsAtTop_iff.mp a.endsAtTop, cut_append_of_isBlank a.isBlank_behind,
    List.modifyHead_modifyHead] at htext
  rw [source, List.append_assoc, List.append_assoc, cut_append_of_isBlank a.isBlank_before, htext,
    List.modifyHead_modifyHead]
  congr 1
  funext u
  simp

/-- Listed arguments are cut where they were joined. -/
theorem cut_joinAtCommas_source (a : ListedArgument) (as : List ListedArgument) :
    (Standing.outside 0).cut (joinAtCommas ((a :: as).map ListedArgument.source)) =
      (a :: as).map ListedArgument.source := by
  induction as generalizing a with
  | nil =>
    have hcut := a.cut_source_append []
    simpa using hcut
  | cons b as ih =>
    rw [List.map_cons, joinAtCommas_cons (by simp), a.cut_source_append, Standing.cut_comma, ih b]
    simp

/-- Listed arguments are read back without their blanks. -/
theorem splitArguments_joinAtCommas {as : List ListedArgument}
    (h : NoEscapedNewline (joinAtCommas (as.map ListedArgument.source))) :
    splitArguments (joinAtCommas (as.map ListedArgument.source)) =
      as.map ListedArgument.text := by
  rw [splitArguments_eq h]
  cases as with
  | nil => rfl
  | cons a as =>
    have htrim : ((a :: as).map ListedArgument.source).map trim =
        (a :: as).map ListedArgument.text := by
      rw [List.map_map]
      refine List.map_congr_left fun b _ => ?_
      have hb := trim_append b.before b.behind b.isBlank_before b.isBlank_behind b.ne_nil b.isTrimmed
      rwa [List.append_assoc] at hb
    have hlast : ((a :: as).map ListedArgument.text).getLast? ≠ some [] := by
      rw [List.getLast?_map]
      intro hnil
      obtain ⟨b, -, hb⟩ := Option.map_eq_some_iff.mp hnil
      exact b.ne_nil hb
    rw [cut_joinAtCommas_source, htrim, dropBlankLast, if_neg hlast]

/-- A text in which no backslash stands directly in front of a line feed is cut into arguments at
the commas of the top level. The texts between the commas make up the text again; there is a cut at
a comma exactly when the comma stands at the top level; the arguments are the texts without the
blanks around them, of which a last one that is blank, and no other, is left out. So arguments that
are written with commas between them and blanks around them are read back. -/
theorem splitArguments_cuts_top_level {t : Text} (ht : NoEscapedNewline t) :
    (∃ others last, (Standing.outside 0).cut t = others ++ [last] ∧
      joinAtCommas (others ++ [last]) = t ∧
      (∀ front rest, t = front ++ ',' :: rest →
        (IsCutBetween (others ++ [last]) front rest ↔ Standing.EndsAtTop front)) ∧
      splitArguments t = others.map trim ++ if last.all isBlank then [] else [trim last]) ∧
    ∀ as : List ListedArgument, t = joinAtCommas (as.map ListedArgument.source) →
      splitArguments t = as.map ListedArgument.text := by
  constructor
  · obtain ⟨others, last, hpieces⟩ :=
      (List.eq_nil_or_concat _).resolve_left (Standing.cut_ne_nil (.outside 0) t)
    rw [List.concat_eq_append] at hpieces
    refine ⟨others, last, hpieces, ?_, ?_, ?_⟩
    · rw [← hpieces, Standing.joinAtCommas_cut]
    · intro front rest hcomma
      rw [← hpieces, Standing.endsAtTop_iff, hcomma]
      exact Standing.isCutBetween_cut_iff
    · rw [splitArguments_eq ht, hpieces, dropBlankLast_map_trim]
  · intro as has
    subst has
    exact splitArguments_joinAtCommas ht

/-- No comma of a text that is one piece stands at the top level. -/
theorem not_endsAtTop_of_cut {t front rest : Text} (hcut : (Standing.outside 0).cut t = [t])
    (ht : t = front ++ ',' :: rest) : ¬ Standing.EndsAtTop front := by
  intro htop
  have hbetween : IsCutBetween ((Standing.outside 0).cut t) front rest := by
    rw [ht]
    exact Standing.isCutBetween_cut_iff.mpr (Standing.endsAtTop_iff.mp htop)
  obtain ⟨before, behind, hbefore, hbehind, hpieces, -⟩ := hbetween
  rw [hcut] at hpieces
  have hlength := congrArg List.length hpieces
  have hpos := List.length_pos_iff.mpr hbefore
  have hpos' := List.length_pos_iff.mpr hbehind
  simp only [List.length_append, List.length_singleton] at hlength
  omega

/-- A pair in parentheses and a quoted pair, each with a blank in front. -/
def listedPairs : List ListedArgument :=
  [⟨[' '], "(a, b)".toList, [], List.all_eq_true.mp rfl, List.all_eq_true.mp rfl, by decide,
      by decide, by decide, fun _ _ => not_endsAtTop_of_cut (by decide)⟩,
    ⟨[' '], "'c, d'".toList, [], List.all_eq_true.mp rfl, List.all_eq_true.mp rfl, by decide,
      by decide, by decide, fun _ _ => not_endsAtTop_of_cut (by decide)⟩]

/-- Empty arguments are kept, except for the last one, and pairs stay together. -/
theorem splitArguments_cuts_top_level_pairs :
    let pairs := " (a, b), 'c, d'".toList
    let t := "x,,".toList ++ (pairs ++ [',', ' '])
    NoEscapedNewline t ∧ NoEscapedNewline pairs ∧
      splitArguments t = ["x".toList, [], "(a, b)".toList, "'c, d'".toList] ∧
      splitArguments pairs = ["(a, b)".toList, "'c, d'".toList] := by
  intro pairs t
  have ht : NoEscapedNewline t := noEscapedNewline_of_notMem (by decide)
  have hpairs : NoEscapedNewline pairs := noEscapedNewline_of_notMem (by decide)
  obtain ⟨⟨others, last, hcut, -, -, hsplit⟩, -⟩ := splitArguments_cuts_top_level ht
  have hpieces : (Standing.outside 0).cut t =
      ["x".toList, [], " (a, b)".toList, " 'c, d'".toList] ++ [[' ']] := by
    decide
  obtain ⟨rfl, hlast⟩ := List.append_inj' (hcut.symm.trans hpieces) rfl
  obtain rfl := (List.cons.inj hlast).1
  have hlisted := (splitArguments_cuts_top_level hpairs).2 listedPairs (by decide)
  exact ⟨ht, hpairs, hsplit, hlisted⟩

end Marginalia.Template
