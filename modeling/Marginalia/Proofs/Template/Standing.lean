import Marginalia.Proofs.Template.Lexeme

/-!
# Where the characters of an expression stand

The inside of an expression is cut into lexemes, but where it ends can be told from one character to
the next: each stands outside quotes at some depth of parentheses, in a quoted string, or behind a
backslash in one. As long as no backslash stands in front of a line feed, the closing braces are the
first two that stand outside quotes and parentheses.
-/

namespace Marginalia.Template

open Text

/-- Where a character stands: outside quotes, in quotes, or behind a backslash in quotes, at some
depth of parentheses. -/
inductive Standing
  | outside (depth : Int)
  | quoted (quote : Char) (depth : Int)
  | escaped (quote : Char) (depth : Int)
deriving DecidableEq

/-- No backslash stands directly in front of a line feed. -/
def NoEscapedNewline (t : Text) : Prop :=
  ¬ ['\\', '\n'] <:+: t

/-- A part of a text without a backslash in front of a line feed has none. -/
theorem NoEscapedNewline.of_isInfix {t u : Text} (h : NoEscapedNewline t) (hu : u <:+: t) :
    NoEscapedNewline u :=
  fun hpair => h (hpair.trans hu)

/-- Behind the first character of a text without a backslash in front of a line feed there is none.
-/
theorem NoEscapedNewline.of_cons {c : Char} {t : Text} (h : NoEscapedNewline (c :: t)) :
    NoEscapedNewline t :=
  h.of_isInfix (List.suffix_cons c t).isInfix

/-- A text without line feeds has none behind a backslash. -/
theorem noEscapedNewline_of_notMem {t : Text} (h : '\n' ∉ t) : NoEscapedNewline t :=
  fun hpair => h (hpair.subset (by simp))

namespace Standing

/-- Where the character behind a character stands. -/
def next : Standing → Char → Standing
  | outside depth, c =>
    if c = '(' then outside (depth + 1)
    else if c = ')' then outside (depth - 1)
    else if c = '"' ∨ c = '\'' then quoted c depth
    else outside depth
  | quoted quote depth, c =>
    if c = quote then outside depth
    else if c = '\\' then escaped quote depth
    else quoted quote depth
  | escaped quote depth, _ => quoted quote depth

/-- Where the character behind a text stands. -/
def after (s : Standing) (t : Text) : Standing :=
  t.foldl next s

/-- The text before the first closing braces outside quotes and parentheses, if there are any, for a
text whose first character stands somewhere. -/
def body? : Standing → Text → Option Text
  | _, [] => none
  | s, c :: rest =>
    if s = outside 0 ∧ closingBraces <+: c :: rest then some []
    else (body? (s.next c) rest).map (c :: ·)

@[simp] theorem body?_nil (s : Standing) : s.body? [] = none := rfl

/-- A character that does not start closing braces belongs to the body. -/
theorem body?_cons {s : Standing} {c : Char} {t : Text}
    (h : ¬ (s = outside 0 ∧ closingBraces <+: c :: t)) :
    s.body? (c :: t) = (body? (s.next c) t).map (c :: ·) :=
  if_neg h

/-- In quotes every character belongs to the body. -/
theorem body?_quoted_cons (quote : Char) (depth : Int) (c : Char) (t : Text) :
    body? (quoted quote depth) (c :: t) = (body? (next (quoted quote depth) c) t).map (c :: ·) :=
  body?_cons fun h => by cases h.1

/-- Any character but a brace belongs to the body. -/
theorem body?_cons_of_ne {c : Char} (hc : c ≠ '\x7d') (s : Standing) (t : Text) :
    s.body? (c :: t) = (body? (s.next c) t).map (c :: ·) :=
  body?_cons fun h => hc (List.cons_prefix_cons.mp h.2).1.symm

/-- A body is what stands before the first closing braces outside quotes and parentheses. -/
theorem body?_eq_some_iff {s : Standing} {t body : Text} :
    s.body? t = some body ↔
      (∃ rest, t = body ++ (closingBraces ++ rest)) ∧ s.after body = outside 0 ∧
        ∀ front rest, t = front ++ (closingBraces ++ rest) → s.after front = outside 0 →
          body.length ≤ front.length := by
  induction t generalizing s body with
  | nil => simp [closingBraces]
  | cons c t ih =>
    by_cases hclose : s = outside 0 ∧ closingBraces <+: c :: t
    · rw [body?, if_pos hclose, Option.some.injEq]
      obtain ⟨rest, hrest⟩ := hclose.2
      constructor
      · intro h
        subst h
        exact ⟨⟨rest, hrest.symm⟩, hclose.1, fun _ _ _ _ => Nat.zero_le _⟩
      · intro h
        obtain ⟨-, -, hfirst⟩ := h
        have hzero := Nat.le_zero.mp (hfirst [] rest hrest.symm hclose.1)
        exact (List.length_eq_zero_iff.mp hzero).symm
    · rw [body?_cons hclose, Option.map_eq_some_iff]
      -- Nothing closes the body before its first character, so bodies and fronts start with it.
      have hcons {front rest : Text} (hfront : c :: t = front ++ (closingBraces ++ rest))
          (hafter : s.after front = outside 0) : ∃ front', front = c :: front' := by
        cases front with
        | nil => exact absurd ⟨hafter, rest, hfront.symm⟩ hclose
        | cons a front' => exact ⟨front', by rw [(List.cons.inj hfront).1]⟩
      constructor
      · intro h
        obtain ⟨b, hb, rfl⟩ := h
        obtain ⟨⟨rest, hrest⟩, hafter, hfirst⟩ := ih.mp hb
        refine ⟨⟨rest, congrArg (c :: ·) hrest⟩, hafter, fun front rest' hfront hfafter => ?_⟩
        obtain ⟨front', rfl⟩ := hcons hfront hfafter
        exact Nat.succ_le_succ (hfirst front' rest' (List.cons.inj hfront).2 hfafter)
      · intro h
        obtain ⟨⟨rest, hrest⟩, hafter, hfirst⟩ := h
        obtain ⟨b, rfl⟩ := hcons hrest hafter
        refine ⟨b, ih.mpr ⟨⟨rest, (List.cons.inj hrest).2⟩, hafter, ?_⟩, rfl⟩
        intro front rest' hfront hfafter
        exact Nat.le_of_succ_le_succ
          (hfirst (c :: front) rest' (congrArg (c :: ·) hfront) hfafter)

/-- In quotes, the body goes on behind the quoted string, if that is closed. -/
theorem body?_quoted {quote : Char} (hquote : quote ≠ '\\') (depth : Int) {t : Text}
    (ht : NoEscapedNewline t) :
    body? (quoted quote depth) t =
      (takeQuoted quote t).bind fun (string, behind) =>
        (body? (outside depth) behind).map (string ++ ·) := by
  fun_induction takeQuoted quote t with
  | case1 => rfl
  | case2 rest => exact absurd ⟨[], rest, rfl⟩ ht
  | case3 c rest hc ih =>
    have hescape : next (quoted quote depth) '\\' = escaped quote depth := by
      rw [next, if_neg (Ne.symm hquote), if_pos rfl]
    rw [body?_quoted_cons, hescape, body?_cons (fun h => by cases h.1), next,
      ih ht.of_cons.of_cons]
    cases takeQuoted quote rest with
    | none => rfl
    | some found =>
      simp only [Option.map_some, Option.bind_some, Option.map_map]
      rfl
  | case4 c rest =>
    rw [body?_quoted_cons, next, if_pos rfl]
    rfl
  | case5 rest hshort =>
    cases rest with
    | nil =>
      rw [body?_quoted_cons]
      rfl
    | cons c rest => exact absurd rfl (hshort c rest rfl)
  | case6 c rest hshort hcq hc ih =>
    rw [body?_quoted_cons, next, if_neg hcq, if_neg hc, ih ht.of_cons]
    cases takeQuoted quote rest with
    | none => rfl
    | some found =>
      simp only [Option.map_some, Option.bind_some, Option.map_map]
      rfl

/-- A plain character stands where the character behind it does. -/
theorem next_outside_of_isPlain {c : Char} (hc : isPlain c = true) (depth : Int) :
    next (outside depth) c = outside depth := by
  simp only [isPlain, Bool.and_eq_true, bne_iff_ne, ne_eq] at hc
  obtain ⟨⟨⟨⟨⟨-, hopen⟩, hclosed⟩, -⟩, hdouble⟩, hsingle⟩ := hc
  rw [next, if_neg hopen, if_neg hclosed, if_neg (by simp [hdouble, hsingle])]

/-- Behind a quote outside quotes, characters stand in quotes. -/
theorem next_outside_of_quote {c : Char} (hc : c = '"' ∨ c = '\'') (depth : Int) :
    next (outside depth) c = quoted c depth := by
  rcases hc with rfl | rfl <;> rfl

/-- Outside quotes, the body is the one that is found lexeme by lexeme. -/
theorem body?_outside (depth : Int) {t : Text} (ht : NoEscapedNewline t) :
    body? (outside depth) t = bodyFrom depth t := by
  induction depth, t using inside_induction with
  | nil depth => simp
  | plain depth c t hc ih =>
    have hne : c ≠ '\x7d' := by
      intro heq
      rw [heq] at hc
      cases hc
    rw [bodyFrom_of_isPlain hc, ← ih ht.of_cons, body?_cons_of_ne hne, next_outside_of_isPlain hc]
  | openParen depth t ih =>
    rw [bodyFrom_openParen, ← ih ht.of_cons]
    exact body?_cons_of_ne (by decide) _ t
  | closeParen depth t ih =>
    rw [bodyFrom_closeParen, ← ih ht.of_cons]
    exact body?_cons_of_ne (by decide) _ t
  | comma depth t ih =>
    rw [bodyFrom_comma, ← ih ht.of_cons]
    exact body?_cons_of_ne (by decide) _ t
  | brace depth t ih =>
    by_cases hhead : t.head? = some '\x7d'
    · obtain ⟨u, rfl⟩ := List.head?_eq_some_iff.mp hhead
      rw [bodyFrom_closingBraces]
      by_cases hdepth : depth = 0
      · rw [if_pos hdepth, body?, if_pos ⟨by rw [hdepth], u, rfl⟩]
      · have hopen (v : Text) : body? (outside depth) ('\x7d' :: v) =
            (body? (outside depth) v).map ('\x7d' :: ·) :=
          body?_cons fun h => hdepth (Standing.outside.inj h.1)
        rw [if_neg hdepth, hopen, hopen, ih u (List.suffix_cons _ u) ht.of_cons.of_cons,
          Option.map_map]
        rfl
    · have hsingle : ¬ (outside depth = outside 0 ∧ closingBraces <+: '\x7d' :: t) := by
        intro h
        obtain ⟨-, rest, hrest⟩ := h
        obtain rfl : '\x7d' :: rest = t := (List.cons.inj hrest).2
        exact hhead rfl
      rw [bodyFrom_brace depth hhead, body?_cons hsingle]
      exact congrArg _ (ih t (List.suffix_refl t) ht.of_cons)
  | quote depth c t hc ih =>
    have hne : c ≠ '\x7d' ∧ c ≠ '\\' := by
      rcases hc with rfl | rfl <;> decide
    rw [bodyFrom_quote hc, body?_cons_of_ne hne.1, next_outside_of_quote hc,
      body?_quoted hne.2 depth ht.of_cons]
    cases hstring : takeQuoted c t with
    | none => rfl
    | some found =>
      have hbehind : found.2 <:+ t := ⟨found.1, append_of_takeQuoted hstring⟩
      have hfound := ih found.2 hbehind (ht.of_cons.of_isInfix hbehind.isInfix)
      simp only [Option.bind_some, Option.map_map, hfound]
      rfl

/-- Closing braces leave a text without a backslash in front of a line feed. -/
theorem noEscapedNewline_append_closingBraces {t : Text} (ht : NoEscapedNewline t) :
    NoEscapedNewline (t ++ closingBraces) := by
  intro hpair
  obtain ⟨front, rest, h⟩ := hpair
  rcases List.append_eq_append_iff.mp h with ⟨behind, htext, -⟩ | ⟨behind, hfront, hbraces⟩
  · exact ht ⟨front, behind, htext.symm⟩
  · rcases List.eq_nil_or_concat behind with rfl | ⟨inside, c, rfl⟩
    · exact ht ⟨front, [], by rw [hfront, List.append_nil, List.append_nil]⟩
    · -- The line feed would be one of the braces.
      have hlast := congrArg List.getLast? hfront
      have hmem : c ∈ closingBraces := by
        rw [hbraces]
        simp
      simp only [List.getLast?_append, List.getLast?_cons_cons, List.getLast?_singleton,
        Option.some_or, List.concat_eq_append, Option.some.injEq] at hlast
      subst hlast
      exact absurd hmem (by decide)

/-- A text that closing braces behind it close, and none in it: every quote in it is closed, its
parentheses are matched, and no backslash stands in front of a line feed. -/
structure IsClosed (body : Text) : Prop where
  noEscapedNewline : NoEscapedNewline body
  after_eq : after (outside 0) body = outside 0
  not_closing : ∀ front rest, body = front ++ (closingBraces ++ rest) →
    after (outside 0) front ≠ outside 0

/-- A text in front of closing braces is closed if it is the body in front of them. -/
theorem isClosed_of_body? {body : Text} (hbody : NoEscapedNewline body)
    (h : body? (outside 0) (body ++ closingBraces) = some body) : IsClosed body := by
  obtain ⟨-, hafter, hfirst⟩ := body?_eq_some_iff.mp h
  refine ⟨hbody, hafter, fun front rest hfront hfafter => ?_⟩
  have hle := hfirst front (rest ++ closingBraces) (by rw [hfront]; simp) hfafter
  have hlength := congrArg List.length hfront
  simp only [List.length_append, closingBraces, List.length_cons, List.length_nil] at hlength
  omega

/-- A closed text that does not end with a brace ends where the braces behind it stand. -/
theorem IsClosed.isBody {body : Text} (h : IsClosed body) (hlast : body.getLast? ≠ some '\x7d') :
    IsBody 0 body := by
  have hbody : body? (outside 0) (body ++ closingBraces) = some body := by
    refine body?_eq_some_iff.mpr ⟨⟨[], by simp⟩, h.after_eq, fun front rest hfront hafter => ?_⟩
    rcases List.append_eq_append_iff.mp hfront with ⟨more, rfl, -⟩ | ⟨more, rfl, hbraces⟩
    · simp
    · match more with
      | [] => simp
      | [a] =>
        obtain rfl : '\x7d' = a := (List.cons.inj hbraces).1
        exact absurd (by simp) hlast
      | a :: b :: more =>
        obtain ⟨rfl, hb⟩ := List.cons.inj hbraces
        obtain ⟨rfl, -⟩ := List.cons.inj hb
        exact absurd hafter (h.not_closing front more rfl)
  rw [body?_outside 0 (noEscapedNewline_append_closingBraces h.noEscapedNewline)] at hbody
  obtain ⟨rest, -, hisBody⟩ := bodyFrom_eq_some_iff.mp hbody
  exact hisBody

end Standing

end Marginalia.Template
