import Marginalia.Proofs.Text.Lines
import Marginalia.Template.Lexeme

/-!
# The inside of an expression, character by character

Plain runs are read as long as they go, so a lexeme depends on what follows it. The search for the
closing braces and the cutting at commas do not: each is given here by one equation for each kind
of character. It follows that a body is found wherever its text stands in front of closing braces,
whatever comes behind them.
-/

namespace Marginalia.Template

open Text

/-- The closing quote ends a quoted string. -/
theorem takeQuoted_quote {quote : Char} (hquote : quote ≠ '\\') (t : Text) :
    takeQuoted quote (quote :: t) = some ([quote], t) := by
  rw [takeQuoted.eq_3 _ _ _ fun _ _ h => absurd h hquote, if_pos rfl]

/-- A character behind a backslash belongs to a quoted string, unless it is a line feed. -/
theorem takeQuoted_escape (quote : Char) {c : Char} (hc : c ≠ '\n') (t : Text) :
    takeQuoted quote ('\\' :: c :: t) =
      (takeQuoted quote t).map fun (body, behind) => ('\\' :: c :: body, behind) := by
  rw [takeQuoted, if_neg hc]

/-- Any character but the quote and a backslash belongs to a quoted string. -/
theorem takeQuoted_cons {quote c : Char} (hquote : c ≠ quote) (hc : c ≠ '\\') (t : Text) :
    takeQuoted quote (c :: t) =
      (takeQuoted quote t).map fun (body, behind) => (c :: body, behind) := by
  rw [takeQuoted.eq_3 _ _ _ fun _ _ h => absurd h hc, if_neg hquote, if_neg hc]

/-- A quoted string is found whatever follows it. -/
theorem takeQuoted_append {quote : Char} (hquote : quote ≠ '\\') {t body behind : Text}
    (h : takeQuoted quote t = some (body, behind)) (u : Text) :
    takeQuoted quote (body ++ u) = some (body, u) := by
  fun_induction takeQuoted quote t generalizing body with
  | case1 => cases h
  | case2 => cases h
  | case3 c rest hc ih =>
    obtain ⟨⟨b, r⟩, hb, he⟩ := Option.map_eq_some_iff.mp h
    obtain ⟨rfl, rfl⟩ : '\\' :: c :: b = body ∧ r = behind := by simpa using he
    simp only [List.cons_append, takeQuoted_escape quote hc, ih hb, Option.map_some]
  | case4 =>
    simp only [Option.some.injEq, Prod.mk.injEq] at h
    rw [← h.1, List.singleton_append, takeQuoted_quote hquote]
  | case5 => cases h
  | case6 c rest _ hcq hc ih =>
    obtain ⟨⟨b, r⟩, hb, he⟩ := Option.map_eq_some_iff.mp h
    obtain ⟨rfl, rfl⟩ : c :: b = body ∧ r = behind := by simpa using he
    simp only [List.cons_append, takeQuoted_cons hcq hc, ih hb, Option.map_some]

/-- The search for closing braces goes on behind the first lexeme unless that closes the body. -/
theorem bodyFrom_of_next? {t rest : Text} {l : Lexeme} (h : next? t = some (l, rest)) (depth : Int) :
    bodyFrom depth t =
      if l = .close ∧ depth = 0 then some []
      else (bodyFrom (depth + l.turn) rest).map (l.source ++ ·) := by
  rw [bodyFrom]
  split
  · rename_i l' rest' h'
    obtain ⟨rfl, rfl⟩ : l' = l ∧ rest' = rest := by simpa using h'.symm.trans h
    rfl
  · rename_i h'
    rw [h'] at h
    cases h

/-- Without a lexeme there are no closing braces. -/
theorem bodyFrom_of_next?_eq_none {t : Text} (h : next? t = none) (depth : Int) :
    bodyFrom depth t = none := by
  rw [bodyFrom]
  split
  · rename_i h'
    rw [h] at h'
    cases h'
  · rfl

/-- A lexeme that is no parenthesis and closes nothing belongs to the body. -/
theorem bodyFrom_of_turn_eq_zero {t rest : Text} {l : Lexeme} (h : next? t = some (l, rest))
    (hclose : l ≠ .close) (hturn : l.turn = 0) (depth : Int) :
    bodyFrom depth t = (bodyFrom depth rest).map (l.source ++ ·) := by
  rw [bodyFrom_of_next? h, if_neg fun hl => hclose hl.1, hturn, Int.add_zero]

@[simp] theorem bodyFrom_nil (depth : Int) : bodyFrom depth [] = none :=
  bodyFrom_of_next?_eq_none rfl depth

/-- The first lexeme of a text that starts with a plain character is the longest plain run. -/
theorem next?_of_isPlain {c : Char} (hc : isPlain c = true) (t : Text) :
    next? (c :: t) = some (.plain (c :: t.takeWhile isPlain), t.dropWhile isPlain) := by
  simp only [isPlain, Bool.and_eq_true, bne_iff_ne, ne_eq] at hc
  rw [next?.eq_7] <;> simp [hc]

/-- A plain character belongs to the body. -/
theorem bodyFrom_of_isPlain {c : Char} (hc : isPlain c = true) (depth : Int) (t : Text) :
    bodyFrom depth (c :: t) = (bodyFrom depth t).map (c :: ·) := by
  rw [bodyFrom_of_turn_eq_zero (next?_of_isPlain hc t) (by simp) rfl]
  cases t with
  | nil => rfl
  | cons d t =>
    by_cases hd : isPlain d = true
    · -- The run goes on, so both sides read the same rest behind it.
      rw [bodyFrom_of_turn_eq_zero (next?_of_isPlain hd t) (by simp) rfl,
        List.dropWhile_cons_of_pos hd, List.takeWhile_cons_of_pos hd, Option.map_map]
      rfl
    · rw [List.dropWhile_cons_of_neg hd, List.takeWhile_cons_of_neg hd]
      rfl

/-- An opening parenthesis leads one level deeper. -/
theorem bodyFrom_openParen (depth : Int) (t : Text) :
    bodyFrom depth ('(' :: t) = (bodyFrom (depth + 1) t).map ('(' :: ·) := by
  have hnext : next? ('(' :: t) = some (.openParen, t) := rfl
  rw [bodyFrom_of_next? hnext, if_neg (by simp)]
  rfl

/-- A closing parenthesis leads one level up. -/
theorem bodyFrom_closeParen (depth : Int) (t : Text) :
    bodyFrom depth (')' :: t) = (bodyFrom (depth - 1) t).map (')' :: ·) := by
  have hnext : next? (')' :: t) = some (.closeParen, t) := rfl
  rw [bodyFrom_of_next? hnext, if_neg (by simp)]
  rfl

/-- A comma belongs to the body. -/
theorem bodyFrom_comma (depth : Int) (t : Text) :
    bodyFrom depth (',' :: t) = (bodyFrom depth t).map (',' :: ·) :=
  bodyFrom_of_turn_eq_zero (l := .comma) rfl (by simp) rfl depth

/-- Closing braces end the body outside parentheses and belong to it inside. -/
theorem bodyFrom_closingBraces (depth : Int) (t : Text) :
    bodyFrom depth ('\x7d' :: '\x7d' :: t) =
      if depth = 0 then some [] else (bodyFrom depth t).map (closingBraces ++ ·) := by
  have hnext : next? ('\x7d' :: '\x7d' :: t) = some (.close, t) := rfl
  rw [bodyFrom_of_next? hnext]
  simp only [true_and, Lexeme.turn, Int.add_zero, Lexeme.source]

/-- A single brace belongs to the body. -/
theorem bodyFrom_brace (depth : Int) {t : Text} (ht : t.head? ≠ some '\x7d') :
    bodyFrom depth ('\x7d' :: t) = (bodyFrom depth t).map ('\x7d' :: ·) := by
  have hnext : next? ('\x7d' :: t) = some (.brace, t) :=
    next?.eq_3 t fun rest h => ht (by rw [h]; rfl)
  exact bodyFrom_of_turn_eq_zero hnext (by simp) rfl depth

/-- The first lexeme of a text that starts with a quote is the quoted string. -/
theorem next?_of_quote {quote : Char} (hquote : quote = '"' ∨ quote = '\'') (t : Text) :
    next? (quote :: t) =
      (takeQuoted quote t).map fun (body, behind) => (.quoted (quote :: body), behind) := by
  rcases hquote with rfl | rfl <;> rw [next?.eq_7] <;> simp

/-- A quoted string belongs to the body. -/
theorem bodyFrom_quote {quote : Char} (hquote : quote = '"' ∨ quote = '\'') (depth : Int) (t : Text) :
    bodyFrom depth (quote :: t) =
      (takeQuoted quote t).bind fun (body, behind) =>
        (bodyFrom depth behind).map ((quote :: body) ++ ·) := by
  have hnext := next?_of_quote hquote t
  cases h : takeQuoted quote t with
  | none =>
    rw [h] at hnext
    exact bodyFrom_of_next?_eq_none hnext depth
  | some found =>
    rw [h] at hnext
    exact bodyFrom_of_turn_eq_zero hnext (by simp) rfl depth

/-- Every character is plain, a bracket, a comma, a closing brace or a quote. -/
theorem isPlain_or (c : Char) :
    isPlain c = true ∨ c = '(' ∨ c = ')' ∨ c = ',' ∨ c = '\x7d' ∨ c = '"' ∨ c = '\'' := by
  simp only [isPlain, Bool.and_eq_true, bne_iff_ne, ne_eq]
  grind

/-- The inside of an expression can be gone through character by character, except that later parts
of the text are reached from a brace and from a quote, which start lexemes of several characters. -/
theorem inside_induction {motive : Int → Text → Prop} (nil : ∀ depth, motive depth [])
    (plain : ∀ depth c t, isPlain c = true → motive depth t → motive depth (c :: t))
    (openParen : ∀ depth t, motive (depth + 1) t → motive depth ('(' :: t))
    (closeParen : ∀ depth t, motive (depth - 1) t → motive depth (')' :: t))
    (comma : ∀ depth t, motive depth t → motive depth (',' :: t))
    (brace : ∀ depth t, (∀ u, u <:+ t → motive depth u) → motive depth ('\x7d' :: t))
    (quote : ∀ depth c t, (c = '"' ∨ c = '\'') → (∀ u, u <:+ t → motive depth u) →
      motive depth (c :: t))
    (depth : Int) (t : Text) : motive depth t := by
  induction hn : t.length using Nat.strong_induction_on generalizing t depth with
  | _ n ih =>
    cases t with
    | nil => exact nil depth
    | cons c t =>
      have hlater (depth : Int) (u : Text) (hu : u <:+ t) : motive depth u := by
        have hlt : u.length < n := by
          have := hu.length_le
          rw [← hn, List.length_cons]
          omega
        exact ih u.length hlt depth u rfl
      have hrest (depth : Int) := hlater depth t (List.suffix_refl t)
      rcases isPlain_or c with hc | rfl | rfl | rfl | rfl | hc
      · exact plain depth c t hc (hrest depth)
      · exact openParen depth t (hrest _)
      · exact closeParen depth t (hrest _)
      · exact comma depth t (hrest depth)
      · exact brace depth t (hlater depth)
      · exact quote depth c t hc (hlater depth)

/-- A text that closing braces behind it close at some depth of parentheses, and not before,
whatever follows them. -/
def IsBody (depth : Int) (body : Text) : Prop :=
  ∀ u, bodyFrom depth (body ++ closingBraces ++ u) = some body

namespace IsBody

/-- Outside parentheses nothing needs to stand before closing braces. -/
theorem nil : IsBody 0 [] :=
  fun u => by simp [closingBraces, bodyFrom_closingBraces]

/-- A character that leads from one depth to another may stand in front of a body. -/
theorem cons {depth depth' : Int} {c : Char} {body : Text}
    (hc : ∀ u, bodyFrom depth (c :: u) = (bodyFrom depth' u).map (c :: ·)) (h : IsBody depth' body) :
    IsBody depth (c :: body) := by
  intro u
  rw [List.cons_append, List.cons_append, hc, h u]
  rfl

/-- A plain character may stand in front of a body. -/
theorem plain {depth : Int} {c : Char} {body : Text} (hc : isPlain c = true)
    (h : IsBody depth body) : IsBody depth (c :: body) :=
  h.cons (bodyFrom_of_isPlain hc depth)

/-- Closing braces may stand in front of a body inside parentheses. -/
theorem braces {depth : Int} {body : Text} (hdepth : depth ≠ 0) (h : IsBody depth body) :
    IsBody depth (closingBraces ++ body) := by
  intro u
  have := bodyFrom_closingBraces depth (body ++ closingBraces ++ u)
  rw [if_neg hdepth, h u] at this
  simpa [closingBraces] using this

/-- A brace may stand in front of a body that does not go on with a brace. -/
theorem brace {depth : Int} {c : Char} {body : Text} (hc : c ≠ '\x7d')
    (h : IsBody depth (c :: body)) : IsBody depth ('\x7d' :: c :: body) := by
  intro u
  have := bodyFrom_brace depth (t := c :: body ++ closingBraces ++ u) (by simpa using hc)
  rw [h u] at this
  exact this

/-- A quoted string may stand in front of a body. -/
theorem quoted {depth : Int} {quote : Char} {string body behind t : Text}
    (hquote : quote = '"' ∨ quote = '\'') (hstring : takeQuoted quote t = some (string, behind))
    (h : IsBody depth body) : IsBody depth (quote :: string ++ body) := by
  intro u
  have hne : quote ≠ '\\' := by
    rcases hquote with rfl | rfl <;> decide
  have htake := takeQuoted_append hne hstring (body ++ closingBraces ++ u)
  have := bodyFrom_quote hquote depth (string ++ (body ++ closingBraces ++ u))
  simp only [htake, Option.bind_some, h u] at this
  simpa using this

end IsBody

/-- A body stands before the closing braces that close it. -/
theorem exists_rest_of_bodyFrom {depth : Int} {t body : Text} (h : bodyFrom depth t = some body) :
    ∃ rest, t = body ++ closingBraces ++ rest ∧ IsBody depth body := by
  induction depth, t using inside_induction generalizing body with
  | nil depth => simp at h
  | plain depth c t hc ih =>
    rw [bodyFrom_of_isPlain hc] at h
    obtain ⟨b, hb, rfl⟩ := Option.map_eq_some_iff.mp h
    obtain ⟨rest, rfl, hbody⟩ := ih hb
    exact ⟨rest, rfl, hbody.plain hc⟩
  | openParen depth t ih =>
    rw [bodyFrom_openParen] at h
    obtain ⟨b, hb, rfl⟩ := Option.map_eq_some_iff.mp h
    obtain ⟨rest, rfl, hbody⟩ := ih hb
    exact ⟨rest, rfl, hbody.cons (bodyFrom_openParen depth)⟩
  | closeParen depth t ih =>
    rw [bodyFrom_closeParen] at h
    obtain ⟨b, hb, rfl⟩ := Option.map_eq_some_iff.mp h
    obtain ⟨rest, rfl, hbody⟩ := ih hb
    exact ⟨rest, rfl, hbody.cons (bodyFrom_closeParen depth)⟩
  | comma depth t ih =>
    rw [bodyFrom_comma] at h
    obtain ⟨b, hb, rfl⟩ := Option.map_eq_some_iff.mp h
    obtain ⟨rest, rfl, hbody⟩ := ih hb
    exact ⟨rest, rfl, hbody.cons (bodyFrom_comma depth)⟩
  | brace depth t ih =>
    by_cases hhead : t.head? = some '\x7d'
    · obtain ⟨u, rfl⟩ := List.head?_eq_some_iff.mp hhead
      rw [bodyFrom_closingBraces] at h
      by_cases hdepth : depth = 0
      · rw [if_pos hdepth] at h
        cases h
        exact ⟨u, rfl, hdepth ▸ IsBody.nil⟩
      · rw [if_neg hdepth] at h
        obtain ⟨b, hb, rfl⟩ := Option.map_eq_some_iff.mp h
        obtain ⟨rest, rfl, hbody⟩ := ih u (List.suffix_cons _ u) hb
        exact ⟨rest, rfl, hbody.braces hdepth⟩
    · rw [bodyFrom_brace depth hhead] at h
      obtain ⟨b, hb, rfl⟩ := Option.map_eq_some_iff.mp h
      obtain ⟨rest, rfl, hbody⟩ := ih t (List.suffix_refl t) hb
      cases b with
      | nil => exact absurd rfl hhead
      | cons c b => exact ⟨rest, rfl, hbody.brace fun hc => hhead (by simp [hc])⟩
  | quote depth c t hc ih =>
    rw [bodyFrom_quote hc] at h
    obtain ⟨⟨string, behind⟩, hstring, h⟩ := Option.bind_eq_some_iff.mp h
    obtain ⟨b, hb, rfl⟩ := Option.map_eq_some_iff.mp h
    have ht := append_of_takeQuoted hstring
    obtain ⟨rest, hrest, hbody⟩ := ih behind ⟨string, ht⟩ hb
    exact ⟨rest, by simp [← ht, hrest], hbody.quoted hc hstring⟩

/-- A body is what stands before the closing braces that close it. -/
theorem bodyFrom_eq_some_iff {depth : Int} {t body : Text} :
    bodyFrom depth t = some body ↔ ∃ rest, t = body ++ closingBraces ++ rest ∧ IsBody depth body :=
  ⟨exists_rest_of_bodyFrom, fun ⟨rest, ht, hbody⟩ => ht ▸ hbody rest⟩

end Marginalia.Template
