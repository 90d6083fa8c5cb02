import Marginalia.Proofs.Template.Standing
import Marginalia.Proofs.Text.Slice

/-!
# The top level of an expression

Closing braces end an expression, and commas separate its arguments, at the top level only: outside
quotes, behind as many closing parentheses as opening ones, of which those in quotes do not count.
The depth that is kept while reading is the difference of the two numbers, so the search for the
closing braces, which goes by lexemes, finds the first two braces at the top level.
-/

namespace Marginalia.Template

open Text

namespace Standing

/-- Whether a character stands outside quotes. -/
def isOutside : Standing → Bool
  | outside _ => true
  | quoted .. | escaped .. => false

/-- The depth of parentheses at which a character stands. -/
def depth : Standing → Int
  | outside depth | quoted _ depth | escaped _ depth => depth

/-- The characters of a text that stand outside quotes, for a text whose first character stands
somewhere. -/
def unquoted : Standing → Text → Text
  | _, [] => []
  | s, c :: rest => if s.isOutside then c :: unquoted (s.next c) rest else unquoted (s.next c) rest

@[simp] theorem after_nil (s : Standing) : s.after [] = s := rfl

@[simp] theorem after_cons (s : Standing) (c : Char) (t : Text) :
    s.after (c :: t) = (s.next c).after t :=
  rfl

/-- Outside quotes an opening parenthesis leads one level deeper and a closing one leads one level
up. In quotes nothing does. -/
theorem depth_next (s : Standing) (c : Char) :
    (s.next c).depth =
      s.depth + ((unquoted s [c]).count '(' : Int) - ((unquoted s [c]).count ')' : Int) := by
  cases s with
  | outside depth =>
    have hself : unquoted (outside depth) [c] = [c] := rfl
    by_cases hopen : c = '('
    · rw [hself, hopen]
      exact (Int.sub_zero _).symm
    · by_cases hclose : c = ')'
      · rw [hself, hclose]
        exact congrArg (· - 1) (Int.add_zero depth).symm
      · have hnext : (next (outside depth) c).depth = depth := by
          rw [next, if_neg hopen, if_neg hclose]
          split <;> rfl
        rw [hself, hnext, List.count_singleton, List.count_singleton, if_neg (by simpa using hopen),
          if_neg (by simpa using hclose)]
        simp [Standing.depth]
  | quoted quote depth =>
    have hnext : (next (quoted quote depth) c).depth = depth := by
      rw [next]
      split
      · rfl
      · split <;> rfl
    rw [hnext]
    simp [unquoted, isOutside, Standing.depth]
  | escaped quote depth => simp [next, unquoted, isOutside, Standing.depth]

/-- The characters outside quotes are the first one, if it is, and those behind it that are. -/
theorem unquoted_cons (s : Standing) (c : Char) (t : Text) :
    unquoted s (c :: t) = unquoted s [c] ++ unquoted (s.next c) t := by
  rw [unquoted, unquoted, unquoted]
  split <;> rfl

/-- The depth behind a text is the one before it and the number of opening parentheses less the
number of closing ones, both outside quotes. -/
theorem depth_after (s : Standing) (t : Text) :
    (s.after t).depth =
      s.depth + ((unquoted s t).count '(' : Int) - ((unquoted s t).count ')' : Int) := by
  induction t generalizing s with
  | nil => simp [unquoted]
  | cons c t ih =>
    have hnext := depth_next s c
    rw [after_cons, ih, unquoted_cons, List.count_append, List.count_append]
    omega

/-- Whether what follows a text stands at the top level: outside quotes, with as many closing
parentheses as opening ones before it, of which those in quotes do not count. -/
def EndsAtTop (t : Text) : Prop :=
  ((outside 0).after t).isOutside = true ∧
    ((outside 0).unquoted t).count '(' = ((outside 0).unquoted t).count ')'

/-- The top level is outside quotes at depth zero. -/
theorem endsAtTop_iff {t : Text} : EndsAtTop t ↔ (outside 0).after t = outside 0 := by
  have hdepth := depth_after (outside 0) t
  rw [EndsAtTop]
  cases hafter : (outside 0).after t with
  | outside depth =>
    rw [hafter] at hdepth
    simp only [Standing.depth] at hdepth
    simp only [isOutside, true_and, outside.injEq]
    omega
  | quoted quote depth => simp [isOutside]
  | escaped quote depth => simp [isOutside]

instance (t : Text) : Decidable (EndsAtTop t) :=
  inferInstanceAs (Decidable (_ ∧ _))

/-- There is a body where closing braces stand outside quotes and parentheses. -/
theorem exists_body? {s : Standing} {front : Text} (h : s.after front = outside 0) (rest : Text) :
    ∃ body, s.body? (front ++ (closingBraces ++ rest)) = some body := by
  induction front generalizing s with
  | nil => exact ⟨[], if_pos ⟨h, List.prefix_append _ _⟩⟩
  | cons c front ih =>
    obtain ⟨body, hbody⟩ := ih h
    rw [List.cons_append, Standing.body?]
    split
    · exact ⟨[], rfl⟩
    · exact ⟨c :: body, by rw [hbody]; rfl⟩

end Standing

open Standing

/-- The offsets of the first of the closing braces of an expression and of what is behind them,
where the inside of the expression starts at an offset. -/
def terminator? (t : Text) (start : Nat) : Option (Nat × Nat) :=
  (Template.body? (dropBytes start t)).map fun inside =>
    (start + byteLength inside, start + byteLength (inside ++ closingBraces))

/-- Whether two closing braces stand at an offset at the top level of what starts at another. -/
def ClosesAt (t : Text) (start offset : Nat) : Prop :=
  ∃ front inside rest, t = front ++ (inside ++ (closingBraces ++ rest)) ∧
    byteLength front = start ∧ byteLength (front ++ inside) = offset ∧ EndsAtTop inside

/-- Whether a quote that never closes opens at an offset, in what starts at another. -/
def OpensForever (t : Text) (start offset : Nat) : Prop :=
  ∃ front inside quote rest, t = front ++ (inside ++ quote :: rest) ∧
    byteLength front = start ∧ byteLength (front ++ inside) = offset ∧
    (quote = '"' ∨ quote = '\'') ∧ ((outside 0).after inside).isOutside = true ∧
    ∀ string, string <+: rest → ((outside 0).after (inside ++ quote :: string)).isOutside = false

/-- Where closing braces stand at the top level of what starts behind a front. -/
theorem closesAt_append {front rest : Text} {offset : Nat} :
    ClosesAt (front ++ rest) (byteLength front) offset ↔
      ∃ inside behind, rest = inside ++ (closingBraces ++ behind) ∧
        byteLength (front ++ inside) = offset ∧ EndsAtTop inside := by
  constructor
  · intro h
    obtain ⟨front', inside, behind, ht, hfront, hoffset, htop⟩ := h
    obtain ⟨rfl, rfl⟩ := append_inj_of_byteLength ht hfront.symm
    exact ⟨inside, behind, rfl, hoffset, htop⟩
  · intro h
    obtain ⟨inside, behind, rfl, hoffset, htop⟩ := h
    exact ⟨front, inside, behind, rfl, rfl, hoffset, htop⟩

/-- The closing braces that are found are the first ones at the top level. -/
theorem terminator?_append_eq_some_iff {front rest : Text} (hrest : NoEscapedNewline rest)
    {first behind : Nat} :
    terminator? (front ++ rest) (byteLength front) = some (first, behind) ↔
      behind = first + 2 ∧ ClosesAt (front ++ rest) (byteLength front) first ∧
        ∀ offset, ClosesAt (front ++ rest) (byteLength front) offset → first ≤ offset := by
  rw [terminator?, dropBytes_append, Template.body?, ← body?_outside 0 hrest,
    Option.map_eq_some_iff]
  simp only [closesAt_append, Prod.mk.injEq]
  constructor
  · intro h
    obtain ⟨inside, hinside, rfl, rfl⟩ := h
    obtain ⟨⟨rest', hrest'⟩, hafter, hfirst⟩ := body?_eq_some_iff.mp hinside
    refine ⟨?_, ⟨inside, rest', hrest', byteLength_append _ _, endsAtTop_iff.mpr hafter⟩, ?_⟩
    · rw [byteLength_append]
      rfl
    · intro offset hcloses
      obtain ⟨inside', rest'', hrest'', rfl, htop⟩ := hcloses
      have hlength := hfirst inside' rest'' hrest'' (endsAtTop_iff.mp htop)
      have hprefix := List.prefix_of_prefix_length_le ⟨_, hrest'.symm⟩ ⟨_, hrest''.symm⟩ hlength
      have hle := byteLength_le_of_prefix hprefix
      rw [byteLength_append]
      omega
  · intro h
    obtain ⟨rfl, ⟨inside, rest', hrest', rfl, htop⟩, hfirst⟩ := h
    refine ⟨inside, body?_eq_some_iff.mpr ⟨⟨rest', hrest'⟩, endsAtTop_iff.mp htop, ?_⟩, ?_, ?_⟩
    · intro inside' rest'' hrest'' hafter
      have hle := hfirst _ ⟨inside', rest'', hrest'', rfl, endsAtTop_iff.mpr hafter⟩
      rw [byteLength_append, byteLength_append] at hle
      exact (prefix_of_byteLength_le (hrest'.symm.trans hrest'') (by omega)).length_le
    · rw [byteLength_append]
    · rw [byteLength_append, byteLength_append, Nat.add_assoc]
      rfl

/-- Nothing behind a quote that never closes stands at the top level. -/
theorem OpensForever.not_closesAt {t : Text} {start offset first : Nat}
    (h : OpensForever t start offset) (hlt : offset < first) : ¬ ClosesAt t start first := by
  obtain ⟨front, inside, quote, rest, rfl, rfl, rfl, -, -, hnever⟩ := h
  rw [closesAt_append]
  intro hcloses
  obtain ⟨inside', behind, hrest, rfl, htop⟩ := hcloses
  rw [byteLength_append, byteLength_append] at hlt
  obtain ⟨more, rfl⟩ := prefix_of_byteLength_le hrest (by omega)
  rw [List.append_assoc] at hrest
  have hmore := List.append_cancel_left hrest
  cases more with
  | nil => simp at hlt
  | cons c string =>
    obtain ⟨rfl, hstring⟩ := List.cons.inj hmore
    have houtside := htop.1
    rw [hnever string ⟨_, hstring.symm⟩] at houtside
    cases houtside

/-- The search for the closing braces of an expression finds the first two that stand outside quotes
where, since its start, as many parentheses outside quotes were closed as were opened. It finds none
exactly when there are none, or when a quote that opens before any such braces never closes. This
holds where no backslash stands directly in front of a line feed. -/
theorem terminator?_is_first {t : Text} {start : Nat} (hstart : IsBoundary t start)
    (hescape : NoEscapedNewline (dropBytes start t)) :
    (∀ first behind, terminator? t start = some (first, behind) ↔
      behind = first + 2 ∧ ClosesAt t start first ∧
        ∀ offset, ClosesAt t start offset → first ≤ offset) ∧
    (terminator? t start = none ↔
      (∀ offset, ¬ ClosesAt t start offset) ∨
        ∃ quote, OpensForever t start quote ∧ ∀ offset, ClosesAt t start offset → quote < offset) := by
  obtain ⟨front, rest, rfl, rfl⟩ := hstart
  rw [dropBytes_append] at hescape
  refine ⟨fun first behind => terminator?_append_eq_some_iff hescape, ?_⟩
  have hnone : terminator? (front ++ rest) (byteLength front) = none ↔
      ∀ offset, ¬ ClosesAt (front ++ rest) (byteLength front) offset := by
    constructor
    · intro h offset hcloses
      obtain ⟨inside, behind, rfl, -, htop⟩ := closesAt_append.mp hcloses
      obtain ⟨body, hbody⟩ := exists_body? (endsAtTop_iff.mp htop) behind
      rw [terminator?, dropBytes_append, Template.body?, ← body?_outside 0 hescape, hbody] at h
      cases h
    · intro h
      cases hfound : terminator? (front ++ rest) (byteLength front) with
      | none => rfl
      | some found =>
        obtain ⟨-, hcloses, -⟩ := (terminator?_append_eq_some_iff hescape).mp hfound
        exact absurd hcloses (h _)
  rw [hnone]
  refine ⟨.inl, ?_⟩
  intro h
  rcases h with hnever | ⟨quote, hquote, hlt⟩
  · exact hnever
  · intro offset hcloses
    exact hquote.not_closesAt (hlt offset hcloses) hcloses

/-- Braces in quotes and in parentheses close nothing, nor does an escaped quote. -/
theorem terminator?_is_first_bracedArguments :
    let t := "@f('\x7d\x7d', (\x7d\x7d), '\\'') \x7d\x7d \x7d\x7d".toList
    IsBoundary t 1 ∧ NoEscapedNewline (dropBytes 1 t) ∧ terminator? t 1 = some (21, 23) ∧
      ClosesAt t 1 21 ∧ ∀ offset, ClosesAt t 1 offset → 21 ≤ offset := by
  intro t
  have hstart : IsBoundary t 1 := isBoundary_append ['@'] _
  have hescape : NoEscapedNewline (dropBytes 1 t) := noEscapedNewline_of_notMem (by decide)
  have hfound : terminator? t 1 = some (21, 23) := by
    rw [terminator?, Template.body?, ← body?_outside 0 hescape]
    rfl
  obtain ⟨-, hcloses, hfirst⟩ := ((terminator?_is_first hstart hescape).1 21 23).mp hfound
  exact ⟨hstart, hescape, hfound, hcloses, hfirst⟩

end Marginalia.Template
