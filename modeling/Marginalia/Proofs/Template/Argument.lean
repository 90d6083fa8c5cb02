import Marginalia.Proofs.Template.Lexeme
import Marginalia.Proofs.Text.Stretch
import Marginalia.Template.Expression
import Marginalia.Template.Quoting

/-!
# Written arguments

An argument is written as a word or as a string in single quotes, with a backslash before each
quote and each backslash. Whatever the string holds, it is read as one lexeme, so arguments with
commas between them are cut where they were joined, and each is read back as it was meant.
-/

namespace Marginalia.Template

open Text

/-- An argument as it is meant: a word, or any string that is written in quotes. -/
inductive Argument
  | bare (word : Stretch isWord)
  | quoted (string : Text)

/-- A text with a backslash before each single quote and each backslash. -/
def escape : Text → Text
  | [] => []
  | c :: rest => if c = '\'' ∨ c = '\\' then '\\' :: c :: escape rest else c :: escape rest

namespace Argument

/-- The text of an argument as it is written. -/
def source : Argument → Text
  | bare word => word.text
  | quoted string => '\'' :: (escape string ++ ['\''])

/-- What an argument stands for. -/
def value : Argument → Text
  | bare word => word.text
  | quoted string => string

end Argument

/-- A text with backslashes is read as one quoted string. -/
theorem takeQuoted_escape_append (t rest : Text) :
    takeQuoted '\'' (escape t ++ '\'' :: rest) = some (escape t ++ ['\''], rest) := by
  induction t with
  | nil => exact takeQuoted_quote (by decide) rest
  | cons c t ih =>
    rw [escape]
    split
    · rename_i hc
      have hne : c ≠ '\n' := by
        intro heq
        subst heq
        simp at hc
      rw [List.cons_append, List.cons_append, takeQuoted_escape _ hne, ih]
      rfl
    · rename_i hc
      rw [not_or] at hc
      rw [List.cons_append, takeQuoted_cons hc.1 hc.2, ih]
      rfl

/-- Taking the backslashes away gives the text back. -/
theorem resolveBackslashes_escape (t : Text) : resolveBackslashes (escape t) = t := by
  induction t with
  | nil => rfl
  | cons c t ih =>
    rw [escape]
    split
    · rw [resolveBackslashes, ih]
    · rename_i hc
      rw [not_or] at hc
      rw [resolveBackslashes.eq_4 _ _ (fun h _ => hc.2 h) (fun _ _ h _ => hc.2 h), ih]

/-- A quote in single quotes stands for what is between them. -/
theorem unquote_quoted (t : Text) : unquote ('\'' :: (escape t ++ ['\''])) = t := by
  obtain ⟨c, rest, hrest⟩ : ∃ c rest, escape t ++ ['\''] = c :: rest :=
    List.exists_cons_of_ne_nil (by simp)
  have hlast : ('\'' :: c :: rest).getLast? = some '\'' := by
    rw [← hrest, ← List.cons_append, List.getLast?_append]
    rfl
  have hinside : (c :: rest).dropLast = escape t := by
    rw [← hrest, List.dropLast_concat]
  rw [hrest, unquote, hinside, resolveBackslashes_escape]
  exact hlast

/-- A text that starts with no quote stands for itself. -/
theorem unquote_of_head? {t : Text} (hdouble : t.head? ≠ some '"') (hsingle : t.head? ≠ some '\'') :
    unquote t = t := by
  unfold unquote
  split
  · exact absurd rfl hdouble
  · exact absurd rfl hsingle
  · rfl

/-- Word characters are plain. -/
theorem isPlain_of_isWord {c : Char} (h : isWord c = true) : isPlain c = true := by
  have hspecial : ['(', ')', ',', '\x7d', '"', '\''].all (fun s => !isWord s) = true := by
    decide +kernel
  rcases isPlain_or c with hc | hc
  · exact hc
  · have hword := List.all_eq_true.mp hspecial c (by simpa using hc)
    rw [h] at hword
    cases hword

/-- A written argument stands for what is meant. -/
theorem unquote_source (a : Argument) : unquote a.source = a.value := by
  cases a with
  | bare word =>
    obtain ⟨c, rest, hword⟩ := List.exists_cons_of_ne_nil word.ne_nil
    have hc : isPlain c = true :=
      isPlain_of_isWord (word.forall_mem c (by rw [hword]; exact List.mem_cons_self))
    rw [Argument.source, Argument.value, hword]
    refine unquote_of_head? ?_ ?_
    · intro h
      cases h
      cases hc
    · intro h
      cases h
      cases hc
  | quoted string => exact unquote_quoted string

/-- A written argument is not empty. -/
theorem Argument.source_ne_nil (a : Argument) : a.source ≠ [] := by
  cases a with
  | bare word => exact word.ne_nil
  | quoted string => exact List.cons_ne_nil _ _

/-- A written argument has no blanks at its ends. -/
theorem Argument.isTrimmed_source (a : Argument) : IsTrimmed a.source := by
  cases a with
  | bare word => exact isTrimmed_of_forall fun c hc => isBlank_of_isWord (word.forall_mem c hc)
  | quoted string => exact isTrimmed_cons_append (by decide) (by decide) (escape string)

/-- The texts between the commas of a text that stands at some depth of parentheses. -/
def cutFrom (depth : Int) (t : Text) : List Text :=
  cutAtCommas (lexemes t).2 depth (lexemes t).1

/-- Cutting goes on behind the first lexeme, which belongs to the first text unless it is a comma
outside parentheses. -/
theorem cutFrom_of_next? {t rest : Text} {l : Lexeme} (h : next? t = some (l, rest)) (depth : Int) :
    cutFrom depth t =
      if l = .comma ∧ depth = 0 then [] :: cutFrom depth rest
      else (cutFrom (depth + l.turn) rest).modifyHead (l.source ++ ·) := by
  have hlexemes : lexemes t = (l :: (lexemes rest).1, (lexemes rest).2) := by
    rw [lexemes]
    split
    · rename_i l' rest' h'
      obtain ⟨rfl, rfl⟩ : l' = l ∧ rest' = rest := by simpa using h'.symm.trans h
      rfl
    · rename_i h'
      rw [h'] at h
      cases h
  rw [cutFrom, hlexemes, cutAtCommas]
  rfl

/-- A lexeme that is no parenthesis and no comma belongs to the first text. -/
theorem cutFrom_of_turn_eq_zero {t rest : Text} {l : Lexeme} (h : next? t = some (l, rest))
    (hcomma : l ≠ .comma) (hturn : l.turn = 0) (depth : Int) :
    cutFrom depth t = (cutFrom depth rest).modifyHead (l.source ++ ·) := by
  rw [cutFrom_of_next? h, if_neg fun hl => hcomma hl.1, hturn, Int.add_zero]

@[simp] theorem cutFrom_nil (depth : Int) : cutFrom depth [] = [[]] := by
  rw [cutFrom, lexemes]
  rfl

/-- A comma outside parentheses ends the first text. -/
theorem cutFrom_comma (t : Text) : cutFrom 0 (',' :: t) = [] :: cutFrom 0 t := by
  have hnext : next? (',' :: t) = some (.comma, t) := rfl
  rw [cutFrom_of_next? hnext, if_pos ⟨rfl, rfl⟩]

/-- A plain character belongs to the first text. -/
theorem cutFrom_of_isPlain {c : Char} (hc : isPlain c = true) (depth : Int) (t : Text) :
    cutFrom depth (c :: t) = (cutFrom depth t).modifyHead (c :: ·) := by
  rw [cutFrom_of_turn_eq_zero (next?_of_isPlain hc t) (by simp) rfl]
  cases t with
  | nil => rfl
  | cons b t =>
    by_cases hb : isPlain b = true
    · rw [cutFrom_of_turn_eq_zero (next?_of_isPlain hb t) (by simp) rfl,
        List.dropWhile_cons_of_pos hb, List.takeWhile_cons_of_pos hb, List.modifyHead_modifyHead]
      rfl
    · rw [List.dropWhile_cons_of_neg hb, List.takeWhile_cons_of_neg hb]
      rfl

/-- A quoted string belongs to the first text. -/
theorem cutFrom_of_takeQuoted {quote : Char} (hquote : quote = '"' ∨ quote = '\'')
    {t string behind : Text} (h : takeQuoted quote t = some (string, behind)) (depth : Int) :
    cutFrom depth (quote :: t) = (cutFrom depth behind).modifyHead ((quote :: string) ++ ·) := by
  have hnext := next?_of_quote hquote t
  rw [h] at hnext
  exact cutFrom_of_turn_eq_zero hnext (by simp) rfl depth

/-- A run of plain characters belongs to the first text. -/
theorem cutFrom_append_of_isPlain {front : Text} (hfront : ∀ c ∈ front, isPlain c = true)
    (depth : Int) (t : Text) :
    cutFrom depth (front ++ t) = (cutFrom depth t).modifyHead (front ++ ·) := by
  induction front with
  | nil =>
    change _ = List.modifyHead id _
    rw [List.modifyHead_id]
    rfl
  | cons c front ih =>
    obtain ⟨hc, hrest⟩ := List.forall_mem_cons.mp hfront
    rw [List.cons_append, cutFrom_of_isPlain hc, ih hrest, List.modifyHead_modifyHead]
    rfl

/-- A written argument belongs to the first text. -/
theorem cutFrom_source_append (a : Argument) (depth : Int) (t : Text) :
    cutFrom depth (a.source ++ t) = (cutFrom depth t).modifyHead (a.source ++ ·) := by
  cases a with
  | bare word =>
    exact cutFrom_append_of_isPlain (fun c hc => isPlain_of_isWord (word.forall_mem c hc)) depth t
  | quoted string =>
    have htake := takeQuoted_escape_append string t
    have hcut := cutFrom_of_takeQuoted (.inr rfl) htake depth
    simpa [Argument.source] using hcut

/-- Written arguments with commas between them. -/
def joinArguments (as : List Argument) : Text :=
  List.intercalate [',', ' '] (as.map Argument.source)

/-- A comma and a blank stand between two arguments. -/
theorem joinArguments_cons_cons (a b : Argument) (as : List Argument) :
    joinArguments (a :: b :: as) = a.source ++ ',' :: ' ' :: joinArguments (b :: as) := by
  simp [joinArguments, List.intercalate_cons_cons]

/-- Joined arguments are cut where they were joined. -/
theorem cutFrom_joinArguments (a : Argument) (as : List Argument) :
    cutFrom 0 (joinArguments (a :: as)) = a.source :: as.map fun b => ' ' :: b.source := by
  induction as generalizing a with
  | nil =>
    have := cutFrom_source_append a 0 []
    simpa [joinArguments] using this
  | cons b as ih =>
    rw [joinArguments_cons_cons, cutFrom_source_append, cutFrom_comma,
      cutFrom_of_isPlain (by decide), ih]
    simp

/-- The arguments of a joined text are those that were joined. -/
theorem splitArguments_joinArguments (as : List Argument) :
    splitArguments (joinArguments as) = as.map Argument.source := by
  have hsplit : splitArguments (joinArguments as) =
      dropBlankLast ((cutFrom 0 (joinArguments as)).map trim) := rfl
  rw [hsplit]
  cases as with
  | nil =>
    rw [joinArguments, List.map_nil, List.intercalate_nil, cutFrom_nil]
    rfl
  | cons a as =>
    have htrim : (a.source :: as.map fun b => ' ' :: b.source).map trim =
        (a :: as).map Argument.source := by
      have hblank (b : Argument) : trim (' ' :: b.source) = b.source :=
        trim_space_cons b.isTrimmed_source
      rw [List.map_cons, trim_of_isTrimmed a.isTrimmed_source, List.map_map, List.map_cons]
      exact congrArg _ (List.map_congr_left fun b _ => hblank b)
    have hlast : ((a :: as).map Argument.source).getLast? ≠ some [] := by
      rw [List.getLast?_map]
      intro h
      obtain ⟨b, -, hb⟩ := Option.map_eq_some_iff.mp h
      exact b.source_ne_nil hb
    rw [cutFrom_joinArguments, htrim, dropBlankLast, if_neg hlast]

namespace IsBody

/-- A run of plain characters may stand in front of a body. -/
theorem plain_append {depth : Int} {front body : Text} (hfront : ∀ c ∈ front, isPlain c = true)
    (h : IsBody depth body) : IsBody depth (front ++ body) := by
  induction front with
  | nil => exact h
  | cons c front ih =>
    obtain ⟨hc, hrest⟩ := List.forall_mem_cons.mp hfront
    exact (ih hrest).plain hc

/-- A written argument may stand in front of a body. -/
theorem source_append (a : Argument) {depth : Int} {body : Text} (h : IsBody depth body) :
    IsBody depth (a.source ++ body) := by
  cases a with
  | bare word => exact h.plain_append fun c hc => isPlain_of_isWord (word.forall_mem c hc)
  | quoted string =>
    have hquoted := h.quoted (.inr rfl) (takeQuoted_escape_append string [])
    simpa [Argument.source] using hquoted

/-- Joined arguments may stand in front of a body. -/
theorem joinArguments_append (as : List Argument) {depth : Int} {body : Text}
    (h : IsBody depth body) : IsBody depth (joinArguments as ++ body) := by
  induction as with
  | nil => exact h
  | cons a as ih =>
    cases as with
    | nil => simpa [joinArguments] using h.source_append a
    | cons b as =>
      have hrest := ((ih.plain (c := ' ') (by decide)).cons (bodyFrom_comma depth)).source_append a
      simpa [joinArguments_cons_cons] using hrest

end IsBody

end Marginalia.Template
