import Marginalia.Text.Basic

/-!
# Lexemes of an expression

The inside of an expression is read as brackets, commas, closing braces, quoted strings and plain
runs. The lexemes of a text and the part that is left over make up the text; something is left
over exactly where a quote opens that never closes. Inside quotes a backslash protects the
character behind it, which may be any but a line feed.
-/

namespace Marginalia.Template

open Text

/-- A lexeme. A quoted string is kept with its quotes. -/
inductive Lexeme
  | close
  | brace
  | openParen
  | closeParen
  | comma
  | quoted (source : Text)
  | plain (source : Text)
deriving DecidableEq

/-- Two closing braces, which end an expression. -/
def closingBraces : Text :=
  ['\x7d', '\x7d']

/-- The text of a lexeme. -/
def Lexeme.source : Lexeme → Text
  | close => closingBraces
  | brace => ['\x7d']
  | openParen => ['(']
  | closeParen => [')']
  | comma => [',']
  | quoted source => source
  | plain source => source

/-- How much deeper in parentheses the text stands behind a lexeme. -/
def Lexeme.turn : Lexeme → Int
  | openParen => 1
  | closeParen => -1
  | _ => 0

/-- A character of a plain run: no bracket, comma or quote. -/
def isPlain (c : Char) : Bool :=
  c != '\x7d' && c != '(' && c != ')' && c != ',' && c != '"' && c != '\''

/-- What stands behind an opening quote up to and with the closing one, and what follows. -/
def takeQuoted (quote : Char) : Text → Option (Text × Text)
  | [] => none
  | '\\' :: c :: rest =>
    if c = '\n' then none
    else (takeQuoted quote rest).map fun (body, behind) => ('\\' :: c :: body, behind)
  | c :: rest =>
    if c = quote then some ([c], rest)
    else if c = '\\' then none
    else (takeQuoted quote rest).map fun (body, behind) => (c :: body, behind)

/-- A quoted string and what follows it make up the text. -/
theorem append_of_takeQuoted {quote : Char} {t body behind : Text}
    (h : takeQuoted quote t = some (body, behind)) : body ++ behind = t := by
  fun_induction takeQuoted quote t generalizing body with
  | case1 => simp at h
  | case2 => simp at h
  | case3 c rest _ ih =>
    obtain ⟨⟨b, r⟩, hb, he⟩ := Option.map_eq_some_iff.1 h
    obtain ⟨rfl, rfl⟩ : '\\' :: c :: b = body ∧ r = behind := by simpa using he
    simp [ih hb]
  | case4 =>
    simp only [Option.some.injEq, Prod.mk.injEq] at h
    obtain ⟨rfl, rfl⟩ := h
    rfl
  | case5 => simp at h
  | case6 c rest _ _ _ ih =>
    obtain ⟨⟨b, r⟩, hb, he⟩ := Option.map_eq_some_iff.1 h
    obtain ⟨rfl, rfl⟩ : c :: b = body ∧ r = behind := by simpa using he
    simp [ih hb]

/-- The first lexeme of a text and what follows it. There is none at the end of the text and at a
quote that never closes. -/
def next? : Text → Option (Lexeme × Text)
  | [] => none
  | '\x7d' :: '\x7d' :: rest => some (.close, rest)
  | '\x7d' :: rest => some (.brace, rest)
  | '(' :: rest => some (.openParen, rest)
  | ')' :: rest => some (.closeParen, rest)
  | ',' :: rest => some (.comma, rest)
  | c :: rest =>
    if c = '"' ∨ c = '\'' then
      (takeQuoted c rest).map fun (body, behind) => (.quoted (c :: body), behind)
    else some (.plain (c :: rest.takeWhile isPlain), rest.dropWhile isPlain)

/-- A lexeme is not empty, and with what follows it, it makes up the text. -/
theorem source_append_of_next? {t rest : Text} {l : Lexeme} (h : next? t = some (l, rest)) :
    l.source ≠ [] ∧ l.source ++ rest = t := by
  fun_cases next? t with
  | case1 => simp [next?] at h
  | case2 r =>
    obtain ⟨rfl, rfl⟩ : Lexeme.close = l ∧ r = rest := by simpa [next?] using h
    simp [Lexeme.source, closingBraces]
  | case3 r hr =>
    rw [next?.eq_3 _ hr] at h
    obtain ⟨rfl, rfl⟩ : Lexeme.brace = l ∧ r = rest := by simpa using h
    simp [Lexeme.source]
  | case4 r =>
    obtain ⟨rfl, rfl⟩ : Lexeme.openParen = l ∧ r = rest := by simpa [next?] using h
    simp [Lexeme.source]
  | case5 r =>
    obtain ⟨rfl, rfl⟩ : Lexeme.closeParen = l ∧ r = rest := by simpa [next?] using h
    simp [Lexeme.source]
  | case6 r =>
    obtain ⟨rfl, rfl⟩ : Lexeme.comma = l ∧ r = rest := by simpa [next?] using h
    simp [Lexeme.source]
  | case7 c r _ _ _ _ _ hq =>
    rw [next?, if_pos hq] at h <;> try assumption
    obtain ⟨⟨b, u⟩, hb, he⟩ := Option.map_eq_some_iff.1 h
    obtain ⟨rfl, rfl⟩ : Lexeme.quoted (c :: b) = l ∧ u = rest := by simpa using he
    simp [Lexeme.source, append_of_takeQuoted hb]
  | case8 c r _ _ _ _ _ hq =>
    rw [next?, if_neg hq] at h <;> try assumption
    obtain ⟨rfl, rfl⟩ : Lexeme.plain (c :: r.takeWhile isPlain) = l ∧
        r.dropWhile isPlain = rest := by simpa using h
    simp [Lexeme.source, List.takeWhile_append_dropWhile]

/-- A lexeme leaves less text. -/
theorem length_lt_of_next? {t rest : Text} {l : Lexeme} (h : next? t = some (l, rest)) :
    rest.length < t.length := by
  obtain ⟨hne, ht⟩ := source_append_of_next? h
  have hpos := List.length_pos_iff.2 hne
  rw [← ht, List.length_append]
  omega

/-- The lexemes of a text up to its end or to a quote that never closes, and what is left. -/
def lexemes (t : Text) : List Lexeme × Text :=
  match _h : next? t with
  | some (l, rest) =>
    let (more, left) := lexemes rest
    (l :: more, left)
  | none => ([], t)
termination_by t.length
decreasing_by exact length_lt_of_next? _h

/-- The text before the closing braces outside parentheses, for a text that stands at some depth of
parentheses, if there are such braces before a quote that never closes. -/
def bodyFrom (depth : Int) (t : Text) : Option Text :=
  match _h : next? t with
  | some (l, rest) =>
    if l = .close ∧ depth = 0 then some []
    else (bodyFrom (depth + l.turn) rest).map (l.source ++ ·)
  | none => none
termination_by t.length
decreasing_by exact length_lt_of_next? _h

/-- The body of an expression whose inside the text starts with, if the expression is closed. -/
def body? (t : Text) : Option Text :=
  bodyFrom 0 t

/-- The texts between the commas outside parentheses, for lexemes that stand at some depth of
parentheses; what the lexemes leave over belongs to the last text. -/
def cutAtCommas (left : Text) : Int → List Lexeme → List Text
  | _, [] => [left]
  | depth, l :: rest =>
    if l = .comma ∧ depth = 0 then [] :: cutAtCommas left depth rest
    else (cutAtCommas left (depth + l.turn) rest).modifyHead (l.source ++ ·)

end Marginalia.Template
