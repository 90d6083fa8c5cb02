import Marginalia.Text.Basic

/-!
# Strings of TOML

A string stands between double quotes, where a backslash escapes, or between single quotes, where
nothing does. Three quotes at either end make a string that may run over lines: a line break right
behind the opening quotes is no part of it, and up to two quotes may stand before the closing ones.
Every reader starts behind the opening quotes and returns what follows the closing ones.
-/

namespace Marginalia.Toml

/-- Whether a character may stand in a line of text: no control character but the tab. -/
def isPlain (c : Char) : Bool :=
  c == '\t' || (0x20 ≤ c.toNat && c.toNat ≠ 0x7F)

/-- The text behind a line break. -/
def afterBreak? : Text → Option Text
  | '\n' :: rest => some rest
  | '\r' :: '\n' :: rest => some rest
  | _ => none

/-- A line break makes a text shorter. -/
theorem length_lt_of_afterBreak? {t rest : Text} (h : afterBreak? t = some rest) :
    rest.length < t.length := by
  rw [afterBreak?.eq_def] at h
  split at h
  · obtain rfl := Option.some.inj h
    simp
  · obtain rfl := Option.some.inj h
    simp only [List.length_cons]
    omega
  · simp at h

/-- The character of a backslash escape of one letter. -/
def escaped? : Char → Option Char
  | 'b' => some '\x08'
  | 't' => some '\t'
  | 'n' => some '\n'
  | 'f' => some '\x0c'
  | 'r' => some '\r'
  | 'e' => some '\x1b'
  | '"' => some '"'
  | '\\' => some '\\'
  | _ => none

/-- The number of digits of an escape by number. -/
def escapeWidth? : Char → Option Nat
  | 'x' => some 2
  | 'u' => some 4
  | 'U' => some 8
  | _ => none

/-- The character with the number that digits write in base sixteen. -/
def charOf? (digits : Text) : Option Char := do
  let n ← digits.foldlM (fun n c => (Text.hexValue? c).map (16 * n + ·)) 0
  if n.isValidChar then some (Char.ofNat n) else none

/-- The character of the escape behind a backslash, and what follows the escape. -/
def takeEscape : Text → Option (Char × Text)
  | [] => none
  | c :: rest =>
    match escapeWidth? c with
    | some width =>
      if width ≤ rest.length then
        (charOf? (rest.take width)).map fun value => (value, rest.drop width)
      else none
    | none => (escaped? c).map fun value => (value, rest)

/-- An escape makes a text shorter. -/
theorem length_lt_of_takeEscape {t rest : Text} {c : Char} (h : takeEscape t = some (c, rest)) :
    rest.length < t.length := by
  cases t with
  | nil => simp [takeEscape] at h
  | cons d t =>
    rw [takeEscape] at h
    split at h
    · split at h
      · obtain ⟨_, _, he⟩ := Option.map_eq_some_iff.1 h
        obtain rfl := (Prod.mk.inj he).2
        simp only [List.length_drop, List.length_cons]
        omega
      · simp at h
    · obtain ⟨_, _, he⟩ := Option.map_eq_some_iff.1 h
      obtain rfl := (Prod.mk.inj he).2
      simp

/-- A string in double quotes. -/
def takeBasic : Text → Option (Text × Text)
  | [] => none
  | '"' :: rest => some ([], rest)
  | '\\' :: rest =>
    match _h : takeEscape rest with
    | some (c, more) => (takeBasic more).map fun (body, behind) => (c :: body, behind)
    | none => none
  | c :: rest =>
    if isPlain c then (takeBasic rest).map fun (body, behind) => (c :: body, behind) else none
termination_by t => t.length
decreasing_by
  · have := length_lt_of_takeEscape _h
    simp only [List.length_cons]
    omega
  · simp

/-- A string in single quotes. -/
def takeLiteral : Text → Option (Text × Text)
  | [] => none
  | '\'' :: rest => some ([], rest)
  | c :: rest =>
    if isPlain c then (takeLiteral rest).map fun (body, behind) => (c :: body, behind) else none

/-- The end of a string over lines at three or more quotes: up to two of them are its last
characters. -/
def closeQuotes (quote : Char) (t : Text) : Option (Text × Text) :=
  let count := min 5 (t.takeWhile (· == quote)).length
  if 3 ≤ count then some (List.replicate (count - 3) quote, t.drop count) else none

/-- The text behind the blanks and line breaks that follow an escaped line break. -/
def skipBroken : Text → Text
  | ' ' :: rest => skipBroken rest
  | '\t' :: rest => skipBroken rest
  | '\n' :: rest => skipBroken rest
  | '\r' :: '\n' :: rest => skipBroken rest
  | t => t

/-- What follows an escaped line break never grows. -/
theorem length_skipBroken_le (t : Text) : (skipBroken t).length ≤ t.length := by
  fun_induction skipBroken t <;> simp_all <;> omega

/-- The text behind an escaped line break, which may have blanks before it. -/
def afterBroken? (t : Text) : Option Text :=
  (afterBreak? (t.dropWhile fun c => c == ' ' || c == '\t')).map skipBroken

/-- An escaped line break makes a text shorter. -/
theorem length_lt_of_afterBroken? {t rest : Text} (h : afterBroken? t = some rest) :
    rest.length < t.length := by
  obtain ⟨u, hu, rfl⟩ := Option.map_eq_some_iff.1 h
  have hd := (List.dropWhile_sublist (l := t) fun c => c == ' ' || c == '\t').length_le
  have hs := length_skipBroken_le u
  have hb := length_lt_of_afterBreak? hu
  omega

/-- A string over lines in double quotes. -/
def takeLongBasic (t : Text) : Option (Text × Text) :=
  match closeQuotes '"' t with
  | some closed => some closed
  | none =>
    match t with
    | [] => none
    | '\\' :: rest =>
      match _h : afterBroken? rest with
      | some more => takeLongBasic more
      | none =>
        match _h : takeEscape rest with
        | some (c, more) => (takeLongBasic more).map fun (body, behind) => (c :: body, behind)
        | none => none
    | '\r' :: '\n' :: rest =>
      (takeLongBasic rest).map fun (body, behind) => ('\r' :: '\n' :: body, behind)
    | c :: rest =>
      if isPlain c ∨ c = '\n' then
        (takeLongBasic rest).map fun (body, behind) => (c :: body, behind)
      else none
termination_by t.length
decreasing_by
  · have := length_lt_of_afterBroken? _h
    simp only [List.length_cons]
    omega
  · have := length_lt_of_takeEscape _h
    simp only [List.length_cons]
    omega
  · simp only [List.length_cons]
    omega
  · simp

/-- A string over lines in single quotes. -/
def takeLongLiteral (t : Text) : Option (Text × Text) :=
  match closeQuotes '\'' t with
  | some closed => some closed
  | none =>
    match t with
    | [] => none
    | '\r' :: '\n' :: rest =>
      (takeLongLiteral rest).map fun (body, behind) => ('\r' :: '\n' :: body, behind)
    | c :: rest =>
      if isPlain c ∨ c = '\n' then
        (takeLongLiteral rest).map fun (body, behind) => (c :: body, behind)
      else none

/-- The text of a string over lines, without a line break at its front. -/
def withoutBreak (t : Text) : Text :=
  (afterBreak? t).getD t

/-- A string, if the text starts with a quote. -/
def takeString : Text → Option (Text × Text)
  | '"' :: '"' :: '"' :: rest => takeLongBasic (withoutBreak rest)
  | '\'' :: '\'' :: '\'' :: rest => takeLongLiteral (withoutBreak rest)
  | '"' :: rest => takeBasic rest
  | '\'' :: rest => takeLiteral rest
  | _ => none

end Marginalia.Toml
