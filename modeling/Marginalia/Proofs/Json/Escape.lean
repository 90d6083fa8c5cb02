import Marginalia.Json.Escape

/-!
# Escaped strings

Each character of a text is escaped on its own, and the readers take its written form whole,
whatever stands behind it. So the written form of a text ends at the quote that is put behind it,
and the text is read back from it.
-/

namespace Marginalia.Json

open Text

/-- The digit of a number below sixteen has its value. -/
theorem hexValue?_hexDigit : ∀ n < 16, hexValue? (hexDigit n) = some n := by decide

/-- Two digits behind two zeros write a number below two hundred and fifty-six. -/
theorem codeUnit?_hexDigit {n : Nat} (h : n < 256) :
    codeUnit? '0' '0' (hexDigit (n / 16)) (hexDigit (n % 16)) = some n := by
  have hzero : hexValue? '0' = some 0 := by decide
  have hhigh : hexValue? (hexDigit (n / 16)) = some (n / 16) := hexValue?_hexDigit _ (by omega)
  have hlow : hexValue? (hexDigit (n % 16)) = some (n % 16) := hexValue?_hexDigit _ (by omega)
  have hsum : ((0 * 16 + 0) * 16 + n / 16) * 16 + n % 16 = n := by omega
  rw [codeUnit?, hzero, hhigh, hlow]
  exact congrArg some hsum

/-- The written form of a character: a backslash and a letter, a number, or the character. -/
theorem escapeChar_cases (c : Char) :
    (∃ e, escapeChar c = ['\\', e] ∧ shortEscape? e = some c ∧ e ≠ 'u') ∨
    (c.toNat < 0x20 ∧ escapeChar c =
      ['\\', 'u', '0', '0', hexDigit (c.toNat / 16), hexDigit (c.toNat % 16)]) ∨
    (¬ c.toNat < 0x20 ∧ c ≠ '"' ∧ c ≠ '\\' ∧ escapeChar c = [c]) := by
  unfold escapeChar
  split
  · exact .inl ⟨'"', rfl, rfl, by decide⟩
  · exact .inl ⟨'\\', rfl, rfl, by decide⟩
  · exact .inl ⟨'b', rfl, rfl, by decide⟩
  · exact .inl ⟨'f', rfl, rfl, by decide⟩
  · exact .inl ⟨'n', rfl, rfl, by decide⟩
  · exact .inl ⟨'r', rfl, rfl, by decide⟩
  · exact .inl ⟨'t', rfl, rfl, by decide⟩
  · split
    · exact .inr (.inl ⟨by assumption, rfl⟩)
    · exact .inr (.inr ⟨by assumption, by assumption, by assumption, rfl⟩)

/-- The written form of a character belongs to the string whose body goes on behind it. -/
theorem takeString_escapeChar_append (c : Char) (t : Text) :
    takeString (escapeChar c ++ t) =
      (takeString t).map fun (body, behind) => (escapeChar c ++ body, behind) := by
  rcases escapeChar_cases c with ⟨e, he, hshort, hu⟩ | ⟨hlow, he⟩ | ⟨hhigh, hquote, hback, he⟩
  · simp only [he, List.cons_append, List.nil_append]
    rw [takeString.eq_4 e t fun _ _ _ _ _ h _ => hu h, hshort]
  · simp only [he, List.cons_append, List.nil_append]
    rw [takeString, codeUnit?_hexDigit (by omega)]
  · simp only [he, List.cons_append, List.nil_append]
    rw [takeString.eq_5 c t hquote (fun _ _ _ _ _ h _ => hback h) fun _ _ h _ => hback h,
      if_neg (not_or.mpr ⟨hhigh, hback⟩)]

/-- The written form of a text ends at the quote behind it. -/
theorem takeString_escape_append (t rest : Text) :
    takeString (escape t ++ '"' :: rest) = some (escape t, rest) := by
  induction t with
  | nil => rfl
  | cons c t ih =>
    have hescape : escape (c :: t) = escapeChar c ++ escape t := List.flatMap_cons
    rw [hescape, List.append_assoc, takeString_escapeChar_append, ih]
    rfl

/-- A text that starts with the number of no code unit is no written form. -/
theorem unescape?_eq_none {a b c d : Char} (h : codeUnit? a b c d = none) (t : Text) :
    unescape? ('\\' :: 'u' :: a :: b :: c :: d :: t) = none := by
  by_cases hpair : ∃ e f g k rest, t = '\\' :: 'u' :: e :: f :: g :: k :: rest
  · obtain ⟨e, f, g, k, rest, rfl⟩ := hpair
    rw [unescape?, h]
  · rw [unescape?.eq_3 _ _ _ _ _ fun e f g k rest ht => hpair ⟨e, f, g, k, rest, ht⟩, h]

/-- The number of a code unit that is no half of a pair is read as its character. -/
theorem unescape?_codeUnit {a b c d : Char} {n : Nat} (h : codeUnit? a b c d = some n)
    (hhigh : isHighSurrogate n = false) (hlow : isLowSurrogate n = false) (t : Text) :
    unescape? ('\\' :: 'u' :: a :: b :: c :: d :: t) =
      (unescape? t).map (Char.ofNat n :: ·) := by
  by_cases hpair : ∃ e f g k rest, t = '\\' :: 'u' :: e :: f :: g :: k :: rest
  · obtain ⟨e, f, g, k, rest, rfl⟩ := hpair
    rw [unescape?, h]
    cases hnext : codeUnit? e f g k with
    | none => rw [unescape?_eq_none hnext, Option.map_none]
    | some m => simp only [hhigh, hlow, Bool.false_eq_true, if_false]
  · rw [unescape?.eq_3 _ _ _ _ _ fun e f g k rest ht => hpair ⟨e, f, g, k, rest, ht⟩, h]
    simp only [hhigh, hlow, Bool.or_false, Bool.false_eq_true, if_false]

/-- The written form of a character is read as the character, whatever stands behind it. -/
theorem unescape?_escapeChar_append (c : Char) (t : Text) :
    unescape? (escapeChar c ++ t) = (unescape? t).map (c :: ·) := by
  rcases escapeChar_cases c with ⟨e, he, hshort, hu⟩ | ⟨hlow, he⟩ | ⟨-, -, hback, he⟩
  · simp only [he, List.cons_append, List.nil_append]
    rw [unescape?.eq_4 e t (fun _ _ _ _ _ _ _ _ _ h _ => hu h) fun _ _ _ _ _ h _ => hu h, hshort]
  · have hnohigh : isHighSurrogate c.toNat = false := by
      simp only [isHighSurrogate, Bool.and_eq_false_iff, decide_eq_false_iff_not]
      omega
    have hnolow : isLowSurrogate c.toNat = false := by
      simp only [isLowSurrogate, Bool.and_eq_false_iff, decide_eq_false_iff_not]
      omega
    simp only [he, List.cons_append, List.nil_append]
    rw [unescape?_codeUnit (codeUnit?_hexDigit (by omega)) hnohigh hnolow, Char.ofNat_toNat]
  · simp only [he, List.cons_append, List.nil_append]
    rw [unescape?.eq_5 c t (fun _ _ _ _ _ _ _ _ _ h _ => hback h)
      (fun _ _ _ _ _ h _ => hback h) fun _ _ h _ => hback h]

/-- A text is read back from its written form. -/
theorem unescape?_escape (t : Text) : unescape? (escape t) = some t := by
  induction t with
  | nil => rfl
  | cons c t ih =>
    have hescape : escape (c :: t) = escapeChar c ++ escape t := List.flatMap_cons
    rw [hescape, unescape?_escapeChar_append, ih]
    rfl

end Marginalia.Json
