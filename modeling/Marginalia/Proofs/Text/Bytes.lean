import Mathlib.Algebra.Group.Nat.Defs
import Mathlib.Tactic.ByContra
import Mathlib.Tactic.SplitIfs
import Marginalia.Text.Bytes

/-!
# Bytes read as texts

The form of a text is read as the text, so it stands for no other one. A byte of ASCII is read by
itself wherever it stands, and nothing else is read as its character, so bytes can be cut at it
before they are read or behind.
-/

namespace Marginalia

variable {b : UInt8} {c : Char} {t u : Text} {x y : Bytes} {state : Option Bytes.OpenChar}

namespace Text

@[simp] theorem utf8_nil : utf8 [] = [] := rfl

@[simp] theorem utf8_append (t u : Text) : utf8 (t ++ u) = utf8 t ++ utf8 u :=
  List.flatMap_append

theorem utf8_cons (c : Char) (t : Text) : utf8 (c :: t) = String.utf8EncodeChar c ++ utf8 t :=
  List.flatMap_cons

end Text

/-- The byte of a character of ASCII. -/
def byteOf (c : Char) : UInt8 :=
  UInt8.ofNat c.toNat

/-- The form of a character of ASCII is its byte. -/
theorem utf8EncodeChar_of_lt (hc : c.toNat < 0x80) : String.utf8EncodeChar c = [byteOf c] := by
  have hle : c.val.toNat ≤ 0x7f := Nat.le_of_lt_succ hc
  rw [String.utf8EncodeChar, if_pos hle]
  rfl

theorem toNat_byteOf (hc : c.toNat < 0x80) : (byteOf c).toNat = c.toNat := by
  rw [byteOf, UInt8.toNat_ofNat', Nat.mod_eq_of_lt (by omega)]

/-- The bytes of other characters are not of ASCII. -/
theorem le_of_mem_utf8EncodeChar (hc : ¬c.toNat < 0x80) (hb : b ∈ String.utf8EncodeChar c) :
    0x80 ≤ b.toNat := by
  have hgt : ¬c.val.toNat ≤ 0x7f := fun hle => hc (Nat.lt_succ_of_le hle)
  rw [String.utf8EncodeChar, if_neg hgt] at hb
  split_ifs at hb <;> simp only [List.mem_cons, List.not_mem_nil, or_false] at hb
  · rcases hb with rfl | rfl <;> simp only [UInt8.toNat_ofNat'] <;> omega
  · rcases hb with rfl | rfl | rfl <;> simp only [UInt8.toNat_ofNat'] <;> omega
  · rcases hb with rfl | rfl | rfl | rfl <;> simp only [UInt8.toNat_ofNat'] <;> omega

/-- A text has a character of ASCII exactly when its form has the byte. -/
theorem byteOf_mem_utf8_iff (hc : c.toNat < 0x80) : byteOf c ∈ t.utf8 ↔ c ∈ t := by
  rw [Text.utf8, List.mem_flatMap]
  constructor
  · rintro ⟨d, hd, hmem⟩
    have hlt : d.toNat < 0x80 := by
      by_contra hd
      have hle := le_of_mem_utf8EncodeChar hd hmem
      rw [toNat_byteOf hc] at hle
      omega
    rw [utf8EncodeChar_of_lt hlt, List.mem_singleton] at hmem
    have hsame := congrArg UInt8.toNat hmem
    rw [toNat_byteOf hc, toNat_byteOf hlt] at hsame
    rwa [Char.toNat_inj.mp hsame]
  · intro hmem
    exact ⟨c, hmem, by rw [utf8EncodeChar_of_lt hc]; exact List.mem_singleton_self _⟩

namespace Bytes

/-! ## Forms of texts -/

theorem step_none (hb : 0x80 ≤ b.toNat) : step none b = first b.toNat :=
  if_neg (Nat.not_lt.mpr hb)

theorem step_some (o : OpenChar) (hb : 0x80 ≤ b.toNat) : step (some o) b = o.goOn b.toNat :=
  if_neg (Nat.not_lt.mpr hb)

/-- A first byte of two. -/
theorem first_two {n : Nat} (hlow : 0xC2 ≤ n) (hhigh : n < 0xE0) :
    first n = ([], some ⟨n - 0xC0, 0, 0x80, 0xBF⟩) := by
  rw [first, if_neg (by omega), if_pos hhigh]

/-- A first byte of three. -/
theorem first_three {n : Nat} (hlow : 0xE0 ≤ n) (hhigh : n < 0xF0) :
    first n = ([], some ⟨n - 0xE0, 1, if n = 0xE0 then 0xA0 else 0x80,
      if n = 0xED then 0x9F else 0xBF⟩) := by
  rw [first, if_neg (by omega), if_neg (by omega), if_pos hhigh]

/-- A first byte of four. -/
theorem first_four {n : Nat} (hlow : 0xF0 ≤ n) (hhigh : n < 0xF5) :
    first n = ([], some ⟨n - 0xF0, 2, if n = 0xF0 then 0x90 else 0x80,
      if n = 0xF4 then 0x8F else 0xBF⟩) := by
  rw [first, if_neg (by omega), if_neg (by omega), if_neg (by omega), if_pos hhigh]

/-- A byte that opens a character. -/
theorem readFrom_first {n : Nat} {o : OpenChar} (hn : n < 0x100) (hlow : 0x80 ≤ n)
    (h : first n = ([], some o)) (rest : Bytes) :
    readFrom none (UInt8.ofNat n :: rest) = readFrom (some o) rest := by
  have hb : (UInt8.ofNat n).toNat = n := by rw [UInt8.toNat_ofNat', Nat.mod_eq_of_lt hn]
  rw [readFrom, step_none (by rwa [hb]), hb, h]
  rfl

/-- A byte that goes on with an open character and does not end it. -/
theorem readFrom_next {value owed least greatest n : Nat} (hn : n < 0x100) (hlow : 0x80 ≤ n)
    (hleast : least ≤ n) (hgreatest : n ≤ greatest) (rest : Bytes) :
    readFrom (some ⟨value, owed + 1, least, greatest⟩) (UInt8.ofNat n :: rest) =
      readFrom (some ⟨64 * value + (n - 0x80), owed, 0x80, 0xBF⟩) rest := by
  have hb : (UInt8.ofNat n).toNat = n := by rw [UInt8.toNat_ofNat', Nat.mod_eq_of_lt hn]
  rw [readFrom, step_some _ (by rwa [hb]), hb, OpenChar.goOn, if_pos ⟨hleast, hgreatest⟩]
  rfl

/-- A byte that goes on with an open character and ends it. -/
theorem readFrom_last {value least greatest n : Nat} (hn : n < 0x100) (hlow : 0x80 ≤ n)
    (hleast : least ≤ n) (hgreatest : n ≤ greatest) (rest : Bytes) :
    readFrom (some ⟨value, 0, least, greatest⟩) (UInt8.ofNat n :: rest) =
      some (Char.ofNat (64 * value + (n - 0x80))) :: readFrom none rest := by
  have hb : (UInt8.ofNat n).toNat = n := by rw [UInt8.toNat_ofNat', Nat.mod_eq_of_lt hn]
  rw [readFrom, step_some _ (by rwa [hb]), hb, OpenChar.goOn, if_pos ⟨hleast, hgreatest⟩]
  rfl

/-- The form of a character is read as the character. -/
theorem readFrom_utf8EncodeChar (c : Char) (rest : Bytes) :
    readFrom none (String.utf8EncodeChar c ++ rest) = some c :: readFrom none rest := by
  have hvalid : c.val.toNat < 0xD800 ∨ 0xDFFF < c.val.toNat ∧ c.val.toNat < 0x110000 := c.valid
  have hc {n : Nat} (hn : n = c.val.toNat) : Char.ofNat n = c := by
    rw [hn]
    exact Char.ofNat_toNat c
  generalize hv : c.val.toNat = v at hvalid hc
  rw [String.utf8EncodeChar, hv]
  split_ifs with h₁ h₂ h₃
  · have hb : (UInt8.ofNat v).toNat = v := by rw [UInt8.toNat_ofNat', Nat.mod_eq_of_lt (by omega)]
    rw [List.singleton_append, readFrom, step, hb, if_pos (by omega), hc rfl]
    rfl
  · rw [List.cons_append, List.singleton_append,
      readFrom_first (by omega) (by omega) (first_two (by omega) (by omega)),
      readFrom_last (by omega) (by omega) (by omega) (by omega), hc (by omega)]
  · rw [List.cons_append, List.cons_append, List.singleton_append,
      readFrom_first (by omega) (by omega) (first_three (by omega) (by omega)),
      readFrom_next (by omega) (by omega) (by split_ifs <;> omega) (by split_ifs <;> omega),
      readFrom_last (by omega) (by omega) (by omega) (by omega), hc (by omega)]
  · rw [List.cons_append, List.cons_append, List.cons_append, List.singleton_append,
      readFrom_first (by omega) (by omega) (first_four (by omega) (by omega)),
      readFrom_next (by omega) (by omega) (by split_ifs <;> omega) (by split_ifs <;> omega),
      readFrom_next (by omega) (by omega) (by omega) (by omega),
      readFrom_last (by omega) (by omega) (by omega) (by omega), hc (by omega)]

/-- The form of a text is read as the text. -/
@[simp] theorem lossy_utf8 (t : Text) : lossy t.utf8 = t := by
  have hread : readFrom none t.utf8 = t.map some := by
    induction t with
    | nil => rfl
    | cons c t ih => rw [Text.utf8_cons, readFrom_utf8EncodeChar, ih, List.map_cons]
  rw [lossy, hread, List.map_map]
  exact List.map_id t

/-- Bytes are the form of at most one text. -/
theorem text?_eq_some_iff : x.text? = some t ↔ x = t.utf8 := by
  rw [text?]
  split_ifs with hsame
  · constructor
    · intro h
      rw [← Option.some.inj h, hsame]
    · rintro rfl
      rw [lossy_utf8]
  · refine iff_of_false (fun h => by cases h) ?_
    rintro rfl
    exact hsame (by rw [lossy_utf8])

@[simp] theorem text?_utf8 (t : Text) : text? t.utf8 = some t :=
  text?_eq_some_iff.mpr rfl

/-- Different texts have different forms. -/
theorem utf8_inj : t.utf8 = u.utf8 ↔ t = u := by
  constructor
  · intro h
    rw [← lossy_utf8 t, h, lossy_utf8]
  · rintro rfl
    rfl

/-! ## Bytes of ASCII -/

/-- A byte of ASCII is read by itself. -/
theorem step_of_lt (hb : b.toNat < 0x80) :
    step state b = (cutOff state ++ [some (Char.ofNat b.toNat)], none) :=
  if_pos hb

/-- Bytes are read up to a byte of ASCII and behind it. -/
theorem readFrom_append_cons (hb : b.toNat < 0x80) (x y : Bytes) :
    readFrom state (x ++ b :: y) =
      readFrom state x ++ some (Char.ofNat b.toNat) :: readFrom none y := by
  induction x generalizing state with
  | nil =>
    rw [List.nil_append, readFrom, readFrom, step_of_lt hb, List.append_assoc,
      List.singleton_append]
  | cons a x ih => rw [List.cons_append, readFrom, ih, readFrom, List.append_assoc]

/-- Bytes can be cut at a byte of ASCII before or after they are read. -/
theorem lossy_append_cons (hc : c.toNat < 0x80) (x y : Bytes) :
    lossy (x ++ byteOf c :: y) = lossy x ++ c :: lossy y := by
  have hb : (byteOf c).toNat < 0x80 := by rwa [toNat_byteOf hc]
  rw [lossy, readFrom_append_cons hb, toNat_byteOf hc, Char.ofNat_toNat, List.map_append,
    List.map_cons]
  rfl

/-- Whether all that an open character can become are characters, and none of them is of ASCII. -/
structure OpenChar.IsSound (o : OpenChar) : Prop where
  least : 0x80 ≤ o.least
  notAscii : 0x80 ≤ (64 * o.value + (o.least - 0x80)) * 64 ^ o.owed
  valid : (64 * o.value + (o.greatest - 0x80) + 1) * 64 ^ o.owed ≤ 0xD800 ∨
    0xE000 ≤ (64 * o.value + (o.least - 0x80)) * 64 ^ o.owed ∧
      (64 * o.value + (o.greatest - 0x80) + 1) * 64 ^ o.owed ≤ 0x110000

/-- Whether what a byte makes and opens are no characters of ASCII, and it is not nothing. -/
structure IsBeyondAscii (out : List (Option Char) × Option OpenChar) : Prop where
  made : ∀ d, some d ∈ out.1 → 0x80 ≤ d.toNat
  opened : ∀ o ∈ out.2, o.IsSound
  something : out.1 ≠ [] ∨ out.2.isSome

/-- A byte that is broken by itself makes no character. -/
theorem isBeyondAscii_broken : IsBeyondAscii ([none], none) :=
  ⟨by simp, by simp, .inl (List.cons_ne_nil _ _)⟩

/-- A byte may open a character. -/
theorem OpenChar.IsSound.isBeyondAscii {o : OpenChar} (h : o.IsSound) :
    IsBeyondAscii ([], some o) :=
  ⟨by simp, by simpa using h, .inr rfl⟩

/-- A first byte is broken or opens a character that is not of ASCII. -/
theorem isBeyondAscii_first (n : Nat) : IsBeyondAscii (first n) := by
  rw [first]
  split
  · exact isBeyondAscii_broken
  split
  · exact OpenChar.IsSound.isBeyondAscii ⟨by dsimp only; omega, by dsimp only; omega,
      by dsimp only; omega⟩
  split
  · refine OpenChar.IsSound.isBeyondAscii ⟨?_, ?_, ?_⟩ <;> dsimp only <;> split_ifs <;> omega
  split
  · refine OpenChar.IsSound.isBeyondAscii ⟨?_, ?_, ?_⟩ <;> dsimp only <;> split_ifs <;> omega
  · exact isBeyondAscii_broken

/-- A number of a character is that of the character that it makes. -/
theorem toNat_ofNat_of_isValidChar {n : Nat} (h : n.isValidChar) : (Char.ofNat n).toNat = n := by
  rw [Char.ofNat, dif_pos h]
  rfl

/-- Behind an open character, a byte makes and opens no character of ASCII. -/
theorem OpenChar.IsSound.isBeyondAscii_goOn {o : OpenChar} (h : o.IsSound) (n : Nat) :
    IsBeyondAscii (o.goOn n) := by
  obtain ⟨hleast, hascii, hvalid⟩ := h
  have hfirst := isBeyondAscii_first n
  rw [goOn]
  split
  · rename_i hgoes
    generalize hvalue : 64 * o.value + (n - 0x80) = value
    -- what the character can become lies between what it can become with the other bytes
    have hlow : (64 * o.value + (o.least - 0x80)) * 64 ^ o.owed ≤ value * 64 ^ o.owed :=
      Nat.mul_le_mul_right _ (by omega)
    have hhigh : (value + 1) * 64 ^ o.owed ≤
        (64 * o.value + (o.greatest - 0x80) + 1) * 64 ^ o.owed :=
      Nat.mul_le_mul_right _ (by omega)
    cases howed : o.owed with
    | zero =>
      rw [howed, Nat.pow_zero] at hlow hhigh hascii hvalid
      have hchar : value.isValidChar := by
        rw [Nat.isValidChar]
        omega
      refine ⟨fun d hd => ?_, by simp, .inl (List.cons_ne_nil _ _)⟩
      obtain rfl : d = Char.ofNat value := by simpa using hd
      rw [toNat_ofNat_of_isValidChar hchar]
      omega
    | succ owed =>
      have hpow (k k' : Nat) (hk : k' = 64 * k) : k * 64 ^ o.owed = k' * 64 ^ owed := by
        rw [hk, howed, Nat.pow_succ, Nat.mul_comm (64 ^ owed), ← Nat.mul_assoc, Nat.mul_comm k]
      rw [hpow value (64 * value + (0x80 - 0x80)) (by omega)] at hlow
      rw [hpow (value + 1) (64 * value + (0xBF - 0x80) + 1) (by omega)] at hhigh
      refine isBeyondAscii ⟨?_, ?_, ?_⟩ <;> dsimp only
      · exact Nat.le_refl _
      · exact Nat.le_trans hascii hlow
      · exact hvalid.imp (Nat.le_trans hhigh) fun h =>
          ⟨Nat.le_trans h.1 hlow, Nat.le_trans hhigh h.2⟩
  · refine ⟨fun d hd => hfirst.made d ?_, hfirst.opened, .inl (List.cons_ne_nil _ _)⟩
    simpa using hd

/-- A byte that is not of ASCII makes and opens no character of ASCII. -/
theorem isBeyondAscii_step (hstate : ∀ o ∈ state, o.IsSound) (hb : 0x80 ≤ b.toNat) :
    IsBeyondAscii (step state b) := by
  cases state with
  | none => exact step_none hb ▸ isBeyondAscii_first _
  | some o => exact step_some o hb ▸ (hstate o rfl).isBeyondAscii_goOn _

/-- What a byte opens are characters that are not of ASCII. -/
theorem isSound_of_mem_step (hstate : ∀ o ∈ state, o.IsSound) :
    ∀ o ∈ (step state b).2, o.IsSound := by
  by_cases hb : b.toNat < 0x80
  · rw [step_of_lt hb]
    simp
  · exact (isBeyondAscii_step hstate (Nat.not_lt.mp hb)).opened

/-- A character of ASCII is read only where its byte stands. -/
theorem byteOf_mem_of_mem_readFrom (hstate : ∀ o ∈ state, o.IsSound) (hc : c.toNat < 0x80)
    (h : some c ∈ readFrom state x) : byteOf c ∈ x := by
  induction x generalizing state with
  | nil =>
    rw [readFrom, cutOff, List.mem_map] at h
    obtain ⟨o, -, ho⟩ := h
    cases ho
  | cons b x ih =>
    rw [readFrom, List.mem_append] at h
    rcases h with h | h
    · by_cases hb : b.toNat < 0x80
      · rw [step_of_lt hb, List.mem_append] at h
        rcases h with h | h
        · rw [cutOff, List.mem_map] at h
          obtain ⟨o, -, ho⟩ := h
          cases ho
        · obtain rfl := Option.some.inj (List.mem_singleton.mp h)
          refine List.mem_cons.mpr (.inl (UInt8.toNat_inj.mp ?_))
          rw [toNat_byteOf hc, toNat_ofNat_of_isValidChar (.inl (by omega))]
      · have hle := (isBeyondAscii_step hstate (Nat.not_lt.mp hb)).made c h
        omega
    · exact List.mem_cons_of_mem b (ih (isSound_of_mem_step hstate) h)

/-- A character of ASCII is read exactly where its byte stands. -/
theorem mem_lossy_iff (hc : c.toNat < 0x80) : c ∈ lossy x ↔ byteOf c ∈ x := by
  constructor
  · intro h
    obtain ⟨made, hmade, hread⟩ := List.mem_map.mp h
    cases made with
    | none =>
      obtain rfl := hread
      exact absurd hc (by decide)
    | some d =>
      obtain rfl := hread
      exact byteOf_mem_of_mem_readFrom (by simp) hc hmade
  · intro h
    obtain ⟨front, behind, rfl⟩ := List.append_of_mem h
    rw [lossy_append_cons hc]
    exact List.mem_append_right _ List.mem_cons_self

/-- Nothing is read only where no character is open and there are no bytes. -/
theorem readFrom_ne_nil (hstate : ∀ o ∈ state, o.IsSound) (h : state.isSome ∨ x ≠ []) :
    readFrom state x ≠ [] := by
  induction x generalizing state with
  | nil =>
    obtain ⟨o, rfl⟩ := Option.isSome_iff_exists.mp (h.resolve_right (not_not_intro rfl))
    exact List.cons_ne_nil _ _
  | cons b x ih =>
    rw [readFrom]
    intro hnil
    obtain ⟨hmade, hrest⟩ := List.append_eq_nil_iff.mp hnil
    by_cases hb : b.toNat < 0x80
    · rw [step_of_lt hb] at hmade
      exact absurd hmade (List.append_ne_nil_of_right_ne_nil _ (List.cons_ne_nil _ _))
    · have hstep := isBeyondAscii_step hstate (Nat.not_lt.mp hb)
      exact ih hstep.opened (.inl (hstep.something.resolve_left fun hne => hne hmade)) hrest

/-- Nothing is read only where there are no bytes. -/
theorem lossy_eq_nil_iff : lossy x = [] ↔ x = [] := by
  rw [lossy, List.map_eq_nil_iff]
  constructor
  · intro hnil
    by_contra hx
    exact readFrom_ne_nil (by simp) (.inr hx) hnil
  · rintro rfl
    rfl

end Bytes

end Marginalia
