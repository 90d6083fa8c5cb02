import Marginalia.Proofs.Text.Stretch

/-!
# Written numbers

A number is written in decimal digits, which are word characters, and read back as the same number.
-/

namespace Marginalia.Text

/-- The digits of a number are digits. -/
theorem isDigit_of_mem_ofNat {n : Nat} {c : Char} (hc : c ∈ ofNat n) : c.isDigit = true :=
  Nat.isDigit_of_mem_toDigits (by decide) (by decide) hc

/-- A number is written with at least one digit. -/
theorem ofNat_ne_nil (n : Nat) : ofNat n ≠ [] :=
  Nat.toDigits_ne_nil

/-- The digits of a number write the number. -/
theorem valueOfDigits_ofNat (n : Nat) : valueOfDigits (ofNat n) = n :=
  Nat.ofDigitChars_ten_toDigits

/-- Numbers that are written alike are the same. -/
theorem ofNat_inj {m n : Nat} : ofNat m = ofNat n ↔ m = n := by
  constructor
  · intro h
    rw [← valueOfDigits_ofNat m, h, valueOfDigits_ofNat]
  · rintro rfl
    rfl

/-- A written number is read back. -/
theorem natural?_ofNat (n : Nat) : natural? (ofNat n) = some n := by
  have hall : (ofNat n).all Char.isDigit = true :=
    List.all_eq_true.mpr fun c hc => isDigit_of_mem_ofNat hc
  rw [natural?, if_pos ⟨ofNat_ne_nil n, hall⟩, valueOfDigits_ofNat]

/-- A digit is a word character. -/
theorem isWord_of_isDigit {c : Char} (h : c.isDigit = true) : isWord c = true := by
  refine isWord_of_isAlphanum (by simp [Char.isAlphanum, h]) ?_
  simp only [Char.isDigit, ge_iff_le, Bool.and_eq_true, decide_eq_true_eq] at h
  have hle : c.val.toNat ≤ '9'.val.toNat := UInt32.le_iff_toNat_le.mp h.2
  have hnine : '9'.val.toNat = 57 := rfl
  change c.val.toNat < 0x80
  omega

/-- A number as a word. -/
def numberStretch (n : Nat) : Stretch isWord :=
  ⟨ofNat n, ofNat_ne_nil n, fun _ hc => isWord_of_isDigit (isDigit_of_mem_ofNat hc)⟩

/-- A written number has no blanks at its ends. -/
theorem trim_ofNat (n : Nat) : trim (ofNat n) = ofNat n := by
  apply trim_of_isTrimmed
  apply isTrimmed_of_forall
  intro c hc
  exact isBlank_of_isWord ((numberStretch n).forall_mem c hc)

end Marginalia.Text
