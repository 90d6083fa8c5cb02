import Marginalia.Text.Basic

/-!
# The order of texts

Sequences are ordered member by member, by the numbers of their members, and a sequence comes before
its extensions. Texts are ordered by code points, which is also the order of their UTF-8 forms.
-/

namespace Marginalia

section

variable {α : Type} (number : α → Nat)

/-- Whether a sequence comes before another when its members are ordered by their numbers. -/
def comesBefore : List α → List α → Bool
  | _, [] => false
  | [], _ :: _ => true
  | a :: t, b :: u =>
    if number a = number b then comesBefore t u else decide (number a < number b)

/-- No sequence comes before itself. -/
@[simp] theorem comesBefore_self (t : List α) : comesBefore number t t = false := by
  induction t with
  | nil => rfl
  | cons c t ih => simp [comesBefore, ih]

variable {number} {s t u : List α}

/-- The order of sequences is transitive. -/
theorem comesBefore_trans (hst : comesBefore number s t = true)
    (htu : comesBefore number t u = true) : comesBefore number s u = true := by
  induction u generalizing s t with
  | nil => simp [comesBefore] at htu
  | cons c u ih =>
    cases t with
    | nil => simp [comesBefore] at hst
    | cons b t =>
      cases s with
      | nil => rfl
      | cons a s =>
        rw [comesBefore] at hst htu ⊢
        by_cases hab : number a = number b
        · rw [if_pos hab] at hst
          by_cases hac : number a = number c
          · rw [if_pos (hab.symm.trans hac)] at htu
            rw [if_pos hac]
            exact ih hst htu
          · rw [if_neg (hab ▸ hac)] at htu
            rw [if_neg hac, hab]
            exact htu
        · rw [if_neg hab] at hst
          have h₁ := of_decide_eq_true hst
          by_cases hbc : number b = number c
          · rw [if_neg (hbc ▸ hab), ← hbc]
            exact hst
          · rw [if_neg hbc] at htu
            have h₂ := of_decide_eq_true htu
            rw [if_neg (by omega)]
            exact decide_eq_true (by omega)

/-- Of two different sequences one comes before the other, if no two members have one number. -/
theorem comesBefore_or_comesBefore (hnumber : ∀ a b, number a = number b → a = b) (h : t ≠ u) :
    comesBefore number t u = true ∨ comesBefore number u t = true := by
  induction t generalizing u with
  | nil =>
    cases u with
    | nil => exact absurd rfl h
    | cons b u => exact Or.inl rfl
  | cons a t ih =>
    cases u with
    | nil => exact Or.inr rfl
    | cons b u =>
      rw [comesBefore, comesBefore]
      by_cases hab : number a = number b
      · obtain rfl := hnumber a b hab
        rw [if_pos rfl, if_pos rfl]
        exact ih fun htu => h (htu ▸ rfl)
      · rw [if_neg hab, if_neg (Ne.symm hab)]
        rcases Nat.lt_or_gt_of_ne hab with hlt | hgt
        · exact Or.inl (decide_eq_true hlt)
        · exact Or.inr (decide_eq_true hgt)

end

namespace Text

/-- Whether a text comes before another. -/
def isBefore (t u : Text) : Bool :=
  comesBefore Char.toNat t u

/-- No text comes before itself. -/
@[simp] theorem isBefore_self (t : Text) : isBefore t t = false :=
  comesBefore_self Char.toNat t

/-- The order of texts is transitive. -/
theorem isBefore_trans {s t u : Text} (hst : isBefore s t = true) (htu : isBefore t u = true) :
    isBefore s u = true :=
  comesBefore_trans hst htu

/-- Of two different texts one comes before the other. -/
theorem isBefore_or_isBefore {t u : Text} (h : t ≠ u) :
    isBefore t u = true ∨ isBefore u t = true :=
  comesBefore_or_comesBefore (fun _ _ => Char.toNat_inj.1) h

end Text

end Marginalia
