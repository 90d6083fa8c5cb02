import Marginalia.Path

/-!
# The order of paths

Components are ordered, and so paths are ordered component by component: of two paths one comes
before the other or has the same components, and the order is transitive.
-/

namespace Marginalia

namespace Component

/-- The order of components is transitive. -/
theorem before_trans {a b c : Component} (hab : a.before b = true) (hbc : b.before c = true) :
    a.before c = true := by
  simp only [before, Bool.or_eq_true, Bool.and_eq_true, decide_eq_true_eq, beq_iff_eq] at *
  rcases hab with hab | ⟨hab, hlabel⟩
  · rcases hbc with hbc | ⟨hbc, -⟩
    · exact .inl (Nat.lt_trans hab hbc)
    · exact .inl (hbc ▸ hab)
  · rcases hbc with hbc | ⟨hbc, hlabel'⟩
    · exact .inl (hab ▸ hbc)
    · exact .inr ⟨hab.trans hbc, comesBefore_trans hlabel hlabel'⟩

/-- No component comes before itself. -/
@[simp] theorem before_self (c : Component) : c.before c = false := by
  simp [before]

/-- Of two different components one comes before the other. -/
theorem before_or_before {a b : Component} (h : a ≠ b) :
    a.before b = true ∨ b.before a = true := by
  cases a with
  | name n =>
    cases b with
    | name m =>
      have hlabel : n ≠ m := fun hnm => h (congrArg name hnm)
      simpa [before, rank, label] using
        comesBefore_or_comesBefore (fun _ _ => UInt8.toNat_inj.mp) hlabel
    | _ => exact .inr rfl
  | _ => cases b <;> first | exact .inl rfl | exact .inr rfl | exact absurd rfl h

end Component

namespace Path

/-- Of two lists of components one comes before the other or is the same. -/
theorem leComponents_total (p q : List Component) :
    leComponents p q = true ∨ leComponents q p = true := by
  induction p generalizing q with
  | nil => exact .inl rfl
  | cons a p ih =>
    cases q with
    | nil => exact .inr rfl
    | cons b q =>
      simp only [leComponents, Bool.or_eq_true, Bool.and_eq_true, beq_iff_eq]
      by_cases hab : a = b
      · exact (ih q).imp (fun h => .inr ⟨hab, h⟩) (fun h => .inr ⟨hab.symm, h⟩)
      · exact (Component.before_or_before hab).imp .inl .inl

/-- The order of lists of components is transitive. -/
theorem leComponents_trans {p q r : List Component} (hpq : leComponents p q = true)
    (hqr : leComponents q r = true) : leComponents p r = true := by
  induction p generalizing q r with
  | nil => rfl
  | cons a p ih =>
    cases q with
    | nil => cases hpq
    | cons b q =>
      cases r with
      | nil => cases hqr
      | cons c r =>
        simp only [leComponents, Bool.or_eq_true, Bool.and_eq_true, beq_iff_eq] at *
        rcases hpq with hab | ⟨rfl, hpq⟩
        · rcases hqr with hbc | ⟨rfl, -⟩
          · exact .inl (Component.before_trans hab hbc)
          · exact .inl hab
        · exact hqr.imp_right fun ⟨hac, hqr⟩ => ⟨hac, ih hpq hqr⟩

/-- Lists of components that come before each other are the same. -/
theorem leComponents_antisymm {p q : List Component} (hpq : leComponents p q = true)
    (hqp : leComponents q p = true) : p = q := by
  induction p generalizing q with
  | nil =>
    cases q with
    | nil => rfl
    | cons b q => cases hqp
  | cons a p ih =>
    cases q with
    | nil => cases hpq
    | cons b q =>
      simp only [leComponents, Bool.or_eq_true, Bool.and_eq_true, beq_iff_eq] at *
      rcases hpq with hab | ⟨rfl, hpq⟩
      · rcases hqp with hba | ⟨rfl, -⟩
        · simpa using Component.before_trans hab hba
        · simp at hab
      · rcases hqp with haa | ⟨-, hqp⟩
        · simp at haa
        · rw [ih hpq hqp]

/-- Of two paths one comes before the other or has the same components. -/
theorem le_total (p q : Path) : (p.le q || q.le p) = true :=
  Bool.or_eq_true .. ▸ leComponents_total p.components q.components

/-- The order of paths is transitive. -/
theorem le_trans (p q r : Path) (hpq : p.le q = true) (hqr : q.le r = true) : p.le r = true :=
  leComponents_trans hpq hqr

/-- Whether a path comes before another one and has other components. -/
def Before (p q : Path) : Prop :=
  p.le q = true ∧ q.le p = false

instance : Std.Irrefl Before where
  irrefl _ h := Bool.false_ne_true (h.2.symm.trans h.1)

instance : Std.Antisymm Before where
  antisymm _ _ h h' := absurd (h.2.symm.trans h'.1) Bool.false_ne_true

/-- Of two paths with other components, that which does not come behind comes before. -/
theorem before_of_le {p q : Path} (h : p.le q = true) (hne : p.components ≠ q.components) :
    p.Before q :=
  ⟨h, Bool.eq_false_iff.mpr fun hqp => hne (leComponents_antisymm h hqp)⟩

end Path

end Marginalia
