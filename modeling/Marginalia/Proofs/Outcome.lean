import Mathlib.Data.List.Forall2
import Marginalia.Failure

/-!
# Outcomes

A computation in steps succeeds exactly when each step does, and its value is that of the last.
-/

namespace Marginalia

universe u v w

variable {ε : Type u} {α : Type v} {β : Type v}

/-- Two steps succeed when the first does and the second does on its value. -/
theorem bind_eq_ok_iff {x : Except ε α} {f : α → Except ε β} {b : β} :
    x >>= f = .ok b ↔ ∃ a, x = .ok a ∧ f a = .ok b := by
  cases x <;> simp [bind, Except.bind]

/-- Two steps fail when the first does, or when the second does on the value of the first. -/
theorem bind_eq_error_iff {x : Except ε α} {f : α → Except ε β} {e : ε} :
    x >>= f = .error e ↔ x = .error e ∨ ∃ a, x = .ok a ∧ f a = .error e := by
  cases x <;> simp [bind, Except.bind]

/-- A step on whose value a function is applied succeeds when it does. -/
theorem map_eq_ok_iff {x : Except ε α} {f : α → β} {b : β} :
    x.map f = .ok b ↔ ∃ a, x = .ok a ∧ f a = b := by
  cases x <;> simp [Except.map]

/-- A step on whose value a function is applied fails when it does. -/
theorem map_eq_error_iff {x : Except ε α} {f : α → β} {e : ε} :
    x.map f = .error e ↔ x = .error e := by
  cases x <;> simp [Except.map]

/-- A step without effect has its value. -/
theorem pure_eq_ok_iff {a b : α} : (pure a : Except ε α) = .ok b ↔ a = b := by
  simp [pure, Except.pure]

/-- Of two lists whose members are related one by one, each member of the second has one in the
first. -/
theorem exists_of_mem_of_forall₂ {γ : Type w} {R : γ → α → Prop} {xs : List γ} {ys : List α}
    (h : List.Forall₂ R xs ys) {y : α} (hy : y ∈ ys) : ∃ x ∈ xs, R x y := by
  induction h with
  | nil => cases hy
  | cons hxy _ ih =>
    rcases List.mem_cons.mp hy with rfl | hy
    · exact ⟨_, List.mem_cons_self, hxy⟩
    · obtain ⟨x, hx, hrelated⟩ := ih hy
      exact ⟨x, List.mem_cons_of_mem _ hx, hrelated⟩

/-- Steps for the members of a list succeed exactly when each does, and the values stand in the
order of the members. -/
theorem mapM_eq_ok_iff {γ : Type w} {f : γ → Except ε α} {xs : List γ} {ys : List α} :
    xs.mapM f = .ok ys ↔ List.Forall₂ (fun x y => f x = .ok y) xs ys := by
  induction xs generalizing ys with
  | nil => rw [List.mapM_nil, pure_eq_ok_iff, List.forall₂_nil_left_iff, eq_comm]
  | cons x xs ih =>
    rw [List.mapM_cons, bind_eq_ok_iff, List.forall₂_cons_left_iff]
    constructor
    · rintro ⟨y, hy, hrest⟩
      obtain ⟨zs, hzs, hys⟩ := bind_eq_ok_iff.mp hrest
      exact ⟨y, zs, hy, ih.mp hzs, (pure_eq_ok_iff.mp hys).symm⟩
    · rintro ⟨y, zs, hy, hzs, rfl⟩
      exact ⟨y, hy, bind_eq_ok_iff.mpr ⟨zs, ih.mpr hzs, rfl⟩⟩

/-- Steps for the members of a list fail only as the step for one of the members does. -/
theorem exists_of_mapM_eq_error {γ : Type w} {f : γ → Except ε α} {xs : List γ} {e : ε}
    (h : xs.mapM f = .error e) : ∃ x ∈ xs, f x = .error e := by
  induction xs with
  | nil => cases h
  | cons x xs ih =>
    rw [List.mapM_cons, bind_eq_error_iff] at h
    rcases h with hx | ⟨a, -, hrest⟩
    · exact ⟨x, List.mem_cons_self, hx⟩
    · rcases bind_eq_error_iff.mp hrest with hxs | ⟨as, -, hpure⟩
      · obtain ⟨y, hy, hfy⟩ := ih hxs
        exact ⟨y, List.mem_cons_of_mem x hy, hfy⟩
      · cases hpure

/-- A value stays when errors are changed. -/
@[simp] theorem mapError_ok {ε' : Type w} (f : ε → ε') (a : α) :
    (Except.ok a : Except ε α).mapError f = .ok a := rfl

/-- An error is changed as all errors are. -/
@[simp] theorem mapError_error {ε' : Type w} (f : ε → ε') (e : ε) :
    (Except.error e : Except ε α).mapError f = .error (f e) := rfl

/-- Steps that each end like another step, with what they end in changed, end like the others. -/
theorem mapM_eq_map_mapM {γ : Type w} {f g : γ → Except ε α} {onError : ε → ε} {onValue : α → α}
    (h : ∀ x, g x = ((f x).mapError onError).map onValue) (xs : List γ) :
    xs.mapM g = ((xs.mapM f).mapError onError).map (List.map onValue) := by
  induction xs with
  | nil => rfl
  | cons x xs ih =>
    rw [List.mapM_cons, List.mapM_cons, ih, h]
    cases f x with
    | error e => rfl
    | ok a => cases xs.mapM f <;> rfl

/-- Steps on a state for the members of a list fail with the first step that does. -/
theorem foldlM_eq_error_iff {γ : Type w} {f : α → γ → Except ε α} {xs : List γ} {a : α} {e : ε} :
    xs.foldlM f a = .error e ↔ ∃ before x behind b,
      xs = before ++ x :: behind ∧ before.foldlM f a = .ok b ∧ f b x = .error e := by
  induction xs generalizing a with
  | nil =>
    constructor
    · intro h
      cases h
    · rintro ⟨before, x, behind, b, hxs, -, -⟩
      cases before <;> cases hxs
  | cons x xs ih =>
    rw [List.foldlM_cons, bind_eq_error_iff]
    constructor
    · rintro (hx | ⟨b, hb, hrest⟩)
      · exact ⟨[], x, xs, a, rfl, rfl, hx⟩
      · obtain ⟨before, y, behind, c, rfl, hc, hy⟩ := ih.mp hrest
        exact ⟨x :: before, y, behind, c, rfl, bind_eq_ok_iff.mpr ⟨b, hb, hc⟩, hy⟩
    · rintro ⟨before, y, behind, c, hxs, hc, hy⟩
      cases before with
      | nil =>
        obtain ⟨rfl, -⟩ := List.cons.inj hxs
        obtain rfl := pure_eq_ok_iff.mp hc
        exact .inl hy
      | cons z before =>
        obtain ⟨rfl, rfl⟩ := List.cons.inj hxs
        obtain ⟨b, hb, hrest⟩ := bind_eq_ok_iff.mp hc
        exact .inr ⟨b, hb, ih.mpr ⟨before, y, behind, c, rfl, hrest, hy⟩⟩

/-- The values of steps for the members of a list, taken from the last member to the first. -/
def mapBackward {γ : Type w} (step : γ → Except ε α) : List γ → Except ε (List α)
  | [] => .ok []
  | x :: xs => do
    let later ← mapBackward step xs
    return (← step x) :: later

/-- Steps from the last member to the first succeed exactly when each does, and the values stand in
the order of the members. -/
theorem mapBackward_eq_ok_iff {γ : Type w} {step : γ → Except ε α} {xs : List γ} {ys : List α} :
    mapBackward step xs = .ok ys ↔ List.Forall₂ (fun x y => step x = .ok y) xs ys := by
  induction xs generalizing ys with
  | nil => rw [mapBackward, Except.ok.injEq, List.forall₂_nil_left_iff, eq_comm]
  | cons x xs ih =>
    rw [mapBackward, bind_eq_ok_iff, List.forall₂_cons_left_iff]
    constructor
    · rintro ⟨zs, hzs, hrest⟩
      obtain ⟨y, hy, hys⟩ := bind_eq_ok_iff.mp hrest
      exact ⟨y, zs, hy, ih.mp hzs, (pure_eq_ok_iff.mp hys).symm⟩
    · rintro ⟨y, zs, hy, hzs, rfl⟩
      exact ⟨zs, ih.mpr hzs, bind_eq_ok_iff.mpr ⟨y, hy, rfl⟩⟩

/-- Steps from the last member to the first all succeed exactly when each does. -/
theorem exists_mapBackward_eq_ok_iff {γ : Type w} {step : γ → Except ε α} {xs : List γ} :
    (∃ ys, mapBackward step xs = .ok ys) ↔ ∀ x ∈ xs, ∃ y, step x = .ok y := by
  simp only [mapBackward_eq_ok_iff]
  induction xs with
  | nil => simp
  | cons x xs ih => simp [List.forall₂_cons_left_iff, ← ih]

/-- Steps from the last member to the first fail as the step does that is the last to fail. -/
theorem mapBackward_eq_error_iff {γ : Type w} {step : γ → Except ε α} {xs : List γ} {e : ε} :
    mapBackward step xs = .error e ↔ ∃ before x behind,
      xs = before ++ x :: behind ∧ step x = .error e ∧ ∀ y ∈ behind, ∃ a, step y = .ok a := by
  induction xs with
  | nil => simp [mapBackward]
  | cons x xs ih =>
    rw [mapBackward, bind_eq_error_iff]
    constructor
    · rintro (hxs | ⟨later, hlater, hrest⟩)
      · obtain ⟨before, y, behind, rfl, hy, hbehind⟩ := ih.mp hxs
        exact ⟨x :: before, y, behind, rfl, hy, hbehind⟩
      · rcases bind_eq_error_iff.mp hrest with hx | ⟨a, -, hpure⟩
        · exact ⟨[], x, xs, rfl, hx, exists_mapBackward_eq_ok_iff.mp ⟨later, hlater⟩⟩
        · cases hpure
    · rintro ⟨before, y, behind, hxs, hy, hbehind⟩
      cases before with
      | nil =>
        obtain ⟨rfl, rfl⟩ := List.cons.inj hxs
        obtain ⟨later, hlater⟩ := exists_mapBackward_eq_ok_iff.mpr hbehind
        exact .inr ⟨later, hlater, bind_eq_error_iff.mpr (.inl hy)⟩
      | cons z before =>
        obtain ⟨rfl, rfl⟩ := List.cons.inj hxs
        exact .inl (ih.mpr ⟨before, y, behind, rfl, hy, hbehind⟩)

end Marginalia
