/-!
# Runs on a state

Steps that change a state and may stop with an error end with a value or an error and in a state,
which keeps what was changed before the error. The end of a composed run follows from the ends of
its parts.
-/

namespace Marginalia

universe u

variable {ε σ α β γ : Type u}

/-- How steps end from a state: with a value or an error, and with the state behind them. -/
def endOf (steps : ExceptT ε (StateM σ) α) (s : σ) : Except ε α × σ :=
  Id.run (steps.run.run s)

@[simp] theorem endOf_pure (a : α) (s : σ) :
    endOf (pure a : ExceptT ε (StateM σ) α) s = (.ok a, s) := rfl

@[simp] theorem endOf_throw (e : ε) (s : σ) :
    endOf (throw e : ExceptT ε (StateM σ) α) s = (.error e, s) := rfl

@[simp] theorem endOf_get (s : σ) : endOf (get : ExceptT ε (StateM σ) σ) s = (.ok s, s) := rfl

@[simp] theorem endOf_set (s s' : σ) :
    endOf (set s' : ExceptT ε (StateM σ) PUnit) s = (.ok ⟨⟩, s') := rfl

@[simp] theorem endOf_modify (f : σ → σ) (s : σ) :
    endOf (modify f : ExceptT ε (StateM σ) PUnit) s = (.ok ⟨⟩, f s) := rfl

/-- Steps behind other steps run from where those end, unless that is an error. -/
theorem endOf_bind (x : ExceptT ε (StateM σ) α) (f : α → ExceptT ε (StateM σ) β) (s : σ) :
    endOf (x >>= f) s =
      match endOf x s with
      | (.ok a, s') => endOf (f a) s'
      | (.error e, s') => (.error e, s') := by
  rw [endOf, endOf, ExceptT.run_bind, StateT.run_bind]
  rcases x.run.run s with ⟨_ | _, _⟩ <;> rfl

/-- A condition decides between the ends of two runs. -/
@[simp] theorem endOf_ite (p : Prop) [Decidable p] (x y : ExceptT ε (StateM σ) α) (s : σ) :
    endOf (if p then x else y) s = if p then endOf x s else endOf y s :=
  apply_ite (endOf · s) p x y

/-- No steps leave the state as it is. -/
@[simp] theorem endOf_forM_nil (f : α → ExceptT ε (StateM σ) PUnit) (s : σ) :
    endOf (([] : List α).forM f) s = (.ok ⟨⟩, s) := rfl

/-- The steps for the members of a list run one after another. -/
theorem endOf_forM_cons (f : α → ExceptT ε (StateM σ) PUnit) (a : α) (rest : List α) (s : σ) :
    endOf ((a :: rest).forM f) s =
      match endOf (f a) s with
      | (.ok _, s') => endOf (rest.forM f) s'
      | (.error e, s') => (.error e, s') := by
  rw [List.forM, endOf_bind]
  rcases endOf (f a) s with ⟨_ | _, _⟩ <;> rfl

end Marginalia
