import GraphJournal.Bytes

/-!
# Runs

What a computation that keeps its state when it fails does with the state that it is given, part by
part.
-/
namespace GraphJournal.Run

set_option autoImplicit false

variable {ε σ α β : Type}

@[simp] theorem bind_apply (act : EStateM ε σ α) (next : α → EStateM ε σ β) (s : σ) :
    (act >>= next) s =
      match act s with
      | .ok a s' => next a s'
      | .error e s' => .error e s' := rfl

@[simp] theorem map_apply (f : α → β) (act : EStateM ε σ α) (s : σ) :
    (f <$> act) s =
      match act s with
      | .ok a s' => .ok (f a) s'
      | .error e s' => .error e s' := rfl

@[simp] theorem pure_apply (a : α) (s : σ) : (pure a : EStateM ε σ α) s = .ok a s := rfl

@[simp] theorem get_apply (s : σ) : (get : EStateM ε σ σ) s = .ok s s := rfl

@[simp] theorem set_apply (s s' : σ) : (set s' : EStateM ε σ PUnit) s = .ok () s' := rfl

@[simp] theorem modify_apply (f : σ → σ) (s : σ) :
    (modify f : EStateM ε σ PUnit) s = .ok () (f s) := rfl

@[simp] theorem throw_apply (e : ε) (s : σ) : (throw e : EStateM ε σ α) s = .error e s := rfl

/-- A computation in two parts that fails has failed in one of them. -/
theorem error_of_bind {act : EStateM ε σ α} {next : α → EStateM ε σ β} {s s'' : σ} {e : ε}
    (failed : (act >>= next) s = .error e s'') :
    act s = .error e s'' ∨ ∃ a s', act s = .ok a s' ∧ next a s' = .error e s'' := by
  rw [bind_apply] at failed
  cases run : act s with
  | error e' s' =>
    rw [run] at failed
    cases failed
    exact Or.inl rfl
  | ok a s' =>
    rw [run] at failed
    exact Or.inr ⟨a, s', rfl, failed⟩

/-- The answer of a computation and the state that it leaves. -/
def answered : EStateM.Result ε σ α → Except ε α × σ
  | .ok a s => (.ok a, s)
  | .error e s => (.error e, s)

@[simp] theorem answered_ok (a : α) (s : σ) :
    answered (.ok a s : EStateM.Result ε σ α) = (.ok a, s) := rfl

@[simp] theorem answered_error (e : ε) (s : σ) :
    answered (.error e s : EStateM.Result ε σ α) = (.error e, s) := rfl

end GraphJournal.Run
