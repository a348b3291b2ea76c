/-!
# Results that pass a check

What a computation returned is tested without naming it; if it passes, it is there.
-/

namespace CoolCompiler

def passes {ε α : Type} (result : Except ε α) (check : α → Bool) : Bool :=
  match result with
  | .ok a => check a
  | .error _ => false

@[simp] theorem passes_iff {ε α : Type} {result : Except ε α} {check : α → Bool} :
    passes result check = true ↔ ∃ a, result = .ok a ∧ check a = true := by
  cases result with
  | ok a => simp [passes]
  | error e => simp [passes]

end CoolCompiler
