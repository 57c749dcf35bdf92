import Mathlib.Tactic.TypeStar

/-!
# Computations that avoid an error

A computation in `Except` avoids the error `e` with postcondition `P` if it does not fail with `e`,
and what it returns satisfies `P`. It may fail in other ways.
-/
namespace PersistTree.Library

universe u

variable {ε : Type*} {α β : Type u}

def Avoids (e : ε) (P : α → Prop) : Except ε α → Prop
  | .ok a => P a
  | .error e' => e' ≠ e

namespace Avoids

variable {e : ε} {P : α → Prop} {R : β → Prop} {x : Except ε α}

theorem ne_error (h : Avoids e P x) : x ≠ .error e := by
  rintro rfl
  exact h rfl

theorem bind {f : α → Except ε β} (h : Avoids e P x) (hf : ∀ a, P a → Avoids e R (f a)) :
    Avoids e R (x >>= f) := by
  cases x with
  | ok a => exact hf a h
  | error e' => exact h

theorem map {f : α → β} (h : Avoids e P x) (hf : ∀ a, P a → R (f a)) : Avoids e R (x.map f) := by
  cases x with
  | ok a => exact hf a h
  | error e' => exact h

end Avoids

end PersistTree.Library
