import Mathlib.Algebra.BigOperators.Group.Finset.Basic
import Mathlib.Tactic

/-!
# What the parties of a system add up to

The local states of the parties `0, …, n - 1` of a system are a function on numbers. A quantity of
the whole system is often the sum of what each party contributes: how many parties are at some
place, how much work is left to them, which objects they hold. When one party moves, the sum
changes by its contribution alone.
-/
namespace PersistTree.Library

open Finset

variable {σ M : Type*} [AddCommMonoid M] {n i : ℕ}

/-- The sum of the parties' contributions `f`. -/
def sumOver (n : ℕ) (f : σ → M) (parties : ℕ → σ) : M := ∑ w ∈ range n, f (parties w)

theorem sumOver_update (hi : i < n) (f : σ → M) (parties : ℕ → σ) (x : σ) :
    sumOver n f (Function.update parties i x) + f (parties i) = sumOver n f parties + f x := by
  have hmem : i ∈ range n := mem_range.mpr hi
  have hrest : ∑ w ∈ (range n).erase i, f (Function.update parties i x w) =
      ∑ w ∈ (range n).erase i, f (parties w) :=
    sum_congr rfl fun w hw => by rw [Function.update_of_ne (ne_of_mem_erase hw)]
  rw [sumOver, sumOver, ← add_sum_erase _ _ hmem,
    ← add_sum_erase _ (fun w => f (parties w)) hmem,
    hrest, Function.update_self]
  abel

theorem sumOver_eq_zero {f : σ → ℕ} {parties : ℕ → σ} :
    sumOver n f parties = 0 ↔ ∀ w < n, f (parties w) = 0 := by
  simp [sumOver, sum_eq_zero_iff]

theorem sumOver_le {f g : σ → ℕ} {parties parties' : ℕ → σ}
    (h : ∀ w < n, f (parties w) ≤ g (parties' w)) : sumOver n f parties ≤ sumOver n g parties' :=
  sum_le_sum fun w hw => h w (mem_range.mp hw)

theorem sumOver_le_mul {f : σ → ℕ} {parties : ℕ → σ} {b : ℕ} (h : ∀ w < n, f (parties w) ≤ b) :
    sumOver n f parties ≤ n * b := by
  have hle := sum_le_card_nsmul (range n) (fun w => f (parties w)) b
    fun w hw => h w (mem_range.mp hw)
  rwa [card_range, smul_eq_mul] at hle

end PersistTree.Library
