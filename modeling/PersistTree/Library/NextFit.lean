import Mathlib.Algebra.BigOperators.Group.List.Basic
import Mathlib.Tactic

/-!
# Next-fit packing

Items of given sizes are packed into bins of equal capacity in the order of their arrival: an item
goes into the current bin if some room stays behind it, and otherwise into a new bin, which becomes
the current one. Nothing is ever put into an earlier bin, so the bins together hold the items in
order.
-/
namespace PersistTree.Library

variable {α : Type*}

/-- The bins that are closed and the one in use. -/
structure Bins (α : Type*) where
  closed : List (List α)
  current : List α
  deriving Repr, DecidableEq

def total (size : α → ℕ) (items : List α) : ℕ := (items.map size).sum

namespace Bins

def empty : Bins α := ⟨[], []⟩

def bins (b : Bins α) : List (List α) := b.closed ++ [b.current]

def items (b : Bins α) : List α := b.bins.flatten

def add (size : α → ℕ) (n : ℕ) (b : Bins α) (a : α) : Bins α :=
  if total size b.current + size a < n then ⟨b.closed, b.current ++ [a]⟩
  else ⟨b.closed ++ [b.current], [a]⟩

def addAll (size : α → ℕ) (n : ℕ) (as : List α) : Bins α := as.foldl (add size n) empty

theorem items_add (size : α → ℕ) (n : ℕ) (b : Bins α) (a : α) :
    (b.add size n a).items = b.items ++ [a] := by
  unfold add items bins
  split_ifs
  · simp
  · simp

theorem addAll_concat (size : α → ℕ) (n : ℕ) (as : List α) (a : α) :
    addAll size n (as ++ [a]) = (addAll size n as).add size n a := by
  simp [addAll]

theorem items_addAll (size : α → ℕ) (n : ℕ) (as : List α) : (addAll size n as).items = as := by
  induction as using List.reverseRecOn with
  | nil => rfl
  | append_singleton as a ih => rw [addAll_concat, items_add, ih]

end Bins

end PersistTree.Library
