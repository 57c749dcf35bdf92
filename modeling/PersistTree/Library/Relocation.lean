import PersistTree.Library.FingerSearch

/-!
# Relocated links

The same linked structure may be seen through two kinds of addresses, such as positions in an
arena and addresses of bytes. When a map sends the addresses of one view to those of the other,
chains and walks are carried over along it. A slot that the first view cannot read may hold
anything in the second one.
-/
namespace PersistTree.Library

variable {α β : Type*}

/-- What the links `nxt` read at `x`, the links `nxt'` read at `f x`. -/
def Relocated (f : α → β) (nxt : α → Option (Option α)) (nxt' : β → Option (Option β)) : Prop :=
  ∀ x p, nxt x = some p → nxt' (f x) = some (p.map f)

variable {f : α → β} {nxt : α → Option (Option α)} {nxt' : β → Option (Option β)}

theorem Chain.relocated {x : α} {l : List α} (h : Chain nxt x l) (hn : Relocated f nxt nxt') :
    Chain nxt' (f x) (l.map f) := by
  induction h with
  | nil h => exact .nil (hn _ _ h)
  | cons h _ ih => exact .cons (hn _ _ h) ih

/-- A walk only asks about nodes that some link points to. -/
theorem walk_relocated {after : α → Option Bool} {after' : β → Option Bool}
    (hn : Relocated f nxt nxt')
    (ha : ∀ x y b, nxt x = some (some y) → after y = some b → after' (f y) = some b)
    {fuel fuel' : ℕ} (hf : fuel ≤ fuel') {x : α} {r : α × ℕ}
    (h : walk nxt after fuel x = some r) : walk nxt' after' fuel' (f x) = some (f r.1, r.2) := by
  induction fuel generalizing fuel' x r with
  | zero => cases h
  | succ fuel ih =>
    obtain ⟨fuel', rfl⟩ : ∃ n, fuel' = n + 1 := ⟨fuel' - 1, by omega⟩
    rw [walk] at h
    split at h
    · cases h
    next hx =>
      cases h
      simp [walk, hn _ _ hx]
    next y hx =>
      have hx' : nxt' (f x) = some (some (f y)) := hn _ _ hx
      split at h
      · cases h
      next hy =>
        cases h
        simp [walk, hx', ha x y false hx hy]
      next hy =>
        obtain ⟨s, hs, rfl⟩ := Option.map_eq_some_iff.mp h
        simp [walk, hx', ha x y true hx hy, ih (Nat.le_of_succ_le_succ hf) hs]

end PersistTree.Library
