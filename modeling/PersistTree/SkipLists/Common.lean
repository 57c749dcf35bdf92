import PersistTree.Library.CString
import PersistTree.Library.FingerList

/-!
# What the two skip lists share

Both lists compare keys with `strncmp` on the first `key_size_` bytes, draw the height of a new
node with `RandomHeight`, and read node keys through a raw pointer to a buffer that holds exactly
the key's bytes. What lies behind such a buffer belongs to the environment, and so does the
outcome of the random draws.
-/
namespace PersistTree

open Library

/-- The ways in which an execution goes wrong: an access through a null, wild or unwritten
pointer or past the end of a block, a division by zero, a failed assertion, a use of a deleted
object, an allocation that fails. -/
inductive Fault where
  | badAccess
  | divByZero
  | assertion
  | useAfterFree
  | badAlloc
  deriving DecidableEq, Repr

/-- A memory access that the memory model does not allow is a fault. -/
def deref {α : Type} : Option α → Except Fault α
  | some a => .ok a
  | none => .error .badAccess

@[simp] theorem deref_some {α : Type} (a : α) : deref (some a) = .ok a := rfl

theorem deref_eq_ok {α : Type} {x : Option α} {a : α} : deref x = .ok a ↔ x = some a := by
  cases x <;> simp [deref]

@[simp] theorem ok_bind {α β : Type} (a : α) (f : α → Except Fault β) :
    (Except.ok a >>= f) = f a := rfl

@[simp] theorem error_bind {α β : Type} (e : Fault) (f : α → Except Fault β) :
    (Except.error e >>= f) = .error e := rfl

@[simp] theorem pure_eq_ok {α : Type} (a : α) : (pure a : Except Fault α) = .ok a := rfl

theorem bind_eq_ok {α β : Type} {x : Except Fault α} {f : α → Except Fault β} {b : β} :
    x >>= f = .ok b ↔ ∃ a, x = .ok a ∧ f a = .ok b := by
  cases x <;> simp

theorem map_eq_ok {α β : Type} {x : Except Fault α} {f : α → β} {b : β} :
    x.map f = .ok b ↔ ∃ a, x = .ok a ∧ f a = b := by
  cases x <;> simp [Except.map]

theorem mapM_eq_ok {α β : Type} {f : α → Except Fault β} {g : α → β} {l : List α}
    (h : ∀ a ∈ l, f a = .ok (g a)) : l.mapM f = .ok (l.map g) := by
  induction l with
  | nil => rfl
  | cons a l ih =>
    rw [List.mapM_cons, h a List.mem_cons_self, ok_bind,
      ih fun b hb => h b (List.mem_cons_of_mem a hb), ok_bind]
    rfl

abbrev Key := List UInt8

/-- What one `Insert` meets: the height that `RandomHeight` returns, and for every node the bytes
in memory after its key buffer. -/
structure Env where
  height : ℕ
  junk : ℕ → List UInt8

/-- One `Insert(key)` together with its environment. -/
structure Call extends Env where
  key : Key

/-- `while (height < kMaxHeight_ && rnd->Next() < kScaledInverseBranching_) height++`, with the
values of `rnd->Next()` supplied by `draws`. -/
def climb (kScaledInverseBranching : ℕ) (draws : ℕ → ℕ) : ℕ → ℕ → ℕ
  | 0, height => height
  | n + 1, height =>
    if draws height < kScaledInverseBranching then climb kScaledInverseBranching draws n (height + 1)
    else height

/-- `RandomHeight` of both lists. -/
def randomHeight (kMaxHeight kScaledInverseBranching : ℕ) (draws : ℕ → ℕ) : ℕ :=
  climb kScaledInverseBranching draws (kMaxHeight - 1) 1

theorem climb_bounds (kScaledInverseBranching : ℕ) (draws : ℕ → ℕ) (n height : ℕ) :
    height ≤ climb kScaledInverseBranching draws n height ∧
      climb kScaledInverseBranching draws n height ≤ height + n := by
  induction n generalizing height with
  | zero => exact ⟨le_rfl, le_rfl⟩
  | succ n ih =>
    rw [climb]
    split_ifs
    · have := ih (height + 1)
      omega
    · omega

/-- The heights that the results about insertions range over: those `RandomHeight` can return. -/
theorem randomHeight_bounds {kMaxHeight : ℕ} (h : 0 < kMaxHeight) (kScaledInverseBranching : ℕ)
    (draws : ℕ → ℕ) : 1 ≤ randomHeight kMaxHeight kScaledInverseBranching draws ∧
      randomHeight kMaxHeight kScaledInverseBranching draws ≤ kMaxHeight := by
  have := climb_bounds kScaledInverseBranching draws (kMaxHeight - 1) 1
  unfold randomHeight
  omega

end PersistTree
