import Mathlib.Data.List.Nodup
import Mathlib.Tactic

/-!
# Singly linked chains

A link function sends a node to the content of its link slot: `none` when the slot cannot be
read, `some none` for the null pointer and `some (some y)` for a pointer to `y`. A chain is the
finite list of nodes visited from a start node up to the null pointer. The start node is not
part of the list, so a sentinel head is the start of the chain of the real nodes.
-/
namespace PersistTree.Library

variable {α : Type*}

/-- The node reached from `x` by passing the nodes of the list. -/
def lastFrom : α → List α → α
  | x, [] => x
  | _, y :: l => lastFrom y l

@[simp] theorem lastFrom_nil (x : α) : lastFrom x [] = x := rfl

@[simp] theorem lastFrom_cons (x y : α) (l : List α) : lastFrom x (y :: l) = lastFrom y l := rfl

@[simp] theorem lastFrom_append (x : α) (P Q : List α) :
    lastFrom x (P ++ Q) = lastFrom (lastFrom x P) Q := by
  induction P generalizing x with
  | nil => rfl
  | cons p P ih => exact ih p

theorem lastFrom_mem (x : α) (P : List α) : lastFrom x P = x ∨ lastFrom x P ∈ P := by
  induction P generalizing x with
  | nil => exact Or.inl rfl
  | cons p P ih =>
    rcases ih p with h | h
    · exact Or.inr (by simp [h])
    · exact Or.inr (List.mem_cons_of_mem _ h)

theorem lastFrom_mem_of_ne_nil (x : α) {P : List α} (h : P ≠ []) : lastFrom x P ∈ P := by
  cases P with
  | nil => exact absurd rfl h
  | cons p P =>
    rcases lastFrom_mem p P with h | h
    · simp [h]
    · exact List.mem_cons_of_mem _ h

/-- Following the links from `x` visits exactly `l` and then meets the null pointer. -/
inductive Chain (nxt : α → Option (Option α)) : α → List α → Prop
  | nil {x} : nxt x = some none → Chain nxt x []
  | cons {x y l} : nxt x = some (some y) → Chain nxt y l → Chain nxt x (y :: l)

namespace Chain

variable {nxt nxt' : α → Option (Option α)} {x y z : α} {l P Q : List α}

theorem next_eq (h : Chain nxt x l) : nxt x = some l.head? := by
  cases h with
  | nil h => exact h
  | cons h _ => exact h

theorem unique {l' : List α} (h : Chain nxt x l) (h' : Chain nxt x l') : l = l' := by
  induction h generalizing l' with
  | nil h =>
    cases h' with
    | nil _ => rfl
    | cons h₁ _ => simp [h] at h₁
  | cons h _ ih =>
    cases h' with
    | nil h₁ => simp [h] at h₁
    | cons h₁ t =>
      obtain rfl : _ = _ := by simpa [h] using h₁
      rw [ih t]

/-- A chain only depends on the slots of its start and of the nodes it visits. -/
theorem congr (h : Chain nxt x l) (he : ∀ y ∈ x :: l, nxt' y = nxt y) : Chain nxt' x l := by
  induction h with
  | nil h => exact .nil ((he _ (by simp)).trans h)
  | cons h _ ih =>
    exact .cons ((he _ (by simp)).trans h) (ih fun y hy => he y (List.mem_cons_of_mem _ hy))

theorem suffix (h : Chain nxt x (P ++ Q)) : Chain nxt (lastFrom x P) Q := by
  induction P generalizing x with
  | nil => exact h
  | cons p P ih =>
    cases h with
    | cons _ t => exact ih t

theorem nodup (h : Chain nxt x l) : l.Nodup := by
  induction h with
  | nil _ => exact List.nodup_nil
  | @cons x y l _ ht ih =>
    refine List.nodup_cons.mpr ⟨fun hy => ?_, ih⟩
    obtain ⟨P, Q, rfl⟩ := List.append_of_mem hy
    -- from the second visit on, the chain would be as long as from the first
    have hsuffix : Chain nxt y Q := by
      rw [List.append_cons] at ht
      have hlast : lastFrom y (P ++ [y]) = y := by rw [lastFrom_append]; rfl
      have := suffix ht
      rwa [hlast] at this
    have hlen := congrArg List.length (ht.unique hsuffix)
    rw [List.length_append, List.length_cons] at hlen
    omega

theorem next_lastFrom (h : Chain nxt x (P ++ Q)) : nxt (lastFrom x P) = some Q.head? :=
  h.suffix.next_eq

theorem reaches (h : Chain nxt x l) (hy : y ∈ l) :
    Relation.ReflTransGen (fun a b => nxt a = some (some b)) x y := by
  induction h with
  | nil _ => cases hy
  | cons h _ ih =>
    rcases List.mem_cons.mp hy with rfl | hy
    · exact .single h
    · exact .head h (ih hy)

/-- Splicing a fresh node `z` in after the last node of `P`: only the slots of `z` and of that
node are rewritten. -/
theorem splice (h : Chain nxt x (P ++ Q)) (hnd : (x :: (P ++ Q)).Nodup)
    (hzn : nxt' z = some Q.head?) (hp : nxt' (lastFrom x P) = some (some z))
    (ho : ∀ y ∈ x :: (P ++ Q), y ≠ lastFrom x P → nxt' y = nxt y) :
    Chain nxt' x (P ++ z :: Q) := by
  induction P generalizing x with
  | nil =>
    have hx : x ∉ Q := (List.nodup_cons.mp hnd).1
    apply Chain.cons hp
    cases h with
    | nil _ => exact .nil hzn
    | cons hy t =>
      refine .cons hzn (t.congr fun w hw => ho w (List.mem_cons_of_mem _ hw) ?_)
      rintro rfl
      exact hx hw
  | cons p P ih =>
    cases h with
    | cons hy t =>
      have hx : x ∉ p :: (P ++ Q) := (List.nodup_cons.mp hnd).1
      have hmem : lastFrom p P ∈ p :: (P ++ Q) := by
        rcases lastFrom_mem p P with h | h
        · simp [h]
        · simp [h]
      refine .cons ((ho x (by simp) ?_).trans hy) (ih t (List.nodup_cons.mp hnd).2 hp ?_)
      · intro he
        rw [lastFrom_cons] at he
        exact hx (he.symm ▸ hmem)
      · exact fun y hy => ho y (List.mem_cons_of_mem _ hy)

end Chain

end PersistTree.Library
