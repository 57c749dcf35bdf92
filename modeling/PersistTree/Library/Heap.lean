import Mathlib.Data.List.Basic
import Mathlib.Tactic

/-!
# A heap with explicit deallocation

Every allocation gets the next address, and an address is never handed out again. A cell that has
been freed stays in place without a value, so that an access to it can be told apart from an access
to memory that was never allocated. The heap remembers the order of the deallocations. A linked list
in a heap is the list of the live cells visited from a pointer up to the null pointer.
-/
namespace PersistTree.Library

structure Heap (δ : Type*) where
  cells : List (Option δ)
  freed : List ℕ
  deriving Repr, DecidableEq

namespace Heap

variable {δ : Type*}

def empty : Heap δ := ⟨[], []⟩

def load (m : Heap δ) (x : ℕ) : Option δ := m.cells[x]?.join

def Freed (m : Heap δ) (x : ℕ) : Prop := m.cells[x]? = some none

instance [DecidableEq δ] (m : Heap δ) (x : ℕ) : Decidable (m.Freed x) :=
  inferInstanceAs (Decidable (_ = _))

def fresh (m : Heap δ) : ℕ := m.cells.length

def alloc (m : Heap δ) (d : δ) : Heap δ := { m with cells := m.cells ++ [some d] }

def store (m : Heap δ) (x : ℕ) (d : δ) : Heap δ := { m with cells := m.cells.set x (some d) }

def free (m : Heap δ) (x : ℕ) : Heap δ := ⟨m.cells.set x none, m.freed ++ [x]⟩

variable {m : Heap δ} {x y : ℕ} {d e : δ}

theorem lt_fresh (h : m.load x = some d) : x < m.fresh := by
  unfold load at h
  by_contra hx
  rw [List.getElem?_eq_none (Nat.le_of_not_lt hx)] at h
  cases h

@[simp] theorem load_alloc_self (m : Heap δ) (d : δ) : (m.alloc d).load m.fresh = some d := by
  simp [load, alloc, fresh]

theorem load_alloc (h : m.load x = some e) (d : δ) : (m.alloc d).load x = some e := by
  rw [← h]
  unfold load alloc
  rw [List.getElem?_append_left (lt_fresh h)]

theorem load_store_self (h : m.load x = some e) (d : δ) : (m.store x d).load x = some d := by
  have hx : x < m.cells.length := lt_fresh h
  simp [load, store, hx]

theorem load_store_ne (h : x ≠ y) (d : δ) : (m.store x d).load y = m.load y := by
  unfold load store
  rw [List.getElem?_set_ne h]

theorem load_free_ne (h : x ≠ y) : (m.free x).load y = m.load y := by
  unfold load free
  rw [List.getElem?_set_ne h]

theorem freed_free (h : m.load x = some d) : (m.free x).Freed x := by
  have hx : x < m.cells.length := lt_fresh h
  simp [Freed, free, hx]

theorem Freed.free (h : m.Freed y) (x : ℕ) : (m.free x).Freed y := by
  have hy : y < m.cells.length := (List.getElem?_eq_some_iff.mp h).1
  unfold Freed Heap.free
  by_cases hx : x = y
  · subst x
    simp [hy]
  · rw [List.getElem?_set_ne hx]
    exact h

theorem Freed.load_eq_none (h : m.Freed x) : m.load x = none := by
  unfold Freed at h
  unfold load
  rw [h]
  rfl

/-- Every deallocation was of a cell that had not been freed before. -/
structure FreedOnce (m : Heap δ) : Prop where
  nodup : m.freed.Nodup
  freed : ∀ x ∈ m.freed, m.Freed x

namespace FreedOnce

theorem empty : (Heap.empty : Heap δ).FreedOnce := ⟨List.nodup_nil, nofun⟩

theorem alloc (h : m.FreedOnce) (d : δ) : (m.alloc d).FreedOnce where
  nodup := h.nodup
  freed := by
    intro x hx
    have hlt : x < m.cells.length := (List.getElem?_eq_some_iff.mp (h.freed x hx)).1
    exact (List.getElem?_append_left hlt).trans (h.freed x hx)

theorem store (h : m.FreedOnce) (hx : m.load x = some e) (d : δ) : (m.store x d).FreedOnce where
  nodup := h.nodup
  freed := by
    intro y hy
    have hne : x ≠ y := by
      rintro rfl
      rw [(h.freed x hy).load_eq_none] at hx
      cases hx
    exact (List.getElem?_set_ne hne).trans (h.freed y hy)

theorem free (h : m.FreedOnce) (hx : m.load x = some e) : (m.free x).FreedOnce where
  nodup := by
    have hnew : x ∉ m.freed := by
      intro hmem
      rw [(h.freed x hmem).load_eq_none] at hx
      cases hx
    exact List.nodup_append.mpr ⟨h.nodup, List.nodup_singleton x, by
      rintro y hy z hz rfl
      exact hnew (List.mem_singleton.mp hz ▸ hy)⟩
  freed := by
    intro y hy
    rcases List.mem_append.mp hy with hy | hy
    · exact (h.freed y hy).free x
    · obtain rfl := List.mem_singleton.mp hy
      exact freed_free hx

end FreedOnce

/-- Following `next` from the pointer `p` visits exactly the live cells `l`. -/
def IsList (next : δ → Option ℕ) (m : Heap δ) : Option ℕ → List ℕ → Prop
  | p, [] => p = none
  | p, x :: l => p = some x ∧ ∃ d, m.load x = some d ∧ IsList next m (next d) l

namespace IsList

variable {next : δ → Option ℕ} {m' : Heap δ} {p : Option ℕ} {l l' P Q : List ℕ} {z : ℕ}

theorem unique (h : IsList next m p l) (h' : IsList next m p l') : l = l' := by
  induction l generalizing p l' with
  | nil =>
    cases l' with
    | nil => rfl
    | cons y l' =>
      obtain rfl : p = none := h
      cases h'.1
  | cons x l ih =>
    obtain ⟨rfl, d, hd, h⟩ := h
    cases l' with
    | nil => cases h'
    | cons y l' =>
      obtain ⟨hy, d', hd', h'⟩ := h'
      cases hy
      rw [hd] at hd'
      cases hd'
      rw [ih h h']

theorem suffix (h : IsList next m p (P ++ x :: Q)) : IsList next m (some x) (x :: Q) := by
  induction P generalizing p with
  | nil =>
    obtain ⟨rfl, h⟩ := h
    exact ⟨rfl, h⟩
  | cons y P ih =>
    obtain ⟨-, d, -, h⟩ := h
    exact ih h

theorem nodup (h : IsList next m p l) : l.Nodup := by
  induction l generalizing p with
  | nil => exact List.nodup_nil
  | cons x l ih =>
    obtain ⟨rfl, d, hd, h⟩ := h
    rw [List.nodup_cons]
    refine ⟨?_, ih h⟩
    intro hx
    obtain ⟨P, Q, rfl⟩ := List.append_of_mem hx
    have hself : IsList next m (some x) (x :: (P ++ x :: Q)) := ⟨rfl, d, hd, h⟩
    have hlen := congrArg List.length (hself.unique h.suffix)
    simp only [List.length_cons, List.length_append] at hlen
    omega

theorem load (h : IsList next m p l) (hx : x ∈ l) : ∃ d, m.load x = some d := by
  induction l generalizing p with
  | nil => cases hx
  | cons y l ih =>
    obtain ⟨rfl, d, hd, h⟩ := h
    rcases List.mem_cons.mp hx with rfl | hx
    · exact ⟨d, hd⟩
    · exact ih h hx

theorem length_le (h : IsList next m p l) : l.length ≤ m.fresh := by
  have hsub : l ⊆ List.range m.fresh := by
    intro x hx
    obtain ⟨d, hd⟩ := h.load hx
    exact List.mem_range.mpr (lt_fresh hd)
  have hle := (h.nodup.subperm hsub).length_le
  rwa [List.length_range] at hle

theorem congr (h : IsList next m p l)
    (he : ∀ x ∈ l, (m'.load x).map next = (m.load x).map next) : IsList next m' p l := by
  induction l generalizing p with
  | nil => exact h
  | cons x l ih =>
    obtain ⟨rfl, d, hd, h⟩ := h
    have hx := he x List.mem_cons_self
    rw [hd, Option.map_some, Option.map_eq_some_iff] at hx
    obtain ⟨d', hd', hnext⟩ := hx
    refine ⟨rfl, d', hd', ?_⟩
    rw [hnext]
    exact ih h fun y hy => he y (List.mem_cons_of_mem x hy)

theorem concat (h : IsList next m p (P ++ [x])) (hx : m'.load x = some d)
    (hnext : next d = some z) (hz : m'.load z = some e) (hlast : next e = none)
    (ho : ∀ y ∈ P, m'.load y = m.load y) : IsList next m' p (P ++ [x] ++ [z]) := by
  induction P generalizing p with
  | nil =>
    obtain ⟨rfl, -⟩ := h
    refine ⟨rfl, d, hx, hnext, e, hz, hlast⟩
  | cons y P ih =>
    obtain ⟨rfl, f, hf, h⟩ := h
    refine ⟨rfl, f, ?_, ih h fun w hw => ho w (List.mem_cons_of_mem y hw)⟩
    rw [ho y List.mem_cons_self]
    exact hf

end IsList

end Heap

end PersistTree.Library
