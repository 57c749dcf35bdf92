import Mathlib.Data.List.Perm.Subperm
import PersistTree.Library.Chain

/-!
# An arena of nodes with trailing link slots

A node is a payload followed by an array of link slots whose length is fixed when the node is
allocated. Nodes are named by their position in the arena. A slot that has not been written
since its allocation holds `none`, so reading it fails, as does any access to a slot the node
does not have.
-/
namespace PersistTree.Library

/-- A pointer: `none` is the null pointer, `some x` points to node `x`. -/
abbrev Ptr := Option ℕ

structure Node (δ : Type*) where
  payload : δ
  slots : List (Option Ptr)
  deriving Repr, DecidableEq

abbrev Arena (δ : Type*) := List (Node δ)

namespace Arena

variable {δ : Type*}

def next (m : Arena δ) (i x : ℕ) : Option Ptr :=
  m[x]?.bind fun n => n.slots[i]?.join

def height (m : Arena δ) (x : ℕ) : ℕ := (m[x]?.map fun n => n.slots.length).getD 0

/-- Store into slot `i` of node `x`; fails when the node has no such slot. -/
def setNext (m : Arena δ) (x i : ℕ) (p : Ptr) : Option (Arena δ) :=
  m[x]?.bind fun n =>
    if i < n.slots.length then some (m.set x { n with slots := n.slots.set i (some p) }) else none

/-- Append a node with `height` slots, none of them written. Its address is `m.length`. -/
def alloc (m : Arena δ) (payload : δ) (height : ℕ) : Arena δ :=
  m ++ [{ payload := payload, slots := List.replicate height none }]

variable {m m' : Arena δ} {x y i j : ℕ} {p : Ptr} {d : δ}

theorem lt_length_of_height (h : i < m.height x) : x < m.length := by
  by_contra hx
  simp [height, List.getElem?_eq_none (Nat.le_of_not_lt hx)] at h

theorem setNext_eq (h : i < m.height x) : ∃ m', m.setNext x i p = some m' := by
  have hx := lt_length_of_height h
  simp only [height, List.getElem?_eq_getElem hx, Option.map_some, Option.getD_some] at h
  exact ⟨m.set x { m[x] with slots := m[x].slots.set i (some p) },
    by simp [setNext, List.getElem?_eq_getElem hx, h]⟩

theorem setNext_some (h : m.setNext x i p = some m') :
    ∃ n, m[x]? = some n ∧ i < n.slots.length ∧
      m' = m.set x { n with slots := n.slots.set i (some p) } := by
  obtain ⟨n, hn, h⟩ := Option.bind_eq_some_iff.mp h
  split_ifs at h with hi
  exact ⟨n, hn, hi, (Option.some.inj h).symm⟩

theorem setNext_length (h : m.setNext x i p = some m') : m'.length = m.length := by
  obtain ⟨n, _, _, rfl⟩ := setNext_some h
  simp

theorem setNext_height (h : m.setNext x i p = some m') (y : ℕ) : m'.height y = m.height y := by
  obtain ⟨n, hn, _, rfl⟩ := setNext_some h
  by_cases hy : y = x
  · subst y
    obtain ⟨hx, rfl⟩ := List.getElem?_eq_some_iff.mp hn
    simp [height, hx]
  · simp [height, List.getElem?_set_ne (Ne.symm hy)]

theorem setNext_payload (h : m.setNext x i p = some m') (y : ℕ) :
    m'[y]?.map Node.payload = m[y]?.map Node.payload := by
  obtain ⟨n, hn, _, rfl⟩ := setNext_some h
  by_cases hy : y = x
  · subst y
    obtain ⟨hx, rfl⟩ := List.getElem?_eq_some_iff.mp hn
    simp [hx]
  · simp [List.getElem?_set_ne (Ne.symm hy)]

theorem next_setNext (h : m.setNext x i p = some m') (j y : ℕ) :
    m'.next j y = if y = x ∧ j = i then some p else m.next j y := by
  obtain ⟨n, hn, hi, rfl⟩ := setNext_some h
  by_cases hy : y = x
  · subst y
    obtain ⟨hx, rfl⟩ := List.getElem?_eq_some_iff.mp hn
    by_cases hj : j = i
    · subst j
      simp [next, hx, hi]
    · simp [next, hx, hj, List.getElem?_set_ne (Ne.symm hj)]
  · simp [next, hy, List.getElem?_set_ne (Ne.symm hy)]

@[simp] theorem alloc_length (m : Arena δ) (d : δ) (n : ℕ) :
    (m.alloc d n).length = m.length + 1 := by simp [alloc]

theorem alloc_getElem? (hx : x < m.length) (d : δ) (n : ℕ) : (m.alloc d n)[x]? = m[x]? := by
  simp [alloc, List.getElem?_append_left hx]

theorem alloc_height_of_lt (hx : x < m.length) (d : δ) (n : ℕ) :
    (m.alloc d n).height x = m.height x := by
  simp only [height, alloc_getElem? hx]

@[simp] theorem alloc_height_self (m : Arena δ) (d : δ) (n : ℕ) :
    (m.alloc d n).height m.length = n := by simp [height, alloc]

@[simp] theorem alloc_payload_self (m : Arena δ) (d : δ) (n : ℕ) :
    (m.alloc d n)[m.length]?.map Node.payload = some d := by simp [alloc]

theorem next_alloc (m : Arena δ) (d : δ) (n i x : ℕ) : (m.alloc d n).next i x = m.next i x := by
  rcases lt_trichotomy x m.length with hx | hx | hx
  · simp only [next, alloc_getElem? hx]
  · subst x
    by_cases hi : i < n <;> simp [next, alloc, hi]
  · have h₁ : (m.alloc d n)[x]? = none := List.getElem?_eq_none (by simpa using hx)
    have h₂ : m[x]? = none := List.getElem?_eq_none (by omega)
    simp [next, h₁, h₂]

theorem lt_length_of_next (h : m.next i x = some p) : x < m.length := by
  obtain ⟨n, hn, -⟩ := Option.bind_eq_some_iff.mp h
  exact (List.getElem?_eq_some_iff.mp hn).1

theorem lt_length_of_chain {l : List ℕ} (h : Chain (m.next i) x l) (hy : y ∈ l) :
    y < m.length := by
  induction h with
  | nil _ => cases hy
  | @cons x z l _ ht ih =>
    rcases List.mem_cons.mp hy with rfl | hy
    · exact lt_length_of_next ht.next_eq
    · exact ih hy

theorem chain_length_le {l : List ℕ} (h : Chain (m.next i) x l) : l.length ≤ m.length := by
  have hsub : l ⊆ List.range m.length := fun y hy =>
    List.mem_range.mpr (lt_length_of_chain h hy)
  have hle := (h.nodup.subperm hsub).length_le
  rwa [List.length_range] at hle

end Arena

end PersistTree.Library
