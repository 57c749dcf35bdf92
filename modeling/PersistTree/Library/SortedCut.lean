import Mathlib.Order.Basic
import PersistTree.Library.FingerSearch

/-!
# Where a key belongs in a sorted list

A list of nodes is sorted by a view of its nodes, with repetitions allowed. A cut of the list is a
place for a key when no node before it lies above the key and no node after it lies below. An
insertion finds such a cut either by looking at the two nodes next to a boundary it already has,
or by a search for the nodes strictly below the key.
-/
namespace PersistTree.Library

variable {α β : Type*} [LinearOrder β] {v : α → β} {k : β} {P : α → Bool}
  {A B L : List α}

abbrev SortedBy (v : α → β) (L : List α) : Prop := L.Pairwise fun a b => v a ≤ v b

/-- The key `k` may stand between `A` and `B`. -/
structure Cut (v : α → β) (k : β) (A B : List α) : Prop where
  left : ∀ a ∈ A, v a ≤ k
  right : ∀ b ∈ B, k ≤ v b

namespace SortedBy

theorem le_lastFrom (hs : SortedBy v A) (z : α) : ∀ a ∈ A, v a ≤ v (lastFrom z A) := by
  rcases List.eq_nil_or_concat' A with rfl | ⟨A', c, rfl⟩
  · simp
  · intro a ha
    rw [lastFrom_append]
    rcases List.mem_append.mp ha with ha | ha
    · exact (List.pairwise_append.mp hs).2.2 a ha c (by simp)
    · rw [List.mem_singleton.mp ha]
      exact le_rfl

theorem lastFrom_le (hs : SortedBy v (A ++ B)) (hA : A ≠ []) (z : α) :
    ∀ b ∈ B, v (lastFrom z A) ≤ v b :=
  (List.pairwise_append.mp hs).2.2 _ (lastFrom_mem_of_ne_nil z hA)

theorem head_le {n : α} (hs : SortedBy v B) (hn : B.head? = some n) : ∀ b ∈ B, v n ≤ v b := by
  cases B with
  | nil => simp
  | cons c B =>
    obtain rfl : c = n := by simpa using hn
    intro b hb
    rcases List.mem_cons.mp hb with rfl | hb
    · exact le_rfl
    · exact (List.pairwise_cons.mp hs).1 b hb

theorem congr {w : α → β} (hs : SortedBy v L) (hw : ∀ y ∈ L, w y = v y) : SortedBy w L :=
  hs.imp_of_mem fun ha hb hab => by
    rw [hw _ ha, hw _ hb]
    exact hab

theorem decreasing (hs : SortedBy v L) (hP : ∀ a, P a = true ↔ v a < k) : Decreasing P L :=
  hs.imp fun hab hb => (hP _).mpr (lt_of_le_of_lt hab ((hP _).mp hb))

end SortedBy

namespace Cut

/-- Looking at the nodes on both sides of the boundary is enough. -/
theorem of_neighbours (hs : SortedBy v (A ++ B)) {z : α} (hlast : A ≠ [] → v (lastFrom z A) ≤ k)
    (hhead : ∀ n, B.head? = some n → k ≤ v n) : Cut v k A B := by
  obtain ⟨hA, hB, -⟩ := List.pairwise_append.mp hs
  constructor
  · intro a ha
    exact le_trans (SortedBy.le_lastFrom hA z a ha) (hlast (List.ne_nil_of_mem ha))
  · cases B with
    | nil => simp
    | cons n B => exact fun b hb => le_trans (hhead n rfl) (SortedBy.head_le hB rfl b hb)

theorem of_lastFrom_eq (hs : SortedBy v (A ++ B)) {z : α} (hne : A = [] → B = [])
    (hlast : A ≠ [] → v (lastFrom z A) = k) : Cut v k A B := by
  apply of_neighbours hs (fun hA => (hlast hA).le)
  intro n hn
  by_cases hA : A = []
  · rw [hne hA] at hn
    cases hn
  · rw [← hlast hA]
    exact SortedBy.lastFrom_le hs hA z n (List.mem_of_mem_head? hn)

/-- The cut found by a search for the nodes strictly below the key. -/
theorem of_search (hP : ∀ a, P a = true ↔ v a < k) (hA : ∀ a ∈ A, P a = true)
    (hB : ∀ b ∈ B, P b = false) : Cut v k A B where
  left a ha := ((hP a).mp (hA a ha)).le
  right b hb := not_lt.mp fun hlt => by
    have hb' := (hP b).mpr hlt
    rw [hB b hb] at hb'
    cases hb'

theorem sorted {x : α} (hc : Cut v (v x) A B) (hs : SortedBy v (A ++ B)) :
    SortedBy v (A ++ x :: B) := by
  obtain ⟨hA, hB, hAB⟩ := List.pairwise_append.mp hs
  refine List.pairwise_append.mpr ⟨hA, List.pairwise_cons.mpr ⟨hc.right, hB⟩, fun a ha b hb => ?_⟩
  rcases List.mem_cons.mp hb with rfl | hb
  · exact hc.left a ha
  · exact hAB a ha b hb

/-- The nodes between two places for a key have the key. -/
theorem eq_of_between {G : List α} (hc : Cut v k (A ++ G) B) (hc' : Cut v k A (G ++ B)) :
    ∀ y ∈ G, v y = k := by
  intro y hy
  apply le_antisymm
  · exact hc.left y (List.mem_append_right _ hy)
  · exact hc'.right y (List.mem_append_left _ hy)

theorem unique {A' B' : List α} (hc : Cut v k A B) (hc' : Cut v k A' B')
    (hsame : A ++ B = A' ++ B') (hne : ∀ y ∈ A ++ B, v y ≠ k) : A = A' := by
  rcases List.append_eq_append_iff.mp hsame with ⟨G, rfl, rfl⟩ | ⟨G, rfl, rfl⟩
  · have hG : G = [] := List.eq_nil_iff_forall_not_mem.mpr fun y hy =>
      hne y (by simp [hy]) (eq_of_between hc' hc y hy)
    rw [hG, List.append_nil]
  · have hG : G = [] := List.eq_nil_iff_forall_not_mem.mpr fun y hy =>
      hne y (by simp [hy]) (eq_of_between hc hc' y hy)
    rw [hG, List.append_nil]

theorem congr {w : α → β} (hc : Cut v k A B) (hw : ∀ y ∈ A ++ B, w y = v y) : Cut w k A B where
  left a ha := hw a (List.mem_append_left _ ha) ▸ hc.left a ha
  right b hb := hw b (List.mem_append_right _ hb) ▸ hc.right b hb

end Cut

end PersistTree.Library
