import PersistTree.Library.Chain

/-!
# Levels and fingers of a skip list

A skip list over a base list `L` gives every node a height; level `i` is the subsequence of the
nodes taller than `i`. A finger at level `i` into a prefix `A` of the base list is the last node
of `A` taller than `i`, or the sentinel head when there is none.
-/
namespace PersistTree.Library

variable {α : Type*} (h : α → ℕ)

/-- The nodes of level `i`, in base-list order. -/
def level (i : ℕ) (L : List α) : List α := L.filter fun a => decide (i < h a)

/-- The last node taller than `i`, or `head`. -/
def finger (head : α) (i : ℕ) (A : List α) : α := lastFrom head (level h i A)

variable {h} {head a x : α} {i : ℕ} {A B L : List α}

@[simp] theorem level_nil : level h i [] = [] := rfl

@[simp] theorem level_append : level h i (A ++ B) = level h i A ++ level h i B :=
  List.filter_append ..

theorem level_cons : level h i (a :: L) = if i < h a then a :: level h i L else level h i L := by
  simp [level, List.filter_cons]

theorem level_cons_of_lt (ha : i < h a) : level h i (a :: L) = a :: level h i L := by
  rw [level_cons, if_pos ha]

theorem level_cons_of_le (ha : h a ≤ i) : level h i (a :: L) = level h i L := by
  rw [level_cons, if_neg (Nat.not_lt.mpr ha)]

@[simp] theorem mem_level : a ∈ level h i L ↔ a ∈ L ∧ i < h a := by simp [level]

theorem level_sublist (i : ℕ) (L : List α) : (level h i L).Sublist L := List.filter_sublist

theorem level_zero (hpos : ∀ a ∈ L, 0 < h a) : level h 0 L = L := by
  simpa [level] using hpos

theorem level_congr {h' : α → ℕ} (hh : ∀ a ∈ L, h' a = h a) : level h' i L = level h i L :=
  List.filter_congr fun a ha => by rw [hh a ha]

theorem level_eq_nil : level h i L = [] ↔ ∀ a ∈ L, h a ≤ i := by
  simp [level, List.filter_eq_nil_iff]

@[simp] theorem finger_nil : finger h head i [] = head := rfl

theorem finger_append : finger h head i (A ++ B) = finger h (finger h head i A) i B := by
  simp [finger]

theorem finger_concat :
    finger h head i (A ++ [x]) = if i < h x then x else finger h head i A := by
  rw [finger_append]
  unfold finger
  rw [level_cons]
  split_ifs <;> rfl

theorem finger_mem (head : α) (i : ℕ) (A : List α) :
    finger h head i A = head ∨ finger h head i A ∈ A ∧ i < h (finger h head i A) := by
  rcases lastFrom_mem head (level h i A) with he | hm
  · exact Or.inl he
  · exact Or.inr (mem_level.mp hm)

theorem finger_congr {h' : α → ℕ} (hh : ∀ a ∈ A, h' a = h a) :
    finger h' head i A = finger h head i A := by
  rw [finger, level_congr hh, finger]

theorem finger_of_le (hA : ∀ a ∈ A, h a ≤ i) : finger h head i A = head := by
  rw [finger, level_eq_nil.mpr hA, lastFrom_nil]

theorem finger_append_of_level_eq_nil (hB : level h i B = []) :
    finger h head i (A ++ B) = finger h head i A := by
  simp [finger, hB]

theorem finger_zero (hpos : ∀ a ∈ A, 0 < h a) : finger h head 0 A = lastFrom head A := by
  rw [finger, level_zero hpos]

/-- Cut a prefix right after its level-`i` finger. -/
theorem exists_cut_at_finger (h : α → ℕ) (head : α) (i : ℕ) (A : List α) :
    ∃ A₀ A₁, A = A₀ ++ A₁ ∧ lastFrom head A₀ = finger h head i A ∧ level h i A₁ = [] ∧
      (A₀ = [] ∨ i < h (lastFrom head A₀)) := by
  induction A using List.reverseRecOn with
  | nil => exact ⟨[], [], rfl, rfl, rfl, Or.inl rfl⟩
  | append_singleton A x ih =>
    by_cases hx : i < h x
    · refine ⟨A ++ [x], [], by simp, ?_, rfl, Or.inr (by simpa using hx)⟩
      simp [finger_concat, hx]
    · obtain ⟨A₀, A₁, rfl, hl, hn, hc⟩ := ih
      refine ⟨A₀, A₁ ++ [x], by simp, ?_, ?_, hc⟩
      · rw [hl, finger_concat, if_neg hx]
      · simp [hn, level_cons, hx]

end PersistTree.Library
