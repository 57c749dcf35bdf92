import Mathlib.Data.List.Basic
import Mathlib.Tactic

/-!
# Cutting a sequence into batches

Elements are gathered until the batch is full, and the next batch starts empty. `cut` does this one
element at a time; what it computes is the only way to write the sequence as complete batches, each
of them full with its last element and not before, followed by a rest that is not full yet.
-/
namespace PersistTree.Library

variable {α : Type*}

/-- Cut `l` into batches, starting with the elements `active`. -/
def cut (full : List α → Bool) : List α → List α → List (List α) × List α
  | active, [] => ([], active)
  | active, a :: l =>
    if full (active ++ [a]) then
      let r := cut full [] l
      ((active ++ [a]) :: r.1, r.2)
    else cut full (active ++ [a]) l

/-- No batch would have been cut off within these elements. -/
def Unfilled (full : List α → Bool) (l : List α) : Prop :=
  ∀ p, p <+: l → p ≠ [] → full p = false

/-- A batch that becomes full with its last element. -/
def Complete (full : List α → Bool) (batch : List α) : Prop :=
  ∃ init a, batch = init ++ [a] ∧ Unfilled full init ∧ full batch = true

structure IsCut (full : List α → Bool) (l : List α) (batches : List (List α)) (rest : List α) :
    Prop where
  flatten : batches.flatten ++ rest = l
  complete : ∀ batch ∈ batches, Complete full batch
  unfilled : Unfilled full rest

variable {full : List α → Bool} {active l rest batch : List α} {batches : List (List α)} {a : α}

theorem Unfilled.nil : Unfilled full [] := by
  intro p hp hne
  exact absurd (List.prefix_nil.mp hp) hne

theorem Unfilled.concat (h : Unfilled full l) (ha : full (l ++ [a]) = false) :
    Unfilled full (l ++ [a]) := by
  intro p hp hne
  rcases List.prefix_concat_iff.mp hp with rfl | hp
  · exact ha
  · exact h p hp hne

theorem cut_cons_full (h : full (active ++ [a]) = true) :
    cut full active (a :: l) = ((active ++ [a]) :: (cut full [] l).1, (cut full [] l).2) := by
  rw [cut, if_pos h]

theorem cut_cons_unfilled (h : full (active ++ [a]) = false) :
    cut full active (a :: l) = cut full (active ++ [a]) l := by
  rw [cut, if_neg (by rw [h]; exact Bool.false_ne_true)]

theorem cut_gather (h : Unfilled full (active ++ l)) (l' : List α) :
    cut full active (l ++ l') = cut full (active ++ l) l' := by
  induction l generalizing active with
  | nil => rw [List.nil_append, List.append_nil]
  | cons a l ih =>
    have ha : full (active ++ [a]) = false := by
      apply h
      · rw [List.append_cons active a l]
        exact List.prefix_append _ _
      · simp
    rw [List.append_cons] at h
    rw [List.cons_append, cut_cons_unfilled ha, ih h, ← List.append_cons]

theorem cut_complete (h : Complete full batch) (l : List α) :
    cut full [] (batch ++ l) = (batch :: (cut full [] l).1, (cut full [] l).2) := by
  obtain ⟨init, a, rfl, hinit, hfull⟩ := h
  rw [List.append_assoc, cut_gather (by rwa [List.nil_append]), List.nil_append,
    List.singleton_append, cut_cons_full hfull]

theorem IsCut.cut_eq (h : IsCut full l batches rest) : cut full [] l = (batches, rest) := by
  obtain ⟨rfl, hcomplete, hrest⟩ := h
  induction batches with
  | nil =>
    have hgather : cut full [] (rest ++ []) = cut full ([] ++ rest) [] := cut_gather hrest []
    rw [List.append_nil] at hgather
    exact hgather
  | cons batch batches ih =>
    rw [List.flatten_cons, List.append_assoc, cut_complete (hcomplete batch (by simp)),
      ih fun b hb => hcomplete b (List.mem_cons_of_mem _ hb)]

/-- What has been gathered before is the beginning of the first batch. -/
theorem cut_spec (hactive : Unfilled full active) :
    IsCut full (active ++ l) (cut full active l).1 (cut full active l).2 := by
  induction l generalizing active with
  | nil =>
    rw [List.append_nil]
    exact ⟨rfl, nofun, hactive⟩
  | cons a l ih =>
    cases hfull : full (active ++ [a]) with
    | true =>
      rw [cut_cons_full hfull]
      obtain ⟨hflat, hcomplete, hrest⟩ := ih (Unfilled.nil : Unfilled full [])
      refine ⟨?_, ?_, hrest⟩
      · rw [List.flatten_cons, List.append_assoc, hflat, List.nil_append, ← List.append_cons]
      · intro batch hbatch
        rcases List.mem_cons.mp hbatch with rfl | hbatch
        · exact ⟨active, a, rfl, hactive, hfull⟩
        · exact hcomplete batch hbatch
    | false =>
      rw [cut_cons_unfilled hfull, List.append_cons]
      exact ih (hactive.concat hfull)

theorem isCut_cut (full : List α → Bool) (l : List α) :
    IsCut full l (cut full [] l).1 (cut full [] l).2 :=
  cut_spec (Unfilled.nil : Unfilled full [])

end PersistTree.Library
