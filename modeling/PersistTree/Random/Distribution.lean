import Mathlib.Data.Int.CardIntervalMod
import PersistTree.Random.Random

/-!
# The distribution of the draws

Over one period the draws are the numbers from 1 to `M - 1`, so what `Uniform` and `RandomHeight`
make of them can be counted. `Uniform` is as uniform as a remainder can be, and one in `kBranching_`
calls of `RandomHeight` climbs; from the seed that `GoodSeed` lets pass none does, and both lists
degenerate to their level-0 chains.
-/
namespace PersistTree.Random

open Library

variable {r : Random} {s : UInt32} {k : ℕ}

theorem draw_eq (r : Random) (k : ℕ) : r.draw k = (r.after k).next.1 := by
  induction k generalizing r with
  | zero => rfl
  | succ k ih => exact ih r.next.2

theorem Lively.after (h : r.Lively) (k : ℕ) : (r.after k).Lively := by
  induction k generalizing r with
  | zero => exact h
  | succ k ih => exact ih h.next.2

/-- Counting over the draws of one period is counting over the numbers from 1 to `M - 1`. -/
theorem Lively.card_filter_draw (h : r.Lively) (P : ℕ → Prop) [DecidablePred P] :
    ((Finset.range (2 ^ 31 - 2)).filter fun k => P (r.draw k).toNat).card =
      ((Finset.Ico 1 (2 ^ 31 - 1)).filter P).card := by
  refine card_filter_of_existsUnique (fun k => (r.draw k).toNat) (fun k _ => ?_)
    (fun v hlo hhi => h.existsUnique_draw hlo hhi) P
  rw [draw_eq]
  exact (h.after k).next.2

theorem card_Ico_mod {m v : ℕ} (n : ℕ) (hv : v < m) :
    n / m ≤ ((Finset.Ico 1 (n + 1)).filter fun x => x % m = v).card ∧
      ((Finset.Ico 1 (n + 1)).filter fun x => x % m = v).card ≤ n / m + 1 := by
  have hm : 0 < m := by omega
  have hcount := Nat.count_modEq_card (n + 1) hm v
  have hmod : ∀ x, x ≡ v [MOD m] ↔ x % m = v := fun x => by rw [Nat.ModEq, Nat.mod_eq_of_lt hv]
  have hrange : Finset.range (n + 1) = insert 0 (Finset.Ico 1 (n + 1)) := by
    ext x
    simp only [Finset.mem_range, Finset.mem_insert, Finset.mem_Ico]
    omega
  -- 0 is counted too, when it has the remainder
  have hsplit : ((Finset.range (n + 1)).filter fun x => x % m = v).card =
      ((Finset.Ico 1 (n + 1)).filter fun x => x % m = v).card + if v = 0 then 1 else 0 := by
    rw [hrange, Finset.filter_insert, Nat.zero_mod]
    by_cases h0 : v = 0
    · rw [if_pos h0.symm, if_pos h0, Finset.card_insert_of_notMem (by simp)]
    · rw [if_neg (Ne.symm h0), if_neg h0]
      exact (Nat.add_zero _).symm
  simp only [hmod, Nat.count_eq_card_filter_range, Nat.mod_eq_of_lt hv] at hcount
  rw [hsplit, Nat.succ_div] at hcount
  have hdvd := Nat.dvd_iff_mod_eq_zero (m := m) (n := n + 1)
  split_ifs at hcount <;> omega

/-- Whatever is counted: `Uniform(n)` returns each number below `n` equally often in a period, up to
one call. -/
theorem uniform_equidistributed (s n v : UInt32) (hs : s &&& M ≠ M) (hv : v < n) :
    (2 ^ 31 - 2) / n.toNat ≤ ((Finset.range (2 ^ 31 - 2)).filter fun k =>
        (((new s).after k).uniform n).map Prod.fst = .ok v).card ∧
      ((Finset.range (2 ^ 31 - 2)).filter fun k =>
        (((new s).after k).uniform n).map Prod.fst = .ok v).card ≤ (2 ^ 31 - 2) / n.toNat + 1 := by
  have hlt : v.toNat < n.toNat := UInt32.lt_iff_toNat_lt.mp hv
  have hn : n ≠ 0 := by
    rintro rfl
    exact absurd hlt (Nat.not_lt_zero _)
  have hvalue : ∀ k, (((new s).after k).uniform n).map Prod.fst = .ok v ↔
      ((new s).draw k).toNat % n.toNat = v.toNat := by
    intro k
    rw [uniform, if_neg hn, draw_eq, ← UInt32.toNat_mod, UInt32.toNat_inj]
    exact ⟨Except.ok.inj, congrArg _⟩
  simp only [hvalue]
  rw [((lively_new_iff s).mpr hs).card_filter_draw fun x => x % n.toNat = v.toNat]
  exact card_Ico_mod (2 ^ 31 - 2) hlt

/-- `Uniform(6)` from a seed of 1: no digit comes up more than once more often than another. -/
theorem uniform_equidistributed_six :
    357913941 ≤ ((Finset.range (2 ^ 31 - 2)).filter fun k =>
        (((new 1).after k).uniform 6).map Prod.fst = .ok 5).card ∧
      ((Finset.range (2 ^ 31 - 2)).filter fun k =>
        (((new 1).after k).uniform 6).map Prod.fst = .ok 5).card ≤ 357913942 :=
  uniform_equidistributed 1 6 5 (by decide) (by decide)

/-- The heights that the model of the lists allows for include those of the generator. -/
theorem climb_eq (c : UInt32) (draws : ℕ → ℕ) (n height : ℕ)
    (h : ∀ k, draws (height + k) = (r.draw k).toNat) :
    (climb c n height r).1 = PersistTree.climb c.toNat draws n height := by
  induction n generalizing height r with
  | zero => rfl
  | succ n ih =>
    have h0 : draws height = r.next.1.toNat := h 0
    rw [climb, PersistTree.climb, h0]
    by_cases hlt : r.next.1 < c
    · rw [if_pos hlt, if_pos (UInt32.lt_iff_toNat_lt.mp hlt)]
      exact ih (height + 1) fun k => by rw [Nat.add_assoc, Nat.add_comm 1 k]; exact h (k + 1)
    · rw [if_neg hlt, if_neg fun hlt' => hlt (UInt32.lt_iff_toNat_lt.mpr hlt')]

theorem randomHeight_eq (r : Random) (kMaxHeight : ℕ) (c : UInt32) :
    (r.randomHeight kMaxHeight c).1 =
      PersistTree.randomHeight kMaxHeight c.toNat fun height => (r.draw (height - 1)).toNat :=
  climb_eq c _ (kMaxHeight - 1) 1 fun k => by rw [Nat.add_sub_cancel_left]

/-- A node is taller than 1 when the next draw lets it climb. -/
theorem one_lt_randomHeight_iff {kMaxHeight : ℕ} (hk : 2 ≤ kMaxHeight) (c : UInt32) :
    1 < (r.randomHeight kMaxHeight c).1 ↔ r.next.1 < c := by
  obtain ⟨n, rfl⟩ : ∃ n, kMaxHeight = n + 2 := ⟨kMaxHeight - 2, by omega⟩
  rw [randomHeight, show n + 2 - 1 = n + 1 from rfl, climb]
  split_ifs with hlt
  · refine iff_of_true ?_ hlt
    rw [climb_eq c (fun h => (r.next.2.draw (h - 2)).toNat) n 2
      fun k => by rw [Nat.add_sub_cancel_left]]
    exact (climb_bounds _ _ _ _).1
  · exact iff_of_false (lt_irrefl 1) hlt

/-- Among the calls of `RandomHeight` that may start at any draw of a period, one in `kBranching_`
makes a node taller than 1; from the seed that `GoodSeed` lets pass, none does. -/
theorem tall_nodes (s c kBranching : UInt32) (kMaxHeight : ℕ) (hk : 2 ≤ kMaxHeight)
    (hb : 2 ≤ kBranching) (hc : scaledInverseBranching kBranching = .ok c) :
    ((Finset.range (2 ^ 31 - 2)).filter fun k =>
      1 < (((new s).after k).randomHeight kMaxHeight c).1).card =
        if s &&& M = M then 0 else 2 ^ 31 / kBranching.toNat - 1 := by
  have hb' : 2 ≤ kBranching.toNat := UInt32.le_iff_toNat_le.mp hb
  have hc : c.toNat = 2 ^ 31 / kBranching.toNat := by
    rw [scaledInverseBranching, if_neg (by rintro rfl; exact absurd hb' (by decide))] at hc
    rw [← Except.ok.inj hc, UInt32.toNat_div]
    rfl
  have hle : 2 ^ 31 / kBranching.toNat ≤ 2 ^ 30 := by
    calc 2 ^ 31 / kBranching.toNat ≤ 2 ^ 31 / 2 := Nat.div_le_div_left hb' (by norm_num)
      _ = 2 ^ 30 := by norm_num
  simp only [one_lt_randomHeight_iff hk, ← draw_eq, UInt32.lt_iff_toNat_lt, hc]
  split_ifs with hs
  · rw [Finset.card_eq_zero, Finset.filter_eq_empty_iff]
    intro k _
    rw [draw_of_bad_seed hs k, toNat_M]
    omega
  · rw [((lively_new_iff s).mpr hs).card_filter_draw fun x => x < 2 ^ 31 / kBranching.toNat]
    have hfilter : ((Finset.Ico 1 (2 ^ 31 - 1)).filter fun x => x < 2 ^ 31 / kBranching.toNat) =
        Finset.Ico 1 (2 ^ 31 / kBranching.toNat) := by
      ext x
      simp only [Finset.mem_filter, Finset.mem_Ico]
      omega
    rw [hfilter, Nat.card_Ico]

/-- With `kBranching_` 4, the DRAM list's. -/
theorem tall_nodes_four :
    ((Finset.range (2 ^ 31 - 2)).filter fun k =>
      1 < (((new 7).after k).randomHeight 12 536870912).1).card = 536870911 :=
  tall_nodes 7 536870912 4 12 (by norm_num) (by decide) rfl

end PersistTree.Random
