import Mathlib.Data.ZMod.Basic
import Mathlib.FieldTheory.Finite.Basic
import Mathlib.GroupTheory.OrderOfElement
import Mathlib.Tactic

/-!
# Multiplicative congruential generators

The sequence `x, a x, a² x, …` modulo a prime `p`. When `a` has order `p - 1` it passes every
residue but zero exactly once in `p - 1` steps, so that whatever is counted over one period is
counted over the numbers from 1 to `p - 1`. For a modulus one less than a power of two, the
remainder is folded together from the two parts of a number.
-/
namespace PersistTree.Library

section period

variable {p : ℕ} [Fact p.Prime] {a x y : ZMod p}

theorem pow_mul_injOn (ha : orderOf a = p - 1) (hx : x ≠ 0) {j k : ℕ} (hj : j < p - 1)
    (hk : k < p - 1) (h : a ^ j * x = a ^ k * x) : j = k := by
  have hpow : a ^ j = a ^ k := mul_right_cancel₀ hx h
  rw [← ha] at hj hk
  exact pow_injOn_Iio_orderOf hj hk hpow

/-- Every residue but zero is reached, once per period. -/
theorem existsUnique_pow_mul (ha : orderOf a = p - 1) (hx : x ≠ 0) (hy : y ≠ 0) :
    ∃! k, k < p - 1 ∧ a ^ k * x = y := by
  have hpos : 0 < p - 1 := Nat.sub_pos_of_lt (Fact.out : p.Prime).one_lt
  have ha0 : a ≠ 0 := by
    rintro rfl
    rw [orderOf_zero] at ha
    omega
  let f : Fin (p - 1) → { z : ZMod p // z ≠ 0 } := fun k =>
    ⟨a ^ (k : ℕ) * x, mul_ne_zero (pow_ne_zero _ ha0) hx⟩
  have hinj : Function.Injective f := fun j k h =>
    Fin.ext (pow_mul_injOn ha hx j.2 k.2 (congrArg Subtype.val h))
  have hcard : Fintype.card (Fin (p - 1)) = Fintype.card { z : ZMod p // z ≠ 0 } := by
    rw [Fintype.card_fin, ← ZMod.card_units p]
    exact Fintype.card_congr unitsEquivNeZero
  obtain ⟨k, hk⟩ := ((Fintype.bijective_iff_injective_and_card f).mpr ⟨hinj, hcard⟩).2 ⟨y, hy⟩
  refine ⟨k, ⟨k.2, congrArg Subtype.val hk⟩, fun j ⟨hj, he⟩ => ?_⟩
  exact pow_mul_injOn ha hx hj k.2 (he.trans (congrArg Subtype.val hk).symm)

end period

section count

variable {n lo hi : ℕ}

theorem card_filter_of_existsUnique (draw : ℕ → ℕ) (hmem : ∀ k < n, lo ≤ draw k ∧ draw k < hi)
    (hall : ∀ v, lo ≤ v → v < hi → ∃! k, k < n ∧ draw k = v) (P : ℕ → Prop) [DecidablePred P] :
    ((Finset.range n).filter fun k => P (draw k)).card = ((Finset.Ico lo hi).filter P).card := by
  refine Finset.card_bij (fun k _ => draw k) ?_ ?_ ?_
  · intro k hk
    obtain ⟨hk, hP⟩ := Finset.mem_filter.mp hk
    exact Finset.mem_filter.mpr ⟨Finset.mem_Ico.mpr (hmem k (Finset.mem_range.mp hk)), hP⟩
  · intro j hj k hk he
    obtain ⟨hj, -⟩ := Finset.mem_filter.mp hj
    obtain ⟨hk, -⟩ := Finset.mem_filter.mp hk
    rw [Finset.mem_range] at hj hk
    obtain ⟨hlo, hhi⟩ := hmem k hk
    exact (hall _ hlo hhi).unique ⟨hj, he⟩ ⟨hk, rfl⟩
  · intro v hv
    obtain ⟨hv, hP⟩ := Finset.mem_filter.mp hv
    obtain ⟨hlo, hhi⟩ := Finset.mem_Ico.mp hv
    obtain ⟨k, ⟨hk, he⟩, -⟩ := hall v hlo hhi
    exact ⟨k, Finset.mem_filter.mpr ⟨Finset.mem_range.mpr hk, by rwa [he]⟩, he⟩

end count

section fold

variable {w x y : ℕ}

/-- `2 ^ w` counts as 1 modulo `2 ^ w - 1`. -/
theorem fold_modEq (w x : ℕ) : x / 2 ^ w + x % 2 ^ w ≡ x [MOD 2 ^ w - 1] := by
  have hone : 2 ^ w ≡ 1 [MOD 2 ^ w - 1] :=
    (Nat.modEq_iff_dvd' (Nat.one_le_two_pow)).mpr (dvd_refl _) |>.symm
  calc x / 2 ^ w + x % 2 ^ w = 1 * (x / 2 ^ w) + x % 2 ^ w := by rw [one_mul]
    _ ≡ 2 ^ w * (x / 2 ^ w) + x % 2 ^ w [MOD 2 ^ w - 1] := (hone.symm.mul_right _).add_right _
    _ = x := Nat.div_add_mod x (2 ^ w)

/-- One subtraction completes the reduction, when the number is not divisible. -/
theorem fold_eq_mod (hx : ¬2 ^ w - 1 ∣ x) (hlt : x / 2 ^ w < 2 ^ w - 1)
    (hy : y = if 2 ^ w - 1 < x / 2 ^ w + x % 2 ^ w then x / 2 ^ w + x % 2 ^ w - (2 ^ w - 1)
      else x / 2 ^ w + x % 2 ^ w) : y = x % (2 ^ w - 1) := by
  have hmod := fold_modEq w x
  have hlow : x % 2 ^ w < 2 ^ w := Nat.mod_lt _ (Nat.two_pow_pos w)
  generalize hz : x / 2 ^ w + x % 2 ^ w = z at hmod hy
  have hne : z ≠ 2 ^ w - 1 := by
    rintro rfl
    exact hx ((Nat.modEq_zero_iff_dvd.mp ((Nat.modEq_zero_iff_dvd.mpr (dvd_refl _)).symm.trans
      hmod).symm))
  split_ifs at hy with hlarge
  · rw [← hmod, hy, Nat.mod_eq_sub_mod hlarge.le, Nat.mod_eq_of_lt (by omega)]
  · rw [← hmod, hy, Nat.mod_eq_of_lt (by omega)]

end fold

end PersistTree.Library
