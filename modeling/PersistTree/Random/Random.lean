import Mathlib.NumberTheory.LucasPrimality
import PersistTree.Library.Lehmer
import PersistTree.SkipLists.Common

/-!
# The random numbers

`Random` of `random.h`: the generator behind the heights of both skip lists and the numbers in the
driver's keys. Its comment promises that the seed cycles through every number from 1 to `M - 1`.
-/
namespace PersistTree

open Library

structure Random where
  seed : UInt32
  deriving DecidableEq, Repr

namespace Random

/-- 2^31 - 1, and the largest value that can be returned from `Next()`. -/
def M : UInt32 := 2147483647

def A : UInt64 := 16807

def goodSeed (s : UInt32) : UInt32 := if s &&& M ≠ 0 then s &&& M else 1

/-- The constructor, and `Reset`. -/
def new (s : UInt32) : Random := ⟨goodSeed s⟩

def next (r : Random) : UInt32 × Random :=
  let product := r.seed.toUInt64 * A
  let seed := ((product >>> 31) + (product &&& M.toUInt64)).toUInt32
  let seed := if M < seed then seed - M else seed
  (seed, ⟨seed⟩)

/-- `Uniform(n)`; there is no remainder by 0. -/
def uniform (r : Random) (n : UInt32) : Except Fault (UInt32 × Random) :=
  if n = 0 then .error .divByZero else .ok (r.next.1 % n, r.next.2)

/-- The value of call number `k` of `Next()`, counted from 0. -/
def draw (r : Random) : ℕ → UInt32
  | 0 => r.next.1
  | k + 1 => r.next.2.draw k

def after (r : Random) : ℕ → Random
  | 0 => r
  | k + 1 => r.next.2.after k

/-- The loop of `RandomHeight`, with `n` levels left to climb. -/
def climb (kScaledInverseBranching : UInt32) : ℕ → ℕ → Random → ℕ × Random
  | 0, height, r => (height, r)
  | n + 1, height, r =>
    if r.next.1 < kScaledInverseBranching then climb kScaledInverseBranching n (height + 1) r.next.2
    else (height, r.next.2)

def randomHeight (r : Random) (kMaxHeight : ℕ) (kScaledInverseBranching : UInt32) : ℕ × Random :=
  climb kScaledInverseBranching (kMaxHeight - 1) 1 r

/-- `(Random::kMaxNext + 1) / kBranching_`, as the constructors of the lists compute it. -/
def scaledInverseBranching (kBranching : UInt32) : Except Fault UInt32 :=
  if kBranching = 0 then .error .divByZero else .ok ((M + 1) / kBranching)

/-! ### One call -/

variable {r : Random} {s : UInt32} {k : ℕ}

theorem toNat_M : M.toNat = 2 ^ 31 - 1 := rfl

/-- The seeds from which the generator does not get stuck. -/
def Lively (r : Random) : Prop := 0 < r.seed.toNat ∧ r.seed.toNat < 2 ^ 31 - 1

theorem toNat_product (hs : r.seed.toNat < 2 ^ 31) :
    (r.seed.toUInt64 * A).toNat = r.seed.toNat * 16807 := by
  rw [UInt64.toNat_mul, UInt32.toNat_toUInt64]
  show r.seed.toNat * 16807 % 2 ^ 64 = _
  exact Nat.mod_eq_of_lt (by omega)

theorem toNat_fold (hs : r.seed.toNat < 2 ^ 31) :
    (((r.seed.toUInt64 * A) >>> 31) + ((r.seed.toUInt64 * A) &&& M.toUInt64)).toUInt32.toNat =
      r.seed.toNat * 16807 / 2 ^ 31 + r.seed.toNat * 16807 % 2 ^ 31 := by
  have hshift : ((r.seed.toUInt64 * A) >>> 31).toNat = r.seed.toNat * 16807 / 2 ^ 31 := by
    rw [UInt64.toNat_shiftRight, toNat_product hs, Nat.shiftRight_eq_div_pow]
    rfl
  have hand : ((r.seed.toUInt64 * A) &&& M.toUInt64).toNat = r.seed.toNat * 16807 % 2 ^ 31 := by
    rw [UInt64.toNat_and, toNat_product hs, UInt32.toNat_toUInt64, toNat_M,
      Nat.and_two_pow_sub_one_eq_mod]
  rw [UInt64.toNat_toUInt32, UInt64.toNat_add, hshift, hand]
  omega

theorem toNat_next (hs : r.seed.toNat < 2 ^ 31) :
    r.next.1.toNat =
      if 2 ^ 31 - 1 < r.seed.toNat * 16807 / 2 ^ 31 + r.seed.toNat * 16807 % 2 ^ 31 then
        r.seed.toNat * 16807 / 2 ^ 31 + r.seed.toNat * 16807 % 2 ^ 31 - (2 ^ 31 - 1)
      else r.seed.toNat * 16807 / 2 ^ 31 + r.seed.toNat * 16807 % 2 ^ 31 := by
  rw [← toNat_fold hs, ← toNat_M]
  unfold next
  dsimp only
  split_ifs with hlt hlt' hlt'
  · exact UInt32.toNat_sub_of_le _ _ (UInt32.le_of_lt hlt)
  · exact absurd (UInt32.lt_iff_toNat_lt.mp hlt) hlt'
  · exact absurd (UInt32.lt_iff_toNat_lt.mpr hlt') hlt
  · rfl

/-- `Next` computes `(seed_ * A) % M`, and keeps away from 0 and `M`. -/
theorem Lively.next (h : r.Lively) :
    r.next.1.toNat = 16807 * r.seed.toNat % (2 ^ 31 - 1) ∧ r.next.2.Lively := by
  obtain ⟨hpos, hlt⟩ := h
  have hdvd : ¬2 ^ 31 - 1 ∣ r.seed.toNat * 16807 := by
    intro hdvd
    have hcoprime : Nat.Coprime (2 ^ 31 - 1) 16807 := by norm_num
    have hle := Nat.le_of_dvd hpos (hcoprime.dvd_of_dvd_mul_right hdvd)
    omega
  have hmod := fold_eq_mod hdvd (by omega) (toNat_next (by omega))
  rw [Nat.mul_comm] at hmod
  refine ⟨hmod, ?_⟩
  have hpos' : 0 < 16807 * r.seed.toNat % (2 ^ 31 - 1) :=
    Nat.pos_of_ne_zero fun h0 => hdvd (Nat.mul_comm _ _ ▸ Nat.dvd_of_mod_eq_zero h0)
  exact ⟨hmod ▸ hpos', hmod ▸ Nat.mod_lt _ (by norm_num)⟩

theorem draw_of_seed_eq (hs : r.seed = M) (k : ℕ) : r.draw k = M := by
  have hnext : r.next = (M, r) := by
    rw [next, hs]
    obtain ⟨seed⟩ := r
    cases hs
    rfl
  induction k with
  | zero => rw [draw, hnext]
  | succ k ih =>
    rw [draw, hnext]
    exact ih

theorem Lively.draw (h : r.Lively) (k : ℕ) :
    (r.draw k).toNat = 16807 ^ (k + 1) * r.seed.toNat % (2 ^ 31 - 1) := by
  induction k generalizing r with
  | zero => rw [Random.draw, h.next.1, Nat.zero_add, pow_one]
  | succ k ih =>
    have hseed : r.next.2.seed.toNat = 16807 * r.seed.toNat % (2 ^ 31 - 1) := h.next.1
    rw [Random.draw, ih h.next.2, hseed, Nat.mul_mod_mod, ← mul_assoc, ← pow_succ]

/-! ### One period -/

theorem prime_dvd_cases {q : ℕ} (hq : q.Prime) (h : q ∣ 2147483646) :
    q ∈ [2, 3, 7, 11, 31, 151, 331] := by
  have he : 2147483646 = 2 * 3 * 3 * 7 * 11 * 31 * 151 * 331 := by norm_num
  rw [he] at h
  simp only [hq.dvd_mul] at h
  have hmem : ∀ r : ℕ, r.Prime → q ∣ r → q = r := fun r hr hd =>
    (Nat.prime_dvd_prime_iff_eq hq hr).mp hd
  rcases h with ((((((h | h) | h) | h) | h) | h) | h) | h
  · rw [hmem 2 (by norm_num) h]; simp
  · rw [hmem 3 (by norm_num) h]; simp
  · rw [hmem 3 (by norm_num) h]; simp
  · rw [hmem 7 (by norm_num) h]; simp
  · rw [hmem 11 (by norm_num) h]; simp
  · rw [hmem 31 (by norm_num) h]; simp
  · rw [hmem 151 (by norm_num) h]; simp
  · rw [hmem 331 (by norm_num) h]; simp

theorem pow_A_eq_one : (16807 : ZMod 2147483647) ^ 2147483646 = 1 := by reduce_mod_char

theorem pow_A_ne_one {q : ℕ} (hq : q.Prime) (h : q ∣ 2147483646) :
    (16807 : ZMod 2147483647) ^ (2147483646 / q) ≠ 1 := by
  have hmem := prime_dvd_cases hq h
  simp only [List.mem_cons, List.not_mem_nil, or_false] at hmem
  rcases hmem with rfl | rfl | rfl | rfl | rfl | rfl | rfl
  · rw [show 2147483646 / 2 = 1073741823 by norm_num,
      show (16807 : ZMod 2147483647) ^ 1073741823 = 2147483646 by reduce_mod_char]
    decide +kernel
  · rw [show 2147483646 / 3 = 715827882 by norm_num,
      show (16807 : ZMod 2147483647) ^ 715827882 = 634005911 by reduce_mod_char]
    decide +kernel
  · rw [show 2147483646 / 7 = 306783378 by norm_num,
      show (16807 : ZMod 2147483647) ^ 306783378 = 1600955193 by reduce_mod_char]
    decide +kernel
  · rw [show 2147483646 / 11 = 195225786 by norm_num,
      show (16807 : ZMod 2147483647) ^ 195225786 = 298192073 by reduce_mod_char]
    decide +kernel
  · rw [show 2147483646 / 31 = 69273666 by norm_num,
      show (16807 : ZMod 2147483647) ^ 69273666 = 16384 by reduce_mod_char]
    decide +kernel
  · rw [show 2147483646 / 151 = 14221746 by norm_num,
      show (16807 : ZMod 2147483647) ^ 14221746 = 1013763951 by reduce_mod_char]
    decide +kernel
  · rw [show 2147483646 / 331 = 6487866 by norm_num,
      show (16807 : ZMod 2147483647) ^ 6487866 = 759513457 by reduce_mod_char]
    decide +kernel

instance : Fact (Nat.Prime 2147483647) :=
  ⟨lucas_primality 2147483647 16807 pow_A_eq_one fun _ hq h => pow_A_ne_one hq h⟩

/-- `A` is a primitive root modulo `M`. -/
theorem orderOf_A : orderOf (16807 : ZMod 2147483647) = 2147483647 - 1 :=
  orderOf_eq_of_pow_and_pow_div_prime (by norm_num) pow_A_eq_one fun _ hq h => pow_A_ne_one hq h

theorem natCast_ne_zero {n : ℕ} (hpos : 0 < n) (hlt : n < 2147483647) :
    (n : ZMod 2147483647) ≠ 0 := by
  rw [Ne, ZMod.natCast_eq_zero_iff]
  exact fun hdvd => absurd (Nat.le_of_dvd hpos hdvd) (by omega)

/-- From a lively seed every number from 1 to `M - 1` is drawn, once in `M - 1` calls. -/
theorem Lively.existsUnique_draw (h : r.Lively) {v : ℕ} (hpos : 0 < v) (hlt : v < 2 ^ 31 - 1) :
    ∃! k, k < 2 ^ 31 - 2 ∧ (r.draw k).toNat = v := by
  have hx : (16807 * r.seed.toNat : ZMod 2147483647) ≠ 0 :=
    mul_ne_zero (by decide +kernel) (natCast_ne_zero h.1 h.2)
  have hdraw : ∀ k, (r.draw k).toNat = v ↔
      (16807 : ZMod 2147483647) ^ k * (16807 * r.seed.toNat) = v := by
    intro k
    have hcast : (16807 : ZMod 2147483647) ^ k * (16807 * r.seed.toNat) =
        ((16807 ^ (k + 1) * r.seed.toNat : ℕ) : ZMod 2147483647) := by
      push_cast
      ring
    rw [hcast, ZMod.natCast_eq_natCast_iff', h.draw, Nat.mod_eq_of_lt (b := 2147483647) hlt]
    exact Iff.rfl
  obtain ⟨k, ⟨hk, he⟩, hunique⟩ :=
    existsUnique_pow_mul orderOf_A hx (natCast_ne_zero hpos hlt)
  exact ⟨k, ⟨hk, (hdraw k).mpr he⟩, fun j ⟨hj, he⟩ => hunique j ⟨hj, (hdraw j).mp he⟩⟩

/-- What `GoodSeed` makes of a seed: `M` slips through. -/
theorem lively_new_iff (s : UInt32) : (new s).Lively ↔ s &&& M ≠ M := by
  have hand : (s &&& M).toNat = s.toNat % 2 ^ 31 := by
    rw [UInt32.toNat_and, toNat_M, Nat.and_two_pow_sub_one_eq_mod]
  have hlt : s.toNat % 2 ^ 31 < 2 ^ 31 := Nat.mod_lt _ (by norm_num)
  rw [Ne, ← UInt32.toNat_inj, hand, toNat_M]
  unfold new goodSeed Lively
  split_ifs with hzero
  · have hpos : s.toNat % 2 ^ 31 ≠ 0 := fun h0 => hzero (UInt32.toNat_inj.mp (hand.trans h0))
    show 0 < (s &&& M).toNat ∧ (s &&& M).toNat < 2 ^ 31 - 1 ↔ _
    rw [hand]
    omega
  · have h0 : s.toNat % 2 ^ 31 = 0 := by
      rw [← hand, not_not.mp hzero]
      rfl
    rw [h0]
    decide

theorem draw_of_bad_seed (hs : s &&& M = M) (k : ℕ) : (new s).draw k = M := by
  refine draw_of_seed_eq ?_ k
  show goodSeed s = M
  rw [goodSeed, hs]
  rfl

/-- Every number from 1 to `M - 1` is drawn exactly once in `M - 1` calls if and only if the 31 low
bits of the seed are not all set; `GoodSeed` lets that seed pass, and `Next` returns `M` then. -/
theorem draws_cycle_iff (s : UInt32) :
    ((∀ v, 0 < v → v < 2 ^ 31 - 1 → ∃! k, k < 2 ^ 31 - 2 ∧ ((new s).draw k).toNat = v) ↔
      s &&& M ≠ M) ∧ (s &&& M = M → ∀ k, (new s).draw k = M) := by
  refine ⟨⟨fun hall hs => ?_, fun hs v hpos hlt => ?_⟩, draw_of_bad_seed⟩
  · obtain ⟨k, ⟨-, he⟩, -⟩ := hall 1 Nat.one_pos (by norm_num)
    rw [draw_of_bad_seed hs k] at he
    exact absurd he (by decide)
  · exact ((lively_new_iff s).mpr hs).existsUnique_draw hpos hlt

end Random

end PersistTree
