import Mathlib.Data.List.Basic
import Mathlib.Tactic

/-!
# Decimal conversions of `printf`

The bytes that a conversion such as `%08d` prints for a 32-bit integer: its digits, filled up with
zeros to the field width, behind a minus sign if there is one.
-/
namespace PersistTree.Library

/-- The last `k` decimal digits of `n`, the most significant one first. -/
def lastDigits : ℕ → ℕ → List UInt8
  | 0, _ => []
  | k + 1, n => lastDigits k (n / 10) ++ [UInt8.ofNat (48 + n % 10)]

/-- How many digits `n` has, if it is at most `fuel + 1`. -/
def digitCount : ℕ → ℕ → ℕ
  | 0, _ => 1
  | fuel + 1, n => if n < 10 then 1 else digitCount fuel (n / 10) + 1

/-- `%0{width}d`, for integers of at most ten digits. -/
def zeroPadded (width : ℕ) : ℤ → List UInt8
  | .ofNat n => lastDigits (max width (digitCount 9 n)) n
  | .negSucc n => 45 :: lastDigits (max (width - 1) (digitCount 9 (n + 1))) (n + 1)

def asInt32 (n : ℕ) : ℤ := if n < 2 ^ 31 then n else (n : ℤ) - 2 ^ 32

variable {k m n fuel : ℕ}

@[simp] theorem length_lastDigits (k n : ℕ) : (lastDigits k n).length = k := by
  induction k generalizing n with
  | zero => rfl
  | succ k ih => rw [lastDigits, List.length_append, ih, List.length_singleton]

theorem digit_inj (h : UInt8.ofNat (48 + m % 10) = UInt8.ofNat (48 + n % 10)) :
    m % 10 = n % 10 := by
  have h' := congrArg UInt8.toNat h
  have hm : 48 + m % 10 < 256 := by omega
  have hn : 48 + n % 10 < 256 := by omega
  rw [UInt8.toNat_ofNat_of_lt' hm, UInt8.toNat_ofNat_of_lt' hn] at h'
  omega

/-- Numbers that fit into `k` digits are told apart by them. -/
theorem lastDigits_inj (hm : m < 10 ^ k) (hn : n < 10 ^ k) :
    lastDigits k m = lastDigits k n ↔ m = n := by
  refine ⟨?_, congrArg _⟩
  intro h
  induction k generalizing m n with
  | zero => omega
  | succ k ih =>
    obtain ⟨hinit, hlast⟩ := List.append_inj' h rfl
    have hdiv : m / 10 = n / 10 := ih (by omega) (by omega) hinit
    have hmod : m % 10 = n % 10 := digit_inj (List.singleton_inj.mp hlast)
    omega

def IsDigit (b : UInt8) : Prop := 48 ≤ b.toNat ∧ b.toNat ≤ 57

instance : DecidablePred IsDigit := fun _ => inferInstanceAs (Decidable (_ ∧ _))

theorem isDigit_of_mem_lastDigits {b : UInt8} (h : b ∈ lastDigits k n) : IsDigit b := by
  induction k generalizing n with
  | zero => exact absurd h List.not_mem_nil
  | succ k ih =>
    rw [lastDigits, List.mem_append, List.mem_singleton] at h
    rcases h with h | rfl
    · exact ih h
    · have hlt : 48 + n % 10 < 256 := by omega
      rw [IsDigit, UInt8.toNat_ofNat_of_lt' hlt]
      omega

theorem zero_not_mem_lastDigits (k n : ℕ) : (0 : UInt8) ∉ lastDigits k n :=
  fun h => absurd (isDigit_of_mem_lastDigits h) (by decide)

theorem append_lt_append_iff {a b c d : List ℕ} (h : a.length = b.length) :
    a ++ c < b ++ d ↔ a < b ∨ a = b ∧ c < d := by
  induction a generalizing b with
  | nil =>
    obtain rfl := List.length_eq_zero_iff.mp h.symm
    simp
  | cons x a ih =>
    cases b with
    | nil => cases h
    | cons y b =>
      rw [List.cons_append, List.cons_append, List.cons_lt_cons_iff, List.cons_lt_cons_iff,
        ih (Nat.succ.inj h), List.cons.injEq]
      tauto

/-- Numbers that fit into `k` digits are ordered like them. -/
theorem lastDigits_lt_iff (hm : m < 10 ^ k) (hn : n < 10 ^ k) :
    (lastDigits k m).map UInt8.toNat < (lastDigits k n).map UInt8.toNat ↔ m < n := by
  induction k generalizing m n with
  | zero =>
    have hnot : ¬m < n := by omega
    simp [lastDigits, hnot]
  | succ k ih =>
    have hm10 : 48 + m % 10 < 256 := by omega
    have hn10 : 48 + n % 10 < 256 := by omega
    have hdiv : (lastDigits k (m / 10)).map UInt8.toNat = (lastDigits k (n / 10)).map UInt8.toNat ↔
        m / 10 = n / 10 := by
      rw [List.map_inj_right fun _ _ => UInt8.toNat_inj.mp]
      exact lastDigits_inj (by omega) (by omega)
    have hlast : [48 + m % 10] < [48 + n % 10] ↔ m % 10 < n % 10 := by
      simp [List.cons_lt_cons_iff]
    rw [lastDigits, lastDigits, List.map_append, List.map_append, List.map_singleton,
      List.map_singleton, UInt8.toNat_ofNat_of_lt' hm10, UInt8.toNat_ofNat_of_lt' hn10,
      append_lt_append_iff (by simp), ih (by omega) (by omega), hdiv, hlast]
    omega

/-- The number that the digits of a string continue `n` to. -/
def decimalFrom (n : ℕ) (str : List UInt8) : ℕ := str.foldl (fun n b => 10 * n + (b.toNat - 48)) n

/-- The number that a string of digits spells. -/
def decimalValue (str : List UInt8) : ℕ := decimalFrom 0 str

variable {a b : List UInt8}

theorem decimalValue_concat (a : List UInt8) (x : UInt8) :
    decimalValue (a ++ [x]) = 10 * decimalValue a + (x.toNat - 48) := by
  simp [decimalValue, decimalFrom]

theorem lastDigits_decimalValue (ha : ∀ x ∈ a, IsDigit x) :
    decimalValue a < 10 ^ a.length ∧ lastDigits a.length (decimalValue a) = a := by
  induction a using List.reverseRecOn with
  | nil => exact ⟨Nat.one_pos, rfl⟩
  | append_singleton a x ih =>
    obtain ⟨hlt, hdigits⟩ := ih fun y hy => ha y (List.mem_append_left _ hy)
    have hx : 48 ≤ x.toNat ∧ x.toNat ≤ 57 := ha x (by simp)
    have hdiv : (10 * decimalValue a + (x.toNat - 48)) / 10 = decimalValue a := by omega
    have hmod : 48 + (10 * decimalValue a + (x.toNat - 48)) % 10 = x.toNat := by omega
    rw [decimalValue_concat, List.length_append, List.length_singleton, pow_succ]
    refine ⟨by omega, ?_⟩
    rw [lastDigits, hdiv, hdigits, hmod, UInt8.ofNat_toNat]

theorem decimalValue_lastDigits (hn : n < 10 ^ k) : decimalValue (lastDigits k n) = n := by
  obtain ⟨hlt, hdigits⟩ := lastDigits_decimalValue (a := lastDigits k n) fun _ hx =>
    isDigit_of_mem_lastDigits hx
  rw [length_lastDigits] at hlt hdigits
  exact (lastDigits_inj hlt hn).mp hdigits

theorem decimalValue_lt_iff (ha : ∀ x ∈ a, IsDigit x) (hb : ∀ x ∈ b, IsDigit x)
    (hlen : a.length = b.length) :
    decimalValue a < decimalValue b ↔ a.map UInt8.toNat < b.map UInt8.toNat := by
  obtain ⟨hlta, hdigitsa⟩ := lastDigits_decimalValue ha
  obtain ⟨hltb, hdigitsb⟩ := lastDigits_decimalValue hb
  rw [← hlen] at hltb hdigitsb
  rw [← lastDigits_lt_iff hlta hltb, hdigitsa, hdigitsb]

theorem decimalValue_inj (ha : ∀ x ∈ a, IsDigit x) (hb : ∀ x ∈ b, IsDigit x)
    (hlen : a.length = b.length) : decimalValue a = decimalValue b ↔ a = b := by
  obtain ⟨hlta, hdigitsa⟩ := lastDigits_decimalValue ha
  obtain ⟨hltb, hdigitsb⟩ := lastDigits_decimalValue hb
  rw [← hlen] at hltb hdigitsb
  rw [← lastDigits_inj hlta hltb, hdigitsa, hdigitsb]

theorem digitCount_le (h : n < 10 ^ (k + 1)) : digitCount fuel n ≤ k + 1 := by
  induction fuel generalizing k n with
  | zero => exact Nat.le_add_left 1 k
  | succ fuel ih =>
    rw [digitCount]
    split_ifs with hn
    · omega
    · obtain ⟨k, rfl⟩ : ∃ j, k = j + 1 := Nat.exists_eq_succ_of_ne_zero (by rintro rfl; omega)
      have := ih (k := k) (n := n / 10) (by omega)
      omega

theorem zeroPadded_eq {width : ℕ} (hw : 0 < width) (hn : n < 10 ^ width) :
    zeroPadded width n = lastDigits width n := by
  obtain ⟨w, rfl⟩ : ∃ w, width = w + 1 := Nat.exists_eq_succ_of_ne_zero hw.ne'
  exact congrArg (lastDigits · n) (max_eq_left (digitCount_le hn))

end PersistTree.Library
