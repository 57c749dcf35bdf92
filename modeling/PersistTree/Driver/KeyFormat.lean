import PersistTree.Library.Decimal
import PersistTree.SkipLists.Common

/-!
# The keys of the driver

`write_to_dram` and `write_to_nvm` of `motivation1_main.cc` print a random number and the number of
the iteration, eight digits each, and the value behind them. A width is only a minimum: from `10 ^
8` operations on a number can have nine digits, and the lists only look at the first 16 bytes.
-/
namespace PersistTree.Driver

open Library

def keySize : ℕ := 16

/-- The string that `snprintf` leaves in `buf` for `"%08d%08d%s"`: `insert_data` of `write_to_dram`
and `data` of `write_to_nvm`. A conversion `%08d` takes the low 32 bits of its argument. -/
def insertData (valueSize number i : ℕ) : Key :=
  (zeroPadded 8 (asInt32 (number % 2 ^ 32)) ++ zeroPadded 8 (asInt32 (i % 2 ^ 32)) ++
    List.replicate valueSize 118).take (keySize + valueSize)

/-- The keys of any two iterations differ in their first 16 bytes, and `strncmp` orders them like
the random number and the iteration. -/
def OrderPreserving (valueSize opsNum : ℕ) : Prop :=
  ∀ i j n m, 1 ≤ i → i ≤ opsNum → 1 ≤ j → j ≤ opsNum → i ≠ j → n < opsNum → m < opsNum →
    (insertData valueSize n i).take keySize ≠ (insertData valueSize m j).take keySize ∧
    (strncmp (insertData valueSize n i) (insertData valueSize m j) keySize < 0 ↔
      n < m ∨ n = m ∧ i < j) ∧
    (0 < strncmp (insertData valueSize n i) (insertData valueSize m j) keySize ↔
      m < n ∨ m = n ∧ j < i)

variable {valueSize n i m j : ℕ}

theorem zeroPadded_asInt32 (hn : n < 10 ^ 8) :
    zeroPadded 8 (asInt32 (n % 2 ^ 32)) = lastDigits 8 n := by
  have hmod : n % 2 ^ 32 = n := Nat.mod_eq_of_lt (by omega)
  have hint : asInt32 n = n := if_pos (by omega)
  rw [hmod, hint, zeroPadded_eq (by decide) hn]

theorem take_insertData (hn : n < 10 ^ 8) (hi : i < 10 ^ 8) :
    (insertData valueSize n i).take keySize = lastDigits 8 n ++ lastDigits 8 i := by
  have hlen : (lastDigits 8 n ++ lastDigits 8 i).length = keySize := by
    rw [List.length_append, length_lastDigits, length_lastDigits]
    rfl
  rw [insertData, zeroPadded_asInt32 hn, zeroPadded_asInt32 hi, List.take_take,
    min_eq_left (Nat.le_add_right keySize valueSize)]
  exact List.take_left' hlen

theorem keySize_le_length_insertData (valueSize : ℕ) (hn : n < 10 ^ 8) (hi : i < 10 ^ 8) :
    keySize ≤ (insertData valueSize n i).length := by
  have h : ((insertData valueSize n i).take keySize).length = _ :=
    congrArg List.length (take_insertData hn hi)
  rw [List.length_take, List.length_append, length_lastDigits, length_lastDigits] at h
  exact min_eq_left_iff.mp h

theorem strnview_insertData (hn : n < 10 ^ 8) (hi : i < 10 ^ 8) :
    strnview keySize (insertData valueSize n i) =
      (lastDigits 8 n).map UInt8.toNat ++ (lastDigits 8 i).map UInt8.toNat := by
  have htake : (insertData valueSize n i).take keySize = lastDigits 8 n ++ lastDigits 8 i :=
    take_insertData hn hi
  rw [strnview_of_nul_free (keySize_le_length_insertData valueSize hn hi), htake, List.map_append]
  rw [htake, List.mem_append, not_or]
  exact ⟨zero_not_mem_lastDigits 8 n, zero_not_mem_lastDigits 8 i⟩

theorem strnview_insertData_lt (hn : n < 10 ^ 8) (hi : i < 10 ^ 8) (hm : m < 10 ^ 8)
    (hj : j < 10 ^ 8) : strnview keySize (insertData valueSize n i) <
      strnview keySize (insertData valueSize m j) ↔ n < m ∨ n = m ∧ i < j := by
  rw [strnview_insertData hn hi, strnview_insertData hm hj, append_lt_append_iff (by simp),
    lastDigits_lt_iff hn hm, lastDigits_lt_iff hi hj,
    List.map_inj_right fun _ _ => UInt8.toNat_inj.mp, lastDigits_inj hn hm]

theorem orderPreserving_of_lt {opsNum : ℕ} (h : opsNum < 10 ^ 8) :
    OrderPreserving valueSize opsNum := by
  intro i j n m _ hi _ hj hij hn hm
  have hi' := lt_of_le_of_lt hi h
  have hj' := lt_of_le_of_lt hj h
  have hn' := hn.trans h
  have hm' := hm.trans h
  refine ⟨?_, ?_, ?_⟩
  · rw [take_insertData hn' hi', take_insertData hm' hj']
    intro he
    have htail := (List.append_inj he (by simp)).2
    exact hij ((lastDigits_inj hi' hj').mp htail)
  · rw [strncmp_neg_iff]
    exact strnview_insertData_lt hn' hi' hm' hj'
  · rw [strncmp_pos_iff]
    exact strnview_insertData_lt hm' hj' hn' hi'

/-- The last of the nine digits of `10 ^ 8` is outside the window. -/
theorem take_insertData_nine (valueSize : ℕ) :
    (insertData valueSize 0 100000000).take keySize =
      (insertData valueSize 0 10000000).take keySize := by
  have h9 : zeroPadded 8 (asInt32 (100000000 % 2 ^ 32)) = lastDigits 8 10000000 ++ [48] := by decide
  have h8 : zeroPadded 8 (asInt32 (10000000 % 2 ^ 32)) = lastDigits 8 10000000 := by decide
  have hlen : (zeroPadded 8 (asInt32 (0 % 2 ^ 32)) ++ lastDigits 8 10000000).length = keySize := by
    decide
  rw [insertData, insertData, h9, h8, List.take_take, List.take_take,
    min_eq_left (Nat.le_add_right keySize valueSize), List.take_left' hlen, ← List.append_assoc,
    List.append_assoc, List.take_left' hlen]

/-- The keys are told apart and ordered like the numbers exactly below `10 ^ 8` operations. -/
theorem orderPreserving_iff (valueSize opsNum : ℕ) :
    OrderPreserving valueSize opsNum ↔ opsNum < 10 ^ 8 := by
  constructor
  · intro h
    by_contra hlarge
    have hdiff := h 100000000 10000000 0 0 (by omega) (by omega) (by omega) (by omega) (by omega)
      (by omega) (by omega)
    exact hdiff.1 (take_insertData_nine valueSize)
  · exact orderPreserving_of_lt

theorem orderPreserving_fails : ¬OrderPreserving 4096 100000000 := by
  intro h
  have hdiff := h 100000000 10000000 0 0 (by decide) (by decide) (by decide) (by decide) (by decide)
    (by decide) (by decide)
  exact hdiff.1 (take_insertData_nine 4096)

end PersistTree.Driver
