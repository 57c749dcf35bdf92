import Mathlib.Data.Nat.Digits.Defs
import Mathlib.Tactic

/-!
# Byte memories

A memory assigns a byte to every address. Strings are written and read byte by byte, and a
64-bit word is eight bytes, the least significant one first. A write is seen by a read of the
same range and not by a read of a range apart from it.
-/
namespace PersistTree.Library

abbrev ByteMemory := ℕ → UInt8

/-- The `n` low bytes of a number, the least significant one first. -/
def littleEndian : ℕ → ℕ → List UInt8
  | 0, _ => []
  | n + 1, w => UInt8.ofNat w :: littleEndian n (w / 256)

@[simp] theorem littleEndian_length (n w : ℕ) : (littleEndian n w).length = n := by
  induction n generalizing w with
  | zero => rfl
  | succ n ih => rw [littleEndian, List.length_cons, ih]

theorem ofDigits_littleEndian (n w : ℕ) :
    Nat.ofDigits 256 ((littleEndian n w).map UInt8.toNat) = w % 256 ^ n := by
  induction n generalizing w with
  | zero => simp [littleEndian, Nat.mod_one]
  | succ n ih =>
    have hlow : (UInt8.ofNat w).toNat = w % 256 := by simp
    rw [littleEndian, List.map_cons, Nat.ofDigits_cons, ih, hlow, pow_succ', Nat.mod_mul]

namespace ByteMemory

def read (m : ByteMemory) (a n : ℕ) : List UInt8 := (List.range n).map fun j => m (a + j)

def write (m : ByteMemory) (a : ℕ) (bytes : List UInt8) : ByteMemory :=
  fun x => if a ≤ x then bytes[x - a]?.getD (m x) else m x

def load (m : ByteMemory) (a : ℕ) : ℕ := Nat.ofDigits 256 ((m.read a 8).map UInt8.toNat)

def store (m : ByteMemory) (a w : ℕ) : ByteMemory := m.write a (littleEndian 8 w)

/-- The ranges of `n` bytes from `a` and of `k` bytes from `b` have no address in common. -/
abbrev Apart (a n b k : ℕ) : Prop := a + n ≤ b ∨ b + k ≤ a

variable {m : ByteMemory} {a b n k w : ℕ} {bytes : List UInt8}

@[simp] theorem read_length (m : ByteMemory) (a n : ℕ) : (m.read a n).length = n := by simp [read]

theorem read_getElem? (m : ByteMemory) (a n j : ℕ) :
    (m.read a n)[j]? = if j < n then some (m (a + j)) else none := by
  by_cases hj : j < n <;> simp [read, hj]

theorem read_append (m : ByteMemory) (a n k : ℕ) :
    m.read a n ++ m.read (a + n) k = m.read a (n + k) := by
  apply List.ext_getElem?
  intro j
  rw [List.getElem?_append, read_length, read_getElem?, read_getElem?, read_getElem?]
  by_cases hj : j < n
  · rw [if_pos hj, if_pos hj, if_pos (by omega)]
  · rw [if_neg hj, show a + n + (j - n) = a + j by omega]
    exact if_congr (by omega) rfl rfl

theorem take_read (m : ByteMemory) (a : ℕ) (h : n ≤ k) : (m.read a k).take n = m.read a n := by
  rw [read, ← List.map_take, List.take_range, Nat.min_eq_left h, read]

theorem load_of_read (h : m.read a 8 = littleEndian 8 w) (hw : w < 2 ^ 64) : m.load a = w := by
  rw [load, h, ofDigits_littleEndian]
  exact Nat.mod_eq_of_lt hw

theorem write_of_lt (hb : b < a) : m.write a bytes b = m b := by
  rw [write, if_neg (by omega)]

theorem write_of_ge (hb : a + bytes.length ≤ b) : m.write a bytes b = m b := by
  rw [write, if_pos (by omega), List.getElem?_eq_none (by omega), Option.getD_none]

theorem read_write_self (m : ByteMemory) (a : ℕ) (bytes : List UInt8) :
    (m.write a bytes).read a bytes.length = bytes := by
  apply List.ext_getElem?
  intro j
  rw [read_getElem?]
  by_cases hj : j < bytes.length
  · rw [if_pos hj, write, if_pos (by omega), Nat.add_sub_cancel_left,
      List.getElem?_eq_getElem hj, Option.getD_some]
  · rw [if_neg hj, List.getElem?_eq_none (by omega)]

theorem read_write_of_apart (h : Apart a bytes.length b n) :
    (m.write a bytes).read b n = m.read b n := by
  apply List.map_congr_left
  intro j hj
  have hj' := List.mem_range.mp hj
  rcases h with h | h
  · exact write_of_ge (by omega)
  · exact write_of_lt (by omega)

theorem read_store_self (m : ByteMemory) (a w : ℕ) : (m.store a w).read a 8 = littleEndian 8 w :=
  read_write_self m a (littleEndian 8 w)

theorem read_store_of_apart (h : Apart a 8 b n) : (m.store a w).read b n = m.read b n :=
  read_write_of_apart (by rwa [littleEndian_length])

end ByteMemory

end PersistTree.Library
