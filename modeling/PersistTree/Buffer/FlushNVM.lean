import PersistTree.SkipLists.MemorySkipList
import PersistTree.SkipLists.PersistentSkipList

/-!
# Flushing a DRAM list

`FlushNVM` of `flush_nvm.h` and `.cc`: a queued DRAM list, and `Run`, which walks its level-0 chain,
copies every key out of its buffer with `std::string key = start->key_`, checks the order of the
digits, and inserts the key into the NVM list. The copy stops at the first zero byte, which need not
lie inside the buffer.
-/
namespace PersistTree

open Library

/-- A byte of a key as the plain `char` it is read as. -/
def signedChar (b : UInt8) : ℤ := if b.toNat < 128 then b.toNat else (b.toNat : ℤ) - 256

/-- `num = (str[i] - '0') + 10 * num` over the characters of a string, in 64-bit arithmetic. -/
def digits : List UInt8 → ℕ → ℕ
  | [], num => num
  | b :: str, num => digits str (((signedChar b - 48 + 10 * num) % 2 ^ 64).toNat)

/-- The characters `lo, …, lo + 7` of a string; past its end there are zeros. -/
def eightChars (str : List UInt8) (lo : ℕ) : List UInt8 :=
  (List.range 8).map fun i => (str[lo + i]?).getD 0

/-- `PrintKey`: the two numbers in the first 16 characters, and whether the order error is printed
for them after `last_num` and `last_seq_num`. -/
def printKey (str : List UInt8) (last : ℕ × ℕ) : (ℕ × ℕ) × Bool :=
  let num := digits (eightChars str 0) 0
  let seqNum := digits (eightChars str 8) 0
  ((num, seqNum), !decide (last.1 < num ∨ last.1 = num ∧ last.2 < seqNum))

/-- A queued list; `none` is the null `skiplist_` of a default-constructed object. -/
structure FlushNVM where
  skiplist : Option MemorySkipList

/-- The state of the loop in `Run`: the NVM list, the numbers of the last key, and for which of the
keys the order error was printed. -/
structure FlushState where
  nvm : PersistentSkipList
  last : ℕ × ℕ
  reports : List Bool

namespace FlushNVM

/-- The loop of `Run` from node `start` on. `junk` are the bytes behind the key buffers of the DRAM
list, and `env` is what the insertion that makes NVM node `n` meets. -/
def runFrom (list : MemorySkipList) (junk : ℕ → List UInt8) (env : ℕ → Env) :
    ℕ → Ptr → FlushState → Except Fault FlushState
  | 0, _, _ => .error .badAccess
  | _ + 1, none, st => .ok st
  | fuel + 1, some start, st => do
    let buffer ← deref (list.keyAt start)
    let key := cString (buffer ++ junk start)
    let printed := printKey key st.last
    let nvm ← st.nvm.insert ⟨env st.nvm.nodes.length, key⟩
    let next ← deref (list.nodes.next 0 start)
    runFrom list junk env fuel next
      { nvm := nvm, last := printed.1, reports := st.reports ++ [printed.2] }

def run (f : FlushNVM) (junk : ℕ → List UInt8) (env : ℕ → Env) (nvm : PersistentSkipList) :
    Except Fault PersistentSkipList :=
  match f.skiplist with
  | none => .error .assertion
  | some list => do
    match ← deref (list.nodes.next 0 list.head) with
    | none => .error .assertion
    | some start =>
      let st ← runFrom list junk env (list.nodes.length + 1) (some start) ⟨nvm, (0, 0), []⟩
      return st.nvm

/-- The queued objects one after the other, in the order of the queue. Run number `k` finds the
bytes `junk k` behind the key buffers. -/
def runAll (junk : ℕ → ℕ → List UInt8) (env : ℕ → Env) :
    ℕ → List FlushNVM → PersistentSkipList → Except Fault PersistentSkipList
  | _, [], nvm => .ok nvm
  | k, f :: queue, nvm => do
    let nvm ← f.run (junk k) env nvm
    runAll junk env (k + 1) queue nvm

end FlushNVM

end PersistTree
