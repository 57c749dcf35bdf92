import PersistTree.Library.ByteMemory
import PersistTree.SkipLists.Common

/-!
# The allocator of the mapped pool

`PersistentAllocator` of `persistent_skiplist_no_transaction.h` and `.cc`, together with the bytes
of the file it has mapped, and `Node` of `nvm_node.h`, whose `key_` is the word at the node's
address and whose link slots are the words behind it. `Allocate` hands out the bytes at
`cur_index_` without looking at the length of the mapping. A file is mapped in whole pages, and an
access outside them is a fault. A pointer is its address, and the null pointer is 0.
-/
namespace PersistTree

open Library

/-- The length of the pages that hold `size` bytes. -/
def wholePages (size : ℕ) : ℕ := (size + 4095) / 4096 * 4096

structure PersistentAllocator where
  pmemaddr : ℕ
  extent : ℕ
  curIndex : ℕ
  memory : ByteMemory

namespace PersistentAllocator

/-- The `n` bytes from `p` on lie inside the mapping. -/
def Mapped (a : PersistentAllocator) (p n : ℕ) : Prop :=
  a.pmemaddr ≤ p ∧ p + n ≤ a.pmemaddr + a.extent

instance (a : PersistentAllocator) (p n : ℕ) : Decidable (a.Mapped p n) :=
  inferInstanceAs (Decidable (_ ∧ _))

/-- The constructor, for a file of `size` bytes that holds `memory` and was mapped at `pmemaddr`. -/
def new (pmemaddr size : ℕ) (memory : ByteMemory) : PersistentAllocator :=
  { pmemaddr := pmemaddr, extent := wholePages size, curIndex := pmemaddr, memory := memory }

def allocate (a : PersistentAllocator) (bytes : ℕ) : ℕ × PersistentAllocator :=
  (a.curIndex, { a with curIndex := a.curIndex + bytes })

def loadByte (a : PersistentAllocator) (p : ℕ) : Except Fault UInt8 :=
  if a.Mapped p 1 then .ok (a.memory p) else .error .badAccess

def load (a : PersistentAllocator) (p : ℕ) : Except Fault ℕ :=
  if a.Mapped p 8 then .ok (a.memory.load p) else .error .badAccess

def store (a : PersistentAllocator) (p w : ℕ) : Except Fault PersistentAllocator :=
  if a.Mapped p 8 then .ok { a with memory := a.memory.store p w } else .error .badAccess

/-- `pmem_memcpy_persist(p, bytes.c_str(), bytes.size())`. -/
def memcpy (a : PersistentAllocator) (p : ℕ) (bytes : List UInt8) :
    Except Fault PersistentAllocator :=
  if bytes = [] ∨ a.Mapped p bytes.length then
    .ok { a with memory := a.memory.write p bytes }
  else .error .badAccess

theorem load_eq {a : PersistentAllocator} {p : ℕ} (h : a.Mapped p 8) :
    a.load p = .ok (a.memory.load p) := if_pos h

theorem store_eq {a : PersistentAllocator} {p : ℕ} (h : a.Mapped p 8) (w : ℕ) :
    a.store p w = .ok { a with memory := a.memory.store p w } := if_pos h

theorem memcpy_eq {a : PersistentAllocator} {p : ℕ} {bytes : List UInt8}
    (h : a.Mapped p bytes.length) :
    a.memcpy p bytes = .ok { a with memory := a.memory.write p bytes } := if_pos (Or.inr h)

/-- The address of slot `i` of the node at `x`. -/
def slot (x i : ℕ) : ℕ := x + 8 + 8 * i

def next (a : PersistentAllocator) (x i : ℕ) : Except Fault ℕ := a.load (slot x i)

def setNext (a : PersistentAllocator) (x i p : ℕ) : Except Fault PersistentAllocator :=
  a.store (slot x i) p

/-- The links as a search sees them: it only tells the null pointer from the others. -/
def links (a : PersistentAllocator) (i x : ℕ) : Option Ptr :=
  (a.next x i).toOption.map fun p => if p = 0 then none else some p

/-- `NewNode(key, height)`: `sizeof(Node) + sizeof(Node*) * (height - 1)` bytes for the node and
`key.size()` bytes for the key. -/
def newNode (a : PersistentAllocator) (key : Key) (height : ℕ) :
    Except Fault (ℕ × PersistentAllocator) := do
  let (mem, a) := a.allocate (8 + 8 * height)
  let (pkey, a) := a.allocate key.length
  let a ← a.memcpy pkey key
  let a ← a.store mem pkey
  return (mem, a)

def cStr (key : Key) (j : ℕ) : Except Fault UInt8 := .ok (key.getD j 0)

def compareKeyAndNode (a : PersistentAllocator) (keySize : ℕ) (key : Key) (n : ℕ) :
    Except Fault ℤ := do
  let p ← a.load n
  strncmpFrom (cStr key) (fun j => a.loadByte (p + j)) 0 keySize

def keyIsAfterNode (a : PersistentAllocator) (keySize : ℕ) (key : Key) (n : ℕ) :
    Except Fault Bool := do
  let p ← a.load n
  let res ← strncmpFrom (fun j => a.loadByte (p + j)) (cStr key) 0 keySize
  return decide (res < 0)

end PersistentAllocator

end PersistTree
