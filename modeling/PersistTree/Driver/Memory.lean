import PersistTree.Driver.Main
import PersistTree.Pmem.Allocated

/-!
# The memory of the driver

The writing thread prints its keys into a buffer of `buf_size` bytes on its stack, and the NVM list
lies in a pool of `NVM_SIZE` bytes. A process that lacks the stack ends with `memset`, and one that
fills the pool up ends with the insertion that passes its end.
-/
namespace PersistTree.Driver

open Library

def nvmSize : ℕ := 50 * 2 ^ 30

def bufSize (o : Options) : UInt64 := 16 + o.valueSize + 1

variable {σ : Type*}

/-- `memset(buf, 0, sizeof(buf))` at the start of the writing thread, for a buffer on a stack with
`stack` bytes left. -/
def onStack (stack : ℕ) (o : Options) (r : Except Fault σ) : Except Fault σ :=
  if (bufSize o).toNat ≤ stack then r else .error .badAccess

/-- The NVM list of a process is inside its pool. -/
def inPool (nvm : σ → PersistentSkipList) : Except Fault σ → Bool
  | .ok s => decide ((nvm s).allocated ≤ nvmSize)
  | .error _ => true

theorem inPool_ok (nvm : σ → PersistentSkipList) {s : σ} (h : (nvm s).allocated ≤ nvmSize) :
    inPool nvm (.ok s) = true := decide_eq_true h

/-- What the NVM list allocates at most for the keys of all iterations. -/
def poolNeed (o : Options) : ℕ :=
  MappedSkipList.initialSize 20 +
    o.opsNum.toNat * (8 + 8 * 20 + (keySize + o.valueSize.toNat))

end PersistTree.Driver
