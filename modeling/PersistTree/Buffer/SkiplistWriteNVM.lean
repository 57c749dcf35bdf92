import PersistTree.Buffer.FlushNVM

/-!
# Buffering inserts in DRAM

The data that `SkiplistWriteNVM` of `log_batch_wrapper.h` and `.cc` moves: inserts go to the active
DRAM list, a list whose keys have reached `max_mem_skiplist_size_` bytes is queued and replaced by a
new one. When the background threads pop the queue, and how `Flush` waits for them, is the subject
of the hand-off model; here the queue only grows.
-/
namespace PersistTree

open Library

structure SkiplistWriteNVM where
  /-- `skiplist_`, null between the push of `Flush` and `Realloc`. -/
  skiplist : Option MemorySkipList
  maxHeight : ℕ
  maxMemSkiplistSize : ℕ
  curMemSkiplistSize : ℕ
  keySize : ℕ
  queue : List FlushNVM

namespace SkiplistWriteNVM

/-- The constructor followed by `Init`. -/
def init (maxHeight oneLogSize keySize : ℕ) : SkiplistWriteNVM :=
  { skiplist := some (MemorySkipList.new maxHeight keySize)
    maxHeight := maxHeight
    maxMemSkiplistSize := oneLogSize
    curMemSkiplistSize := 0
    keySize := keySize
    queue := [] }

def realloc (w : SkiplistWriteNVM) : Except Fault SkiplistWriteNVM :=
  match w.skiplist with
  | some _ => .error .assertion
  | none => .ok { w with
      curMemSkiplistSize := 0
      skiplist := some (MemorySkipList.new w.maxHeight w.keySize) }

def flush (w : SkiplistWriteNVM) : Except Fault SkiplistWriteNVM :=
  realloc { w with queue := w.queue ++ [⟨w.skiplist⟩], skiplist := none }

def insert (w : SkiplistWriteNVM) (c : Call) : Except Fault SkiplistWriteNVM := do
  let list ← deref w.skiplist
  let list ← list.insert c
  let w := { w with
    skiplist := some list
    curMemSkiplistSize := (w.curMemSkiplistSize + c.key.length) % 2 ^ 64 }
  if w.maxMemSkiplistSize ≤ w.curMemSkiplistSize then w.flush else return w

def insertAll (w : SkiplistWriteNVM) (calls : List Call) : Except Fault SkiplistWriteNVM :=
  calls.foldlM insert w

/-- A final `Flush`, if the active list holds a node. -/
def flushNonEmpty (w : SkiplistWriteNVM) : Except Fault SkiplistWriteNVM := do
  let list ← deref w.skiplist
  match ← deref (list.nodes.next 0 list.head) with
  | none => return w
  | some _ => w.flush

/-- The buffered path: all keys through `SkiplistWriteNVM::Insert`, the final `Flush`, and then the
queued flushes. -/
def buffered (w : SkiplistWriteNVM) (calls : List Call) (junk : ℕ → ℕ → List UInt8)
    (env : ℕ → Env) (nvm : PersistentSkipList) : Except Fault PersistentSkipList := do
  let w ← w.insertAll calls
  let w ← w.flushNonEmpty
  FlushNVM.runAll junk env 0 w.queue nvm

end SkiplistWriteNVM

end PersistTree
