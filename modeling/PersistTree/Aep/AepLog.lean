import PersistTree.Library.Heap
import PersistTree.SkipLists.Common

/-!
# The log in persistent memory

`AEP_LOG` of `log_batch.h` and `.cc`: a chain of entries with a data array of `entry_size_` bytes
each. `Put` works on the entry at `tail` and appends a new one when the payload does not fit, and
`Delete` frees the chain from `head` on. Each transaction runs its body once and commits. An entry
and its data array are made and freed together and are one cell here.
-/
namespace PersistTree.Aep

open Library

structure LogEntry where
  data : List UInt8
  wOft : UInt64
  size : UInt64
  next : Option ℕ
  deriving DecidableEq, Repr

/-- `AEP_LOG`, with the heap its entries are in. -/
structure AepLog where
  entries : Heap LogEntry
  head : Option ℕ
  tail : Option ℕ
  entrySize : UInt64
  deriving DecidableEq, Repr

/-- `memcpy(&data[oft], key, size)`. What goes past the end of the array is not followed. -/
def overwrite (data : List UInt8) (oft : ℕ) (key : Key) : List UInt8 :=
  (data.take oft ++ key ++ data.drop (oft + key.length)).take data.length

/-- The entry after the copy at the end of both branches of `Put`, which tests nothing. -/
def LogEntry.append (e : LogEntry) (key : Key) : LogEntry :=
  { e with
    data := overwrite e.data e.wOft.toNat key
    wOft := e.wOft + UInt64.ofNat key.length }

namespace AepLog

/-- What `make_persistent` makes in `NewEntry`. -/
def freshEntry (entrySize : UInt64) : LogEntry :=
  ⟨List.replicate entrySize.toNat 0, 0, entrySize, none⟩

/-- The address of an entry that may be accessed, and the entry. -/
def entry (log : AepLog) (p : Option ℕ) : Except Fault (ℕ × LogEntry) :=
  match p with
  | none => .error .badAccess
  | some x =>
    match log.entries.load x with
    | some e => .ok (x, e)
    | none => .error (if log.entries.Freed x then .useAfterFree else .badAccess)

/-- The address of the next entry to be made, and the log after `NewEntry`. -/
def newEntry (log : AepLog) : ℕ × AepLog :=
  (log.entries.fresh, { log with entries := log.entries.alloc (freshEntry log.entrySize) })

def new (entrySize : UInt64) : AepLog :=
  let (tmp, log) := newEntry ⟨Heap.empty, none, none, entrySize⟩
  { log with head := some tmp, tail := some tmp }

def append (log : AepLog) (key : Key) : Except Fault AepLog := do
  let (x, e) ← log.entry log.tail
  return { log with entries := log.entries.store x (e.append key) }

def put (log : AepLog) (key : Key) : Except Fault AepLog := do
  let (x, e) ← log.entry log.tail
  if key.length < (e.size - e.wOft).toNat then
    log.append key
  else
    let (tmp, log) := log.newEntry
    let entries := log.entries.store x { e with next := some tmp }
    append { log with entries := entries, tail := some tmp } key

/-- The loop of `Delete`, with `tmp` as it is tested. -/
def deleteFrom : ℕ → Option ℕ → AepLog → Except Fault AepLog
  | 0, _, _ => .error .badAccess
  | _ + 1, none, log => .ok log
  | fuel + 1, some _, log => do
    let (x, e) ← log.entry log.head
    deleteFrom fuel e.next { log with entries := log.entries.free x, head := e.next }

def delete (log : AepLog) : Except Fault AepLog :=
  deleteFrom (log.entries.fresh + 1) log.head log

def putAll (log : AepLog) (keys : List Key) : Except Fault AepLog := keys.foldlM put log

theorem putAll_concat (log : AepLog) (keys : List Key) (key : Key) :
    log.putAll (keys ++ [key]) = log.putAll keys >>= fun t => t.put key := by
  simp only [putAll, List.foldlM_append, List.foldlM_cons, List.foldlM_nil, bind_pure]

/-- `data[0..w_oft)` of an entry. -/
def written (log : AepLog) (x : ℕ) : List UInt8 :=
  ((log.entries.load x).map fun e => e.data.take e.wOft.toNat).getD []

variable {log t : AepLog} {x z : ℕ} {e : LogEntry} {key : Key} {l : List ℕ} {fuel : ℕ}

theorem entry_eq (h : log.entries.load x = some e) : log.entry (some x) = .ok (x, e) := by
  unfold entry
  simp only [h]

theorem entry_ok {p : Option ℕ} (h : log.entry p = .ok (x, e)) :
    p = some x ∧ log.entries.load x = some e := by
  unfold entry at h
  cases p with
  | none => cases h
  | some y =>
    cases hy : log.entries.load y with
    | none =>
      simp only [hy] at h
      cases h
    | some f =>
      simp only [hy] at h
      cases h
      exact ⟨rfl, hy⟩

/-- An entry as `NewEntry` makes it and `Put` leaves it. -/
structure Sized (entrySize : UInt64) (e : LogEntry) : Prop where
  size : e.size = entrySize
  data : e.data.length = entrySize.toNat
  wOft : e.wOft ≤ e.size

theorem freshEntry_sized (entrySize : UInt64) : Sized entrySize (freshEntry entrySize) := by
  constructor
  · rfl
  · exact List.length_replicate
  · exact UInt64.zero_le

theorem length_overwrite (data : List UInt8) (oft : ℕ) (key : Key) :
    (overwrite data oft key).length = data.length := by
  simp only [overwrite, List.length_append, List.length_take, List.length_drop]
  omega

theorem take_overwrite {data : List UInt8} {oft : ℕ} (h : oft + key.length ≤ data.length) :
    (overwrite data oft key).take (oft + key.length) = data.take oft ++ key := by
  have hoft : (data.take oft).length = oft := by
    rw [List.length_take]
    omega
  unfold overwrite
  rw [List.take_take, min_eq_left h]
  apply List.take_left'
  rw [List.length_append, hoft]

end AepLog

end PersistTree.Aep
