import PersistTree.Handoff.Model
import PersistTree.Library.CString
import PersistTree.Library.Decimal

/-!
# The logs of the DRAM lists

Without `DRAM_CANCEL_LOG` every DRAM list has a log: a file that `AllocateFile` names after a
running number and maps from its start, and into which `Insert` copies each key before it goes to
the list. The log travels with its list through the hand-off and is unmapped at the end of `Run`.
Every step here is a step of the hand-off together with what it does to the logs.
-/
namespace PersistTree.Log

open Library Handoff

/-- The bytes of a file; an absent file has none. -/
structure LogFile where
  length : ℕ
  byte : ℕ → UInt8

namespace LogFile

def get? (f : LogFile) (i : ℕ) : Option UInt8 := if i < f.length then some (f.byte i) else none

/-- What `pmem_map_file` with `PMEM_FILE_CREATE` does to a file: it is cut or filled up with zeros
to the given length. -/
def resize (f : LogFile) (len : ℕ) : LogFile :=
  ⟨len, fun i => if i < f.length then f.byte i else 0⟩

/-- `pmem_memcpy_persist` to an offset of the mapped file. -/
def write (f : LogFile) (offset : ℕ) (bytes : List UInt8) : LogFile :=
  { f with byte := fun i => if offset ≤ i then (bytes[i - offset]?).getD (f.byte i) else f.byte i }

end LogFile

/-- `PersistentAllocator`, with the file it maps. -/
structure PersistentAllocator where
  file : List UInt8
  capacity : ℕ
  curIndex : ℕ
  deriving DecidableEq, Repr

structure Params extends Handoff.Params where
  path : List UInt8

/-- One key as `Insert` has logged it. -/
structure LogRecord where
  list : ℕ
  file : List UInt8
  offset : ℕ
  bytes : Key
  deriving DecidableEq, Repr

structure State where
  core : Handoff.State
  skiplistSeqNumber : ℕ
  files : List UInt8 → LogFile
  /-- `allocator_`, null between the push of `Flush` and `Realloc`. -/
  allocator : Option PersistentAllocator
  /-- The `allocator_` of the `FlushNVM` object that was made for a list. -/
  queued : ℕ → Option PersistentAllocator
  /-- What has been logged so far. -/
  records : List LogRecord

/-- The file name that `AllocateFile` prints for number `seq`: `snprintf` with the bound
`path_.size() + 8` leaves room for `path_.size() + 7` characters. -/
def logName (path : List UInt8) (seq : ℕ) : List UInt8 :=
  (cString path ++ zeroPadded 8 (asInt32 seq)).take (path.length + 7)

/-- The default of `max_mem_skiplist_size_`, in force until `Init` sets it. -/
def k64MB : ℕ := 67108864

def allocateFile (p : Params) (maxMemSkiplistSize : ℕ) (s : State) : State :=
  let seq := (s.skiplistSeqNumber + 1) % 2 ^ 32
  let name := logName p.path seq
  let size := (maxMemSkiplistSize + 1048576) % 2 ^ 64
  { s with
    skiplistSeqNumber := seq
    files := Function.update s.files name ((s.files name).resize size)
    allocator := some ⟨name, size, 0⟩ }

/-- The state after `Init`, over the files there are and the number found in the object. -/
def init (p : Params) (seq : ℕ) (files : List UInt8 → LogFile) : State :=
  allocateFile p k64MB
    { core := Handoff.init
      skiplistSeqNumber := seq
      files := files
      allocator := none
      queued := fun _ => none
      records := [] }

/-- The log part of `Insert`: `Allocate` and the copy, which must stay inside the mapping. -/
def appendLog (s : State) (key : Key) : Except Fault State :=
  match s.core.skiplist, s.allocator with
  | some n, some al =>
    if al.curIndex + key.length ≤ min al.capacity (s.files al.file).length then
      .ok { s with
        files := Function.update s.files al.file ((s.files al.file).write al.curIndex key)
        allocator := some { al with curIndex := al.curIndex + key.length }
        records := s.records ++ [⟨n, al.file, al.curIndex, key⟩] }
    else .error .badAccess
  | _, _ => .error .badAccess

theorem appendLog_cases (s : State) (key : Key) :
    appendLog s key = .error .badAccess ∨ ∃ n al, s.core.skiplist = some n ∧
      s.allocator = some al ∧ al.curIndex + key.length ≤ (s.files al.file).length ∧
      appendLog s key = .ok { s with
        files := Function.update s.files al.file ((s.files al.file).write al.curIndex key)
        allocator := some { al with curIndex := al.curIndex + key.length }
        records := s.records ++ [⟨n, al.file, al.curIndex, key⟩] } := by
  unfold appendLog
  split
  next n al hn hal =>
    split_ifs with hfits
    · exact Or.inr ⟨n, al, hn, hal, hfits.trans (min_le_right _ _), rfl⟩
    · exact Or.inl rfl
  next => exact Or.inl rfl

/-- `Realloc` has replaced the list, if it did not fail, and now opens the log for it. -/
def reallocLog (p : Params) (s : State) : State :=
  if s.core.fault.isSome then s else allocateFile p p.maxMemSkiplistSize s

/-- The push of `Flush` has moved list `n` into a `FlushNVM` object, and its log with it. -/
def handOver (s : State) (n : ℕ) : State :=
  if s.core.fault.isSome then s
  else { s with queued := Function.update s.queued n s.allocator, allocator := none }

/-- `assert(allocator_ != nullptr)` at the start of `Run`. -/
def assertLog (s : State) (f : FlushNVM) : State :=
  if s.core.fault = none ∧ f.skiplist.bind s.queued = none then
    { s with core := s.core.raise .assertion }
  else s

/-- `delete allocator_` at the end of `Run`. -/
def deleteLog (s : State) (f : FlushNVM) : State :=
  match f.skiplist with
  | some n => { s with queued := Function.update s.queued n none }
  | none => s

/-- What the step `a`, taken in state `s`, does to the logs after it has led the hand-off to
`core`. -/
def logEffect (p : Params) (s : State) (core : Handoff.State) (a : Action) : State :=
  match a with
  | .insert key =>
    match appendLog s key with
    | .ok s => { s with core := core }
    | .error e => { s with core := s.core.raise e }
  | .realloc => reallocLog p { s with core := core }
  | .producer =>
    match s.core.producer, s.core.skiplist with
    | .push, some n => handOver { s with core := core } n
    | .realloc, _ => reallocLog p { s with core := core }
    | _, _ => { s with core := core }
  | .worker w =>
    match (s.core.workers w).pc with
    | .run => assertLog { s with core := core } (s.core.workers w).flush
    | .inRun => deleteLog { s with core := core } (s.core.workers w).flush
    | _ => { s with core := core }
  | _ => { s with core := core }

def step (p : Params) (s : State) (a : Action) : Option State :=
  (Handoff.step p.toParams s.core a).map fun core => logEffect p s core a

/-- Below `10 ^ 8` the last digit of the number is the one that is cut off. -/
theorem logName_eq {path : List UInt8} (h0 : (0 : UInt8) ∉ path) {n : ℕ} (hn : n < 10 ^ 8) :
    logName path n = path ++ lastDigits 7 (n / 10) := by
  have hpath : cString path = path := List.takeWhile_eq_self_iff.mpr fun b hb => by
    have hne : b ≠ 0 := fun he => h0 (he ▸ hb)
    simpa using hne
  have hint : asInt32 n = n := if_pos (by omega)
  rw [logName, hpath, hint, zeroPadded_eq (by decide) hn, lastDigits, List.take_length_add_append]
  exact congrArg (path ++ ·) (List.take_left' (length_lastDigits 7 _))

/-- Two logs share a file exactly if their numbers agree in all digits but the last one. -/
theorem logName_eq_iff {path : List UInt8} (h0 : (0 : UInt8) ∉ path) {m n : ℕ} (hm : m < 10 ^ 8)
    (hn : n < 10 ^ 8) : logName path m = logName path n ↔ m / 10 = n / 10 := by
  rw [logName_eq h0 hm, logName_eq h0 hn, List.append_cancel_left_eq]
  exact lastDigits_inj (by omega) (by omega)

/-- What the names are for: they are different, and each is the path with the number behind it. -/
def NumberedNames (path : List UInt8) (m n : ℕ) : Prop :=
  logName path m ≠ logName path n ∧ logName path m = path ++ lastDigits 8 m ∧
    logName path n = path ++ lastDigits 8 n

theorem cString_length_lt {path : List UInt8} (h0 : (0 : UInt8) ∈ path) :
    (cString path).length < path.length := by
  have hle : (cString path).length ≤ path.length := (List.takeWhile_prefix _).length_le
  refine lt_of_le_of_ne hle fun heq => ?_
  have hpath : cString path = path := (List.takeWhile_prefix _).eq_of_length heq
  have hne := List.takeWhile_eq_self_iff.mp hpath 0 h0
  simp at hne

/-- A path that ends early leaves room for all digits. -/
theorem logName_of_nul {path : List UInt8} (h0 : (0 : UInt8) ∈ path) {n : ℕ} (hn : n < 10 ^ 8) :
    logName path n = cString path ++ lastDigits 8 n := by
  have hint : asInt32 n = n := if_pos (by omega)
  have hlt := cString_length_lt h0
  rw [logName, hint, zeroPadded_eq (by decide) hn, List.take_of_length_le]
  rw [List.length_append, length_lastDigits]
  omega

theorem logName_ne_full (path : List UInt8) {n : ℕ} (hn : n < 10 ^ 8) :
    logName path n ≠ path ++ lastDigits 8 n := by
  intro he
  have hlen := congrArg List.length he
  by_cases h0 : (0 : UInt8) ∈ path
  · have hlt := cString_length_lt h0
    rw [logName_of_nul h0 hn] at hlen
    simp only [List.length_append, length_lastDigits] at hlen
    omega
  · rw [logName_eq h0 hn] at hlen
    simp only [List.length_append, length_lastDigits] at hlen
    omega

/-- Two different numbers never have the names they should, and without a zero byte in the path they
have one name exactly if they agree in all digits but the last one. -/
theorem not_numberedNames (path : List UInt8) {m n : ℕ} (hm : m < 10 ^ 8) (hn : n < 10 ^ 8)
    (hne : m ≠ n) : ¬NumberedNames path m n ∧
      (logName path m ≠ logName path n ↔ (0 : UInt8) ∈ path ∨ m / 10 ≠ n / 10) := by
  refine ⟨fun h => logName_ne_full path hm h.2.1, ?_⟩
  by_cases h0 : (0 : UInt8) ∈ path
  · refine iff_of_true ?_ (Or.inl h0)
    rw [logName_of_nul h0 hm, logName_of_nul h0 hn, ne_eq, List.append_cancel_left_eq,
      lastDigits_inj hm hn]
    exact hne
  · rw [ne_eq, logName_eq_iff h0 hm hn, or_iff_right h0]

/-- The logs number 9 and 10 have different names, but not the full ones. -/
theorem not_numberedNames_carry : ¬NumberedNames [108, 111, 103] 9 10 ∧
    (logName [108, 111, 103] 9 ≠ logName [108, 111, 103] 10 ↔
      (0 : UInt8) ∈ [108, 111, 103] ∨ 9 / 10 ≠ 10 / 10) :=
  not_numberedNames [108, 111, 103] (by decide) (by decide) (by decide)

/-- The logs number 0 and 1 have one name. -/
theorem not_forall_numberedNames : ¬∀ (path : List UInt8) (m n : ℕ), m < 10 ^ 8 → n < 10 ^ 8 →
    m ≠ n → NumberedNames path m n := by
  intro h
  exact (h [108] 0 1 (by decide) (by decide) (by decide)).1 (by decide)

end PersistTree.Log
