import PersistTree.Buffer.SkiplistWriteNVM
import PersistTree.Driver.KeyFormat
import PersistTree.Library.Avoids
import PersistTree.Library.Transition
import PersistTree.SkipLists.MemoryInvariant

/-!
# The divisors of the driver

`parse_input`, `main`, `write_to_dram` and `write_to_nvm` of `motivation1_main.cc`, in the build of
the Makefile with `EVERY_1G_PRINT` and `CAL_ACCESS_COUNT`, as far as they compute. One step is an
iteration of the writing thread, the end of its loop, or an insertion into the NVM list by a `Run`
on a thread of the pool. The keys of such insertions are left open: they do not matter for the
divisors.
-/
namespace PersistTree.Driver

open Library

/-- The global variables as `parse_input` leaves them, with what it asserts of them. -/
structure Options where
  usingExistingData : Bool
  testType : UInt64
  valueSize : UInt64
  opsType : Bool
  opsNum : UInt64
  memSkiplistSize : UInt64
  skiplistMaxNum : UInt64
  testType_ok : testType >>> 1 = 0
  valueSize_ok : valueSize &&& (valueSize - 1) = 0
  skiplistMaxNum_ok : 1 ≤ skiplistMaxNum ∧ skiplistMaxNum ≤ 20

/-- An `int` assigned to a `size_t`. -/
def toSize (n : Int32) : UInt64 := n.toInt64.toUInt64

/-- `parse_input(num, para)`, where `atoi k` is the value of `atoi(para[k])`; `none` is the result
-1. -/
def parseInput (num : ℤ) (atoi : ℕ → Int32) : Except Fault (Option Options) :=
  if num ≠ 8 then .ok none
  else if h₁ : toSize (atoi 2) >>> 1 = 0 then
    if h₂ : toSize (atoi 3) &&& (toSize (atoi 3) - 1) = 0 then
      if h₃ : 1 ≤ toSize (atoi 7) ∧ toSize (atoi 7) ≤ 20 then
        .ok (some {
          usingExistingData := atoi 1 ≠ 0
          testType := toSize (atoi 2)
          valueSize := toSize (atoi 3)
          opsType := atoi 4 ≠ 0
          opsNum := toSize (atoi 5)
          memSkiplistSize := toSize (atoi 6)
          skiplistMaxNum := toSize (atoi 7)
          testType_ok := h₁
          valueSize_ok := h₂
          skiplistMaxNum_ok := h₃ })
      else .error .assertion
    else .error .assertion
  else .error .assertion

def udiv (a b : UInt64) : Except Fault UInt64 := if b = 0 then .error .divByZero else .ok (a / b)

def umod (a b : UInt64) : Except Fault UInt64 := if b = 0 then .error .divByZero else .ok (a % b)

/-- `per_1g_num` of `main` and of `write_to_nvm`. -/
def per1gNumNvm (valueSize : UInt64) : Except Fault UInt64 := do
  let q ← udiv (1024 * 1024) valueSize
  return q * 1024 - 1

/-- `per_1g_num` of `write_to_dram`. -/
def per1gNumDram (valueSize : UInt64) : Except Fault UInt64 := do
  let q ← udiv (1024 * 1000) valueSize
  return q * 1000

/-- The lists, `skiplist_dram` being null in a test of the NVM list, and the variables of the
writing thread. -/
structure State where
  skiplistNvm : PersistentSkipList
  skiplistDram : Option SkiplistWriteNVM
  per1gNum : UInt64
  i : UInt64
  finished : Bool

/-- `main` up to the loop of the writing thread. -/
def start (o : Options) : Except Fault State := do
  let per1gNum ← per1gNumNvm o.valueSize
  let skiplistNvm := PersistentSkipList.new 20 keySize o.opsNum.toNat per1gNum.toNat
  if o.testType = 1 then
    let size := o.memSkiplistSize * 1024 * 1024
    let skiplistDram := SkiplistWriteNVM.init 12 size.toNat keySize
    let per1gNum ← per1gNumDram o.valueSize
    return ⟨skiplistNvm, some skiplistDram, per1gNum, 1, false⟩
  else
    let per1gNum ← per1gNumNvm o.valueSize
    return ⟨skiplistNvm, none, per1gNum, 1, false⟩

/-- `main`, when `parse_input` accepts the parameters. -/
def main (num : ℤ) (atoi : ℕ → Int32) : Except Fault (Option State) := do
  match ← parseInput num atoi with
  | none => return none
  | some o => return some (← start o)

theorem main_eq {num : ℤ} {atoi : ℕ → Int32} {o : Options}
    (h : parseInput num atoi = .ok (some o)) : main num atoi = (start o).map some := by
  rw [main, h, ok_bind]
  cases hs : start o <;> simp only [hs] <;> rfl

namespace State

def insert (s : State) (c : Call) : Except Fault State :=
  match s.skiplistDram with
  | some dram => (dram.insert c).map fun dram => { s with skiplistDram := some dram }
  | none => (s.skiplistNvm.insert c).map fun nvm => { s with skiplistNvm := nvm }

/-- One iteration of `write_to_dram` or `write_to_nvm`, for the value `draw` of `rnd->Next()`. -/
def iterate (s : State) (o : Options) (draw : UInt32) (env : Env) : Except Fault State := do
  let number ← umod draw.toUInt64 o.opsNum
  let s ← s.insert ⟨env, insertData o.valueSize.toNat number.toNat s.i.toNat⟩
  let r ← umod s.i s.per1gNum
  if r = 0 then
    let _ ← udiv s.i s.per1gNum
  return { s with i := s.i + 1 }

/-- After the loop: `Flush`, or the output of the NVM list. -/
def finish (s : State) : Except Fault State :=
  match s.skiplistDram with
  | some dram => dram.flush.map fun dram => { s with skiplistDram := some dram, finished := true }
  | none => .ok { s with finished := true }

/-- The next insertion of a `Run`. -/
def background (s : State) (c : Call) : Except Fault State :=
  (s.skiplistNvm.insert c).map fun nvm => { s with skiplistNvm := nvm }

end State

inductive Action where
  | iterate (draw : UInt32) (env : Env)
  | finish
  | background (c : Call)

/-- One step of the process; a fault ends it. -/
def step (o : Options) (r : Except Fault State) (a : Action) : Option (Except Fault State) :=
  match r, a with
  | .error _, _ => none
  | .ok s, .iterate draw env => if s.i ≤ o.opsNum then some (s.iterate o draw env) else none
  | .ok s, .finish => if o.opsNum < s.i ∧ ¬s.finished then some s.finish else none
  | .ok s, .background c => if s.skiplistDram.isSome then some (s.background c) else none

/-- Every divisor of every run is non-zero when it is used. -/
def NoZeroDivisor (o : Options) : Prop :=
  ∀ as r, Transition.run (step o) (start o) as = some r → r ≠ .error .divByZero

end PersistTree.Driver
