import PersistTree.Driver.Main
import PersistTree.Handoff.WithLists

/-!
# A test with the buffer, step by step

With `test_type` 1 the loop of `write_to_dram` is the producer of the hand-off: it calls `Insert`
for every key, then `Flush`, and `main` deletes the pool. One step is an iteration up to the call of
`Flush` in `Insert`, the call of `Flush` behind the loop, the deletion of the pool, or a step of a
call or a thread that is under way. The logs are left out.
-/
namespace PersistTree.Driver

/-- The hand-off and the variables of `write_to_dram`. -/
structure BufferedState where
  handoff : Handoff.ListState
  per1gNum : UInt64
  i : UInt64
  flushed : Bool

inductive BufferedAction where
  | iterate (draw : UInt32) (env : Env)
  /-- `write_to_dram` has left its loop and calls `Flush`. -/
  | flush
  /-- `main` has joined `write_to_dram` and deletes the pool. -/
  | finish
  | background (a : Handoff.ListAction)

/-- The lists that `main` makes, and its pool of two threads. -/
def listParams (o : Options) (per1gNum : UInt64) (junk : ℕ → ℕ → List UInt8) (env : ℕ → Env) :
    Handoff.ListParams where
  skiplistMaxNum := o.skiplistMaxNum.toNat
  maxMemSkiplistSize := (o.memSkiplistSize * 1024 * 1024).toNat
  workers := 2
  dramMaxHeight := 12
  keySize := keySize
  nvm := .new 20 keySize o.opsNum.toNat per1gNum.toNat
  junk := junk
  env := env

/-- `main` up to the loop of `write_to_dram`. -/
def bufferedStart (o : Options) (d : Handoff.ListParams) : Except Fault BufferedState := do
  let per1gNum ← per1gNumDram o.valueSize
  return ⟨Handoff.listInit d, per1gNum, 1, false⟩

namespace BufferedState

def nvm (s : BufferedState) : PersistentSkipList := s.handoff.nvm

/-- The rest of an iteration, behind `Insert`. -/
def next (s : BufferedState) : Except Fault BufferedState := do
  let r ← umod s.i s.per1gNum
  if r = 0 then
    let _ ← udiv s.i s.per1gNum
  return { s with i := s.i + 1 }

/-- One iteration of `write_to_dram`, for the value `draw` of `rnd->Next()`. A call of `Flush` that
`Insert` makes is still to come, and does not matter to what follows it here. -/
def iterate (s : BufferedState) (o : Options) (d : Handoff.ListParams) (draw : UInt32)
    (env : Env) : Option (Except Fault BufferedState) :=
  match umod draw.toUInt64 o.opsNum with
  | .error e => some (.error e)
  | .ok number =>
    (Handoff.listStep d s.handoff (.insert
      ⟨env, insertData o.valueSize.toNat number.toNat s.i.toNat⟩)).map fun handoff =>
        { s with handoff := handoff }.next

end BufferedState

/-- The steps that are not a call of the producer. -/
def InBackground : Handoff.ListAction → Prop
  | .copy _ | .core .producer | .core .wake | .core (.take _) | .core (.worker _)
  | .core (.exit _) => True
  | .insert _ | .core (.insert _) | .core .flush | .core .realloc | .core .finish => False

instance : DecidablePred InBackground := fun a =>
  match a with
  | .copy _ | .core .producer | .core .wake | .core (.take _) | .core (.worker _)
  | .core (.exit _) => isTrue trivial
  | .insert _ | .core (.insert _) | .core .flush | .core .realloc | .core .finish => isFalse id

def bufferedStep (o : Options) (d : Handoff.ListParams) (r : Except Fault BufferedState)
    (a : BufferedAction) : Option (Except Fault BufferedState) :=
  match r, a with
  | .error _, _ => none
  | .ok s, .iterate draw env => if s.i ≤ o.opsNum then s.iterate o d draw env else none
  | .ok s, .flush =>
    if o.opsNum < s.i ∧ ¬s.flushed then
      (Handoff.listStep d s.handoff (.core .flush)).map fun handoff =>
        .ok { s with handoff := handoff, flushed := true }
    else none
  | .ok s, .finish =>
    if s.flushed then
      (Handoff.listStep d s.handoff (.core .finish)).map fun handoff =>
        .ok { s with handoff := handoff }
    else none
  | .ok s, .background a =>
    if InBackground a then
      (Handoff.listStep d s.handoff a).map fun handoff => .ok { s with handoff := handoff }
    else none

/-- The iterations, as those of a test of the NVM list. -/
def draws (as : List BufferedAction) : List Action :=
  as.filterMap fun a => match a with
    | .iterate draw env => some (.iterate draw env)
    | _ => none

/-- A wait of `Flush` that ends without a notification. -/
def isWake : BufferedAction → Bool
  | .background (.core .wake) => true
  | _ => false

end PersistTree.Driver
