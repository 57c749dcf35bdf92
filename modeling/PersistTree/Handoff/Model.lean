import PersistTree.Library.Transition
import PersistTree.SkipLists.Common
import Mathlib.Logic.Function.Basic

/-!
# The hand-off between the producer and the flushing threads

`SkiplistWriteNVM::Insert`, `Flush` and `CallThread` of `log_batch_wrapper.cc`, run by one producer
and by the workers of a `ThreadPool`, as a labelled transition system. One step is one section
under a mutex, one load or store of `is_running_`, one unlocked test of `queue_` or
`block_skiplist_num_`, or the start or the end of a `Run`. A DRAM list is known by the number of
lists made before it, and only its keys are recorded.
-/
namespace PersistTree.Handoff

/-- The arguments of `Init` that the hand-off depends on, and the number of threads in the pool. -/
structure Params where
  skiplistMaxNum : ℕ
  maxMemSkiplistSize : ℕ
  workers : ℕ
  deriving DecidableEq, Repr

/-- `queue_.max_size()`: a `push` beyond it fails. -/
def queueMaxSize : ℕ := (2 ^ 63 - 1) / 24

/-- A `FlushNVM` object; `none` is the null `skiplist_` of a default-constructed one. -/
structure FlushNVM where
  skiplist : Option ℕ
  deriving DecidableEq, Repr

/-- Where the producer is: `idle` outside the calls, and otherwise the next step of `Flush`. -/
inductive ProducerPc where
  | idle
  | push
  | blockTest
  | wait
  | asleep
  | loadTest
  | enqueue
  | realloc
  | done
  deriving DecidableEq, Repr

/-- Where a worker is: `idle` without a task, and otherwise the next step of `CallThread`. -/
inductive WorkerPc where
  | idle
  | start
  | testEmpty
  | loopTest
  | lockPop
  | sizeTest
  | notify
  | run
  | inRun
  | clear
  | joined
  deriving DecidableEq, Repr

/-- A worker with the local variable `flush` of its `CallThread`. `popped` records what the current
iteration of the loop took from the queue. -/
structure Worker where
  pc : WorkerPc
  flush : FlushNVM
  popped : Option FlushNVM
  deriving DecidableEq, Repr

/-- One execution of `flush.Run()`, with what its iteration had popped. -/
structure RunRecord where
  flush : FlushNVM
  popped : Option FlushNVM
  deriving DecidableEq, Repr

structure State where
  queue : List FlushNVM
  blockSkiplistNum : ℕ
  isRunning : Bool
  /-- `skiplist_`, null between the push of `Flush` and `Realloc`. -/
  skiplist : Option ℕ
  curMemSkiplistSize : ℕ
  /-- How many DRAM lists have been made, and the keys put into each of them. -/
  made : ℕ
  keys : ℕ → List Key
  deleted : List ℕ
  producer : ProducerPc
  /-- The `CallThread` tasks in the pool that no worker has taken yet. -/
  pending : ℕ
  stop : Bool
  workers : ℕ → Worker
  runs : List RunRecord
  fault : Option Fault

inductive Action where
  /-- The producer calls `Insert(key)`. -/
  | insert (key : Key)
  /-- The producer calls `Flush`. -/
  | flush
  /-- The producer calls `Realloc`. -/
  | realloc
  /-- The producer is done and deletes the pool. -/
  | finish
  /-- The next step of the producer inside `Flush`. -/
  | producer
  /-- The wait on `queue_cond` ends without a notification. -/
  | wake
  /-- Worker `w` takes a task from the pool. -/
  | take (w : ℕ)
  /-- The next step of the `CallThread` that worker `w` executes. -/
  | worker (w : ℕ)
  /-- Worker `w` leaves the stopped pool and is joined. -/
  | exit (w : ℕ)
  deriving DecidableEq, Repr

namespace State

def raise (s : State) (e : Fault) : State := { s with fault := some e }

def setWorker (s : State) (w : ℕ) (x : Worker) : State :=
  { s with workers := Function.update s.workers w x }

def setPc (s : State) (w : ℕ) (pc : WorkerPc) : State :=
  s.setWorker w { s.workers w with pc := pc }

def goTo (s : State) (pc : ProducerPc) : State := { s with producer := pc }

end State

def init : State where
  queue := []
  blockSkiplistNum := 0
  isRunning := false
  skiplist := some 0
  curMemSkiplistSize := 0
  made := 1
  keys := fun _ => []
  deleted := []
  producer := .idle
  pending := 0
  stop := false
  workers := fun _ => ⟨.idle, ⟨none⟩, none⟩
  runs := []
  fault := none

/-- `Insert`, up to the call of `Flush`. -/
def insertKey (p : Params) (s : State) (key : Key) : State :=
  match s.skiplist with
  | none => s.raise .badAccess
  | some n =>
    let s := { s with
      keys := Function.update s.keys n (s.keys n ++ [key])
      curMemSkiplistSize := (s.curMemSkiplistSize + key.length) % 2 ^ 64 }
    if p.maxMemSkiplistSize ≤ s.curMemSkiplistSize then s.goTo .push else s

/-- `Realloc`, from `Flush` or from the producer. -/
def reallocList (s : State) : State :=
  match s.skiplist with
  | some _ => s.raise .assertion
  | none => { s with
      curMemSkiplistSize := 0
      skiplist := some s.made
      made := s.made + 1
      producer := .idle }

/-- The section of `Flush` under `q_mutex_`. -/
def pushList (s : State) : State :=
  if s.queue.length < queueMaxSize then
    { s with
      queue := s.queue ++ [⟨s.skiplist⟩]
      skiplist := none
      blockSkiplistNum := (s.blockSkiplistNum + 1) % 2 ^ 64
      producer := .blockTest }
  else s.raise .badAlloc

/-- The next step of `Flush`. -/
def producerStep (p : Params) (s : State) : Option State :=
  match s.producer with
  | .push => some (pushList s)
  | .blockTest =>
    some (s.goTo (if p.skiplistMaxNum < s.blockSkiplistNum then .wait else .loadTest))
  | .wait => some (s.goTo (if s.queue.length ≤ p.skiplistMaxNum then .realloc else .asleep))
  | .loadTest => some (s.goTo (if s.isRunning then .realloc else .enqueue))
  | .enqueue => some { s.goTo .realloc with pending := s.pending + 1 }
  | .realloc => some (reallocList s)
  | .idle | .asleep | .done => none

/-- The section of `CallThread` under `q_mutex_`. -/
def popList (s : State) (w : ℕ) : State :=
  match s.queue with
  | [] => s.setPc w .sizeTest
  | f :: queue =>
    { s.setWorker w ⟨.sizeTest, f, some f⟩ with
      queue := queue
      blockSkiplistNum := (s.blockSkiplistNum + (2 ^ 64 - 1)) % 2 ^ 64 }

/-- The section of `CallThread` under `mut`. -/
def notifyOne (s : State) (w : ℕ) : State :=
  let s := s.setPc w .run
  if s.producer = .asleep then s.goTo .wait else s

/-- The start of `flush.Run()` up to its loop: `assert(skiplist_ != nullptr)`, the accesses through
`skiplist_`, and `assert(start != nullptr)`. -/
def enterRun (s : State) (w : ℕ) : State :=
  let flush := (s.workers w).flush
  let s := { s with runs := s.runs ++ [RunRecord.mk flush (s.workers w).popped] }
  match flush.skiplist with
  | none => s.raise .assertion
  | some n =>
    if n ∈ s.deleted then s.raise .useAfterFree
    else if s.keys n = [] then s.raise .assertion
    else s.setPc w .inRun

/-- The end of `flush.Run()`, with `delete skiplist_`. -/
def leaveRun (s : State) (w : ℕ) : State :=
  { s.setPc w .loopTest with deleted := (s.workers w).flush.skiplist.toList ++ s.deleted }

/-- The next step of `CallThread`. -/
def workerStep (p : Params) (s : State) (w : ℕ) : Option State :=
  match (s.workers w).pc with
  | .start => some { s.setPc w .testEmpty with isRunning := true }
  | .testEmpty => some (s.setPc w (if s.queue = [] then .idle else .loopTest))
  | .loopTest =>
    let pc : WorkerPc := if s.queue = [] then .clear else .lockPop
    some (s.setWorker w ⟨pc, (s.workers w).flush, none⟩)
  | .lockPop => some (popList s w)
  | .sizeTest => some (s.setPc w (if s.queue.length ≤ p.skiplistMaxNum then .notify else .run))
  | .notify => some (notifyOne s w)
  | .run => some (enterRun s w)
  | .inRun => some (leaveRun s w)
  | .clear => some { s.setPc w .idle with isRunning := false }
  | .idle | .joined => none

/-- One step of the system; a fault is the end of the process. -/
def step (p : Params) (s : State) (a : Action) : Option State :=
  if s.fault.isSome then none else
  match a with
  | .insert key => if s.producer = .idle then some (insertKey p s key) else none
  | .flush => if s.producer = .idle then some (s.goTo .push) else none
  | .realloc => if s.producer = .idle then some (reallocList s) else none
  | .finish => if s.producer = .idle then some { s.goTo .done with stop := true } else none
  | .producer => producerStep p s
  | .wake => if s.producer = .asleep then some (s.goTo .wait) else none
  | .take w =>
    if w < p.workers ∧ (s.workers w).pc = .idle ∧ 0 < s.pending then
      some { s.setWorker w ⟨.start, ⟨none⟩, none⟩ with pending := s.pending - 1 }
    else none
  | .worker w => if w < p.workers then workerStep p s w else none
  | .exit w =>
    if w < p.workers ∧ (s.workers w).pc = .idle ∧ s.stop ∧ s.pending = 0 then
      some (s.setPc w .joined)
    else none

/-- Some worker of the pool is at a place that satisfies `P`. -/
def SomeWorker (p : Params) (workers : ℕ → Worker) (P : WorkerPc → Prop) : Prop :=
  ∃ w < p.workers, P (workers w).pc

/-- `Realloc` is next, inside `Flush` or by a call of the producer. -/
def InRealloc (s : State) (a : Action) : Prop :=
  (a = .realloc ∧ s.producer = .idle) ∨ (a = .producer ∧ s.producer = .realloc)

/-- All that a step can do, branch by branch. -/
inductive Moves (p : Params) (s : State) : Action → State → Prop
  | insertNull (key : Key) (hp : s.producer = .idle) (hl : s.skiplist = none) :
      Moves p s (.insert key) (s.raise .badAccess)
  | insert (key : Key) (n : ℕ) (pc : ProducerPc) (hp : s.producer = .idle)
      (hl : s.skiplist = some n) (hpc : pc = .idle ∨ pc = .push) :
      Moves p s (.insert key) { s with
        keys := Function.update s.keys n (s.keys n ++ [key])
        curMemSkiplistSize := (s.curMemSkiplistSize + key.length) % 2 ^ 64
        producer := pc }
  | flush (hp : s.producer = .idle) : Moves p s .flush (s.goTo .push)
  | reallocKept (a : Action) (n : ℕ) (hp : InRealloc s a) (hl : s.skiplist = some n) :
      Moves p s a (s.raise .assertion)
  | realloc (a : Action) (hp : InRealloc s a) (hl : s.skiplist = none) :
      Moves p s a { s with
        curMemSkiplistSize := 0
        skiplist := some s.made
        made := s.made + 1
        producer := .idle }
  | finish (hp : s.producer = .idle) : Moves p s .finish { s.goTo .done with stop := true }
  | pushFull (hp : s.producer = .push) : Moves p s .producer (s.raise .badAlloc)
  | push (hp : s.producer = .push) (hq : s.queue.length < queueMaxSize) :
      Moves p s .producer { s with
        queue := s.queue ++ [⟨s.skiplist⟩]
        skiplist := none
        blockSkiplistNum := (s.blockSkiplistNum + 1) % 2 ^ 64
        producer := .blockTest }
  | block (hp : s.producer = .blockTest) (hb : p.skiplistMaxNum < s.blockSkiplistNum) :
      Moves p s .producer (s.goTo .wait)
  | pass (hp : s.producer = .blockTest) (hb : s.blockSkiplistNum ≤ p.skiplistMaxNum) :
      Moves p s .producer (s.goTo .loadTest)
  | waited (hp : s.producer = .wait) (hq : s.queue.length ≤ p.skiplistMaxNum) :
      Moves p s .producer (s.goTo .realloc)
  | sleep (hp : s.producer = .wait) (hq : p.skiplistMaxNum < s.queue.length) :
      Moves p s .producer (s.goTo .asleep)
  | loadTrue (hp : s.producer = .loadTest) (hr : s.isRunning = true) :
      Moves p s .producer (s.goTo .realloc)
  | loadFalse (hp : s.producer = .loadTest) (hr : s.isRunning = false) :
      Moves p s .producer (s.goTo .enqueue)
  | enqueue (hp : s.producer = .enqueue) :
      Moves p s .producer { s.goTo .realloc with pending := s.pending + 1 }
  | wake (hp : s.producer = .asleep) : Moves p s .wake (s.goTo .wait)
  | take (w : ℕ) (hw : w < p.workers) (hpc : (s.workers w).pc = .idle) (hn : 0 < s.pending) :
      Moves p s (.take w) { s.setWorker w ⟨.start, ⟨none⟩, none⟩ with pending := s.pending - 1 }
  | exit (w : ℕ) (hw : w < p.workers) (hpc : (s.workers w).pc = .idle) (hs : s.stop = true)
      (hn : s.pending = 0) : Moves p s (.exit w) (s.setPc w .joined)
  | start (w : ℕ) (hw : w < p.workers) (hpc : (s.workers w).pc = .start) :
      Moves p s (.worker w) { s.setPc w .testEmpty with isRunning := true }
  | testLeave (w : ℕ) (hw : w < p.workers) (hpc : (s.workers w).pc = .testEmpty)
      (hq : s.queue = []) : Moves p s (.worker w) (s.setPc w .idle)
  | testStay (w : ℕ) (hw : w < p.workers) (hpc : (s.workers w).pc = .testEmpty)
      (hq : s.queue ≠ []) : Moves p s (.worker w) (s.setPc w .loopTest)
  | loopLeave (w : ℕ) (hw : w < p.workers) (hpc : (s.workers w).pc = .loopTest)
      (hq : s.queue = []) :
      Moves p s (.worker w) (s.setWorker w ⟨.clear, (s.workers w).flush, none⟩)
  | loopStay (w : ℕ) (hw : w < p.workers) (hpc : (s.workers w).pc = .loopTest)
      (hq : s.queue ≠ []) :
      Moves p s (.worker w) (s.setWorker w ⟨.lockPop, (s.workers w).flush, none⟩)
  | popNone (w : ℕ) (hw : w < p.workers) (hpc : (s.workers w).pc = .lockPop)
      (hq : s.queue = []) : Moves p s (.worker w) (s.setPc w .sizeTest)
  | pop (w : ℕ) (f : FlushNVM) (queue : List FlushNVM) (hw : w < p.workers)
      (hpc : (s.workers w).pc = .lockPop) (hq : s.queue = f :: queue) :
      Moves p s (.worker w) { s.setWorker w ⟨.sizeTest, f, some f⟩ with
        queue := queue
        blockSkiplistNum := (s.blockSkiplistNum + (2 ^ 64 - 1)) % 2 ^ 64 }
  | sizeNotify (w : ℕ) (hw : w < p.workers) (hpc : (s.workers w).pc = .sizeTest)
      (hq : s.queue.length ≤ p.skiplistMaxNum) : Moves p s (.worker w) (s.setPc w .notify)
  | sizeSkip (w : ℕ) (hw : w < p.workers) (hpc : (s.workers w).pc = .sizeTest)
      (hq : p.skiplistMaxNum < s.queue.length) : Moves p s (.worker w) (s.setPc w .run)
  | notify (w : ℕ) (hw : w < p.workers) (hpc : (s.workers w).pc = .notify)
      (hp : s.producer ≠ .asleep) : Moves p s (.worker w) (s.setPc w .run)
  | notifyWake (w : ℕ) (hw : w < p.workers) (hpc : (s.workers w).pc = .notify)
      (hp : s.producer = .asleep) : Moves p s (.worker w) ((s.setPc w .run).goTo .wait)
  | runFault (w : ℕ) (e : Fault) (hw : w < p.workers) (hpc : (s.workers w).pc = .run) :
      Moves p s (.worker w) { s with
        runs := s.runs ++ [⟨(s.workers w).flush, (s.workers w).popped⟩]
        fault := some e }
  | run (w n : ℕ) (hw : w < p.workers) (hpc : (s.workers w).pc = .run)
      (hf : (s.workers w).flush.skiplist = some n) (hd : n ∉ s.deleted) (hk : s.keys n ≠ []) :
      Moves p s (.worker w) { s.setPc w .inRun with
        runs := s.runs ++ [⟨(s.workers w).flush, (s.workers w).popped⟩] }
  | endRun (w : ℕ) (hw : w < p.workers) (hpc : (s.workers w).pc = .inRun) :
      Moves p s (.worker w) { s.setPc w .loopTest with
        deleted := (s.workers w).flush.skiplist.toList ++ s.deleted }
  | clear (w : ℕ) (hw : w < p.workers) (hpc : (s.workers w).pc = .clear) :
      Moves p s (.worker w) { s.setPc w .idle with isRunning := false }

variable {p : Params} {s t : State} {a : Action} {w : ℕ}

theorem moves_insertKey (key : Key) (hp : s.producer = .idle) :
    Moves p s (.insert key) (insertKey p s key) := by
  unfold insertKey
  split
  next hl => exact .insertNull key hp hl
  next n hl =>
    dsimp only
    split_ifs
    · exact .insert key n .push hp hl (Or.inr rfl)
    · have hmove := Moves.insert (p := p) key n .idle hp hl (Or.inl rfl)
      rwa [← hp] at hmove

theorem moves_reallocList (hp : InRealloc s a) : Moves p s a (reallocList s) := by
  unfold reallocList
  split
  next n hl => exact .reallocKept a n hp hl
  next hl => exact .realloc a hp hl

theorem moves_producerStep (h : producerStep p s = some t) : Moves p s .producer t := by
  unfold producerStep at h
  split at h
  next hp =>
    obtain rfl := Option.some.inj h
    unfold pushList
    split_ifs with hq
    · exact .push hp hq
    · exact .pushFull hp
  next hp =>
    obtain rfl := Option.some.inj h
    split_ifs with hb
    · exact .block hp hb
    · exact .pass hp (Nat.le_of_not_lt hb)
  next hp =>
    obtain rfl := Option.some.inj h
    split_ifs with hq
    · exact .waited hp hq
    · exact .sleep hp (Nat.lt_of_not_le hq)
  next hp =>
    obtain rfl := Option.some.inj h
    cases hr : s.isRunning
    · exact .loadFalse hp hr
    · exact .loadTrue hp hr
  next hp =>
    obtain rfl := Option.some.inj h
    exact .enqueue hp
  next hp =>
    obtain rfl := Option.some.inj h
    exact moves_reallocList (Or.inr ⟨rfl, hp⟩)
  all_goals cases h

theorem moves_enterRun (hw : w < p.workers) (hpc : (s.workers w).pc = .run) :
    Moves p s (.worker w) (enterRun s w) := by
  unfold enterRun
  dsimp only
  split
  next => exact .runFault w _ hw hpc
  next n hf =>
    split_ifs with hd hk
    · exact .runFault w _ hw hpc
    · exact .runFault w _ hw hpc
    · exact .run w n hw hpc hf hd hk

theorem moves_workerStep (hw : w < p.workers) (h : workerStep p s w = some t) :
    Moves p s (.worker w) t := by
  unfold workerStep at h
  split at h
  next hpc =>
    obtain rfl := Option.some.inj h
    exact .start w hw hpc
  next hpc =>
    obtain rfl := Option.some.inj h
    split_ifs with hq
    · exact .testLeave w hw hpc hq
    · exact .testStay w hw hpc hq
  next hpc =>
    obtain rfl := Option.some.inj h
    split_ifs with hq
    · exact .loopLeave w hw hpc hq
    · exact .loopStay w hw hpc hq
  next hpc =>
    obtain rfl := Option.some.inj h
    unfold popList
    split
    next hq => exact .popNone w hw hpc hq
    next f queue hq => exact .pop w f queue hw hpc hq
  next hpc =>
    obtain rfl := Option.some.inj h
    split_ifs with hq
    · exact .sizeNotify w hw hpc hq
    · exact .sizeSkip w hw hpc (Nat.lt_of_not_le hq)
  next hpc =>
    obtain rfl := Option.some.inj h
    unfold notifyOne
    dsimp only
    split_ifs with hp
    · exact .notifyWake w hw hpc hp
    · exact .notify w hw hpc hp
  next hpc =>
    obtain rfl := Option.some.inj h
    exact moves_enterRun hw hpc
  next hpc =>
    obtain rfl := Option.some.inj h
    exact .endRun w hw hpc
  next hpc =>
    obtain rfl := Option.some.inj h
    exact .clear w hw hpc
  all_goals cases h

theorem moves_of_step (h : step p s a = some t) : Moves p s a t := by
  unfold step at h
  by_cases hf : s.fault.isSome
  · rw [if_pos hf] at h
    cases h
  rw [if_neg hf] at h
  cases a with
  | insert key =>
    obtain ⟨hp, ⟨⟩⟩ := Option.ite_none_right_eq_some.mp h
    exact moves_insertKey key hp
  | flush =>
    obtain ⟨hp, ⟨⟩⟩ := Option.ite_none_right_eq_some.mp h
    exact .flush hp
  | realloc =>
    obtain ⟨hp, ⟨⟩⟩ := Option.ite_none_right_eq_some.mp h
    exact moves_reallocList (Or.inl ⟨rfl, hp⟩)
  | finish =>
    obtain ⟨hp, ⟨⟩⟩ := Option.ite_none_right_eq_some.mp h
    exact .finish hp
  | producer => exact moves_producerStep h
  | wake =>
    obtain ⟨hp, ⟨⟩⟩ := Option.ite_none_right_eq_some.mp h
    exact .wake hp
  | take w =>
    obtain ⟨⟨hw, hpc, hn⟩, ⟨⟩⟩ := Option.ite_none_right_eq_some.mp h
    exact .take w hw hpc hn
  | worker w =>
    obtain ⟨hw, h⟩ := Option.ite_none_right_eq_some.mp h
    exact moves_workerStep hw h
  | exit w =>
    obtain ⟨⟨hw, hpc, hs, hn⟩, ⟨⟩⟩ := Option.ite_none_right_eq_some.mp h
    exact .exit w hw hpc hs hn

theorem fault_of_step (h : step p s a = some t) : s.fault = none := by
  unfold step at h
  by_cases hf : s.fault.isSome
  · rw [if_pos hf] at h
    cases h
  · exact Option.not_isSome_iff_eq_none.mp hf

section workers

variable {workers : ℕ → Worker} {x : Worker} {P : WorkerPc → Prop}

theorem SomeWorker.new (hw : w < p.workers) (hx : P x.pc) :
    SomeWorker p (Function.update workers w x) P :=
  ⟨w, hw, by rwa [Function.update_self]⟩

theorem SomeWorker.update (h : SomeWorker p workers P) (hx : P (workers w).pc → P x.pc) :
    SomeWorker p (Function.update workers w x) P := by
  obtain ⟨v, hv, hP⟩ := h
  by_cases he : v = w
  · subst v
    exact .new hv (hx hP)
  · exact ⟨v, hv, by rwa [Function.update_of_ne he]⟩

theorem SomeWorker.of_update (h : SomeWorker p (Function.update workers w x) P)
    (hx : ¬P x.pc) : SomeWorker p workers P := by
  obtain ⟨v, hv, hP⟩ := h
  by_cases he : v = w
  · subst v
    rw [Function.update_self] at hP
    exact absurd hP hx
  · exact ⟨v, hv, by rwa [Function.update_of_ne he] at hP⟩

end workers

end PersistTree.Handoff
