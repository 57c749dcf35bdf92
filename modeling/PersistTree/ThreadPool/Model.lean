import PersistTree.Library.Parties
import PersistTree.Library.Transition

/-!
# The thread pool

`ThreadPool` of `thread_pool.h` with any number of workers and of callers, as a labelled transition
system. One step is one section under `queue_mutex`, one `notify_one` or `notify_all`, the end of a
task, the end of a sleep without a notification, or one `join` of the destructor. `condition.wait`
tests its predicate under the mutex and goes to sleep in the same section; the worker that a
`notify_one` wakes is any of those asleep, and a notification that finds nobody asleep is lost.
-/
namespace PersistTree.ThreadPool

/-- Where a worker is: about to enter its section under `queue_mutex`, asleep in `condition.wait`,
executing a task, or out of its loop. -/
inductive WorkerPc (τ : Type) where
  | test
  | asleep
  | running (task : τ)
  | returned
  deriving DecidableEq, Repr

/-- Where `~ThreadPool` is; `joining i` has joined the first `i` workers. -/
inductive Destructor where
  | notCalled
  | notifyAll
  | joining (i : ℕ)
  deriving DecidableEq, Repr

structure State (τ : Type) where
  tasks : List τ
  stop : Bool
  workers : ℕ → WorkerPc τ
  /-- The calls of `enqueue` that have left their section and not yet notified. -/
  notifies : ℕ
  destructor : Destructor
  /-- The tasks that `enqueue` has put into the queue and those it has refused by throwing. -/
  accepted : List τ
  refused : List τ
  /-- The tasks that workers have taken, and those that have been executed. -/
  started : List τ
  finished : List τ

inductive Action (τ : Type) where
  /-- The section of `enqueue`. -/
  | enqueue (task : τ)
  /-- The `notify_one` of an `enqueue`, which wakes the given worker if any. -/
  | notifyOne (woken : Option ℕ)
  /-- The section of worker `w`, or the end of its task. -/
  | worker (w : ℕ)
  /-- The sleep of worker `w` ends without a notification. -/
  | wake (w : ℕ)
  /-- The section of the destructor. -/
  | stop
  | notifyAll
  /-- The destructor joins the next worker. -/
  | join
  deriving DecidableEq, Repr

variable {τ : Type}

namespace WorkerPc

def isAsleep : WorkerPc τ → Bool
  | .asleep => true
  | _ => false

def hasReturned : WorkerPc τ → Bool
  | .returned => true
  | _ => false

theorem isAsleep_iff {pc : WorkerPc τ} : pc.isAsleep = true ↔ pc = .asleep := by
  cases pc <;> simp [isAsleep]

theorem hasReturned_iff {pc : WorkerPc τ} : pc.hasReturned = true ↔ pc = .returned := by
  cases pc <;> simp [hasReturned]

end WorkerPc

def init : State τ where
  tasks := []
  stop := false
  workers := fun _ => .test
  notifies := 0
  destructor := .notCalled
  accepted := []
  refused := []
  started := []
  finished := []

namespace State

def setWorker (s : State τ) (w : ℕ) (pc : WorkerPc τ) : State τ :=
  { s with workers := Function.update s.workers w pc }

/-- The destructor of a pool of `threads` workers has returned. -/
def Destroyed (threads : ℕ) (s : State τ) : Prop := s.destructor = .joining threads

end State

/-- Waking a worker: it goes back to its section. -/
def wakeUp : WorkerPc τ → WorkerPc τ
  | .asleep => .test
  | pc => pc

def enqueue (s : State τ) (task : τ) : State τ :=
  if s.stop then { s with refused := s.refused ++ [task] }
  else { s with
    tasks := s.tasks ++ [task]
    accepted := s.accepted ++ [task]
    notifies := s.notifies + 1 }

/-- The section of worker `w`: the test of the predicate, and what follows when it holds. -/
def takeTask (s : State τ) (w : ℕ) : State τ :=
  match s.tasks with
  | task :: tasks =>
    { s.setWorker w (.running task) with tasks := tasks, started := s.started ++ [task] }
  | [] => s.setWorker w (if s.stop then .returned else .asleep)

def workerStep (s : State τ) (w : ℕ) : Option (State τ) :=
  match s.workers w with
  | .test => some (takeTask s w)
  | .running task => some { s.setWorker w .test with finished := s.finished ++ [task] }
  | .asleep | .returned => none

def notifyOne (threads : ℕ) (s : State τ) (woken : Option ℕ) : Option (State τ) :=
  if s.notifies = 0 then none else
  match woken with
  | some w =>
    if w < threads ∧ (s.workers w).isAsleep then
      some { s.setWorker w .test with notifies := s.notifies - 1 }
    else none
  | none =>
    if ∀ w < threads, ¬(s.workers w).isAsleep then some { s with notifies := s.notifies - 1 }
    else none

def joinNext (threads : ℕ) (s : State τ) : Option (State τ) :=
  match s.destructor with
  | .joining i =>
    if i < threads ∧ (s.workers i).hasReturned then some { s with destructor := .joining (i + 1) }
    else none
  | .notCalled | .notifyAll => none

def step (threads : ℕ) (s : State τ) : Action τ → Option (State τ)
  | .enqueue task => if s.destructor = .joining threads then none else some (enqueue s task)
  | .notifyOne woken => notifyOne threads s woken
  | .worker w => if w < threads then workerStep s w else none
  | .wake w => if w < threads ∧ (s.workers w).isAsleep then some (s.setWorker w .test) else none
  | .stop =>
    if s.destructor = .notCalled then some { s with stop := true, destructor := .notifyAll }
    else none
  | .notifyAll =>
    if s.destructor = .notifyAll then
      some { s with workers := wakeUp ∘ s.workers, destructor := .joining 0 }
    else none
  | .join => joinNext threads s

/-- All that a step can do, branch by branch. -/
inductive Moves (threads : ℕ) (s : State τ) : Action τ → State τ → Prop
  | refuse (task : τ) (hs : s.stop = true) :
      Moves threads s (.enqueue task) { s with refused := s.refused ++ [task] }
  | accept (task : τ) (hs : s.stop = false) :
      Moves threads s (.enqueue task) { s with
        tasks := s.tasks ++ [task]
        accepted := s.accepted ++ [task]
        notifies := s.notifies + 1 }
  | notifyNobody (hn : 0 < s.notifies) (ha : ∀ w < threads, s.workers w ≠ .asleep) :
      Moves threads s (.notifyOne none) { s with notifies := s.notifies - 1 }
  | notifyWake (w : ℕ) (hn : 0 < s.notifies) (hw : w < threads) (hpc : s.workers w = .asleep) :
      Moves threads s (.notifyOne (some w))
        { s.setWorker w .test with notifies := s.notifies - 1 }
  | take (w : ℕ) (task : τ) (tasks : List τ) (hw : w < threads) (hpc : s.workers w = .test)
      (hq : s.tasks = task :: tasks) :
      Moves threads s (.worker w) { s.setWorker w (.running task) with
        tasks := tasks
        started := s.started ++ [task] }
  | sleep (w : ℕ) (hw : w < threads) (hpc : s.workers w = .test) (hq : s.tasks = [])
      (hs : s.stop = false) : Moves threads s (.worker w) (s.setWorker w .asleep)
  | leave (w : ℕ) (hw : w < threads) (hpc : s.workers w = .test) (hq : s.tasks = [])
      (hs : s.stop = true) : Moves threads s (.worker w) (s.setWorker w .returned)
  | finish (w : ℕ) (task : τ) (hw : w < threads) (hpc : s.workers w = .running task) :
      Moves threads s (.worker w) { s.setWorker w .test with finished := s.finished ++ [task] }
  | wake (w : ℕ) (hw : w < threads) (hpc : s.workers w = .asleep) :
      Moves threads s (.wake w) (s.setWorker w .test)
  | stop (hd : s.destructor = .notCalled) :
      Moves threads s .stop { s with stop := true, destructor := .notifyAll }
  | notifyAll (hd : s.destructor = .notifyAll) :
      Moves threads s .notifyAll
        { s with workers := wakeUp ∘ s.workers, destructor := .joining 0 }
  | join (i : ℕ) (hd : s.destructor = .joining i) (hi : i < threads)
      (hpc : s.workers i = .returned) :
      Moves threads s .join { s with destructor := .joining (i + 1) }

variable {threads : ℕ} {s t : State τ} {a : Action τ} {w : ℕ}

theorem moves_workerStep (hw : w < threads) (h : workerStep s w = some t) :
    Moves threads s (.worker w) t := by
  unfold workerStep at h
  split at h
  next hpc =>
    obtain rfl := Option.some.inj h
    unfold takeTask
    split
    next task tasks hq => exact .take w task tasks hw hpc hq
    next hq =>
      cases hs : s.stop
      · exact .sleep w hw hpc hq hs
      · exact .leave w hw hpc hq hs
  next task hpc =>
    obtain rfl := Option.some.inj h
    exact .finish w task hw hpc
  all_goals cases h

theorem moves_notifyOne {woken : Option ℕ} (h : notifyOne threads s woken = some t) :
    Moves threads s (.notifyOne woken) t := by
  unfold notifyOne at h
  by_cases hn : s.notifies = 0
  · rw [if_pos hn] at h
    cases h
  rw [if_neg hn] at h
  split at h
  next w =>
    obtain ⟨⟨hw, hpc⟩, ⟨⟩⟩ := Option.ite_none_right_eq_some.mp h
    exact .notifyWake w (Nat.pos_of_ne_zero hn) hw (WorkerPc.isAsleep_iff.mp hpc)
  next =>
    obtain ⟨ha, ⟨⟩⟩ := Option.ite_none_right_eq_some.mp h
    exact .notifyNobody (Nat.pos_of_ne_zero hn) fun w hw hpc =>
      ha w hw (WorkerPc.isAsleep_iff.mpr hpc)

theorem moves_joinNext (h : joinNext threads s = some t) : Moves threads s .join t := by
  unfold joinNext at h
  split at h
  next i hd =>
    obtain ⟨⟨hi, hpc⟩, ⟨⟩⟩ := Option.ite_none_right_eq_some.mp h
    exact .join i hd hi (WorkerPc.hasReturned_iff.mp hpc)
  all_goals cases h

theorem moves_of_step (h : step threads s a = some t) : Moves threads s a t := by
  cases a with
  | enqueue task =>
    obtain ⟨-, ⟨⟩⟩ := Option.ite_none_left_eq_some.mp h
    unfold enqueue
    by_cases hs : s.stop = true
    · rw [if_pos hs]
      exact .refuse task hs
    · rw [if_neg hs]
      exact .accept task (Bool.eq_false_of_not_eq_true hs)
  | notifyOne woken => exact moves_notifyOne h
  | worker w =>
    obtain ⟨hw, h⟩ := Option.ite_none_right_eq_some.mp h
    exact moves_workerStep hw h
  | wake w =>
    obtain ⟨⟨hw, hpc⟩, ⟨⟩⟩ := Option.ite_none_right_eq_some.mp h
    exact .wake w hw (WorkerPc.isAsleep_iff.mp hpc)
  | stop =>
    obtain ⟨hd, ⟨⟩⟩ := Option.ite_none_right_eq_some.mp h
    exact .stop hd
  | notifyAll =>
    obtain ⟨hd, ⟨⟩⟩ := Option.ite_none_right_eq_some.mp h
    exact .notifyAll hd
  | join => exact moves_joinNext h

theorem exists_notifyOne (threads : ℕ) (hn : 0 < s.notifies) :
    ∃ woken t, step threads s (.notifyOne woken) = some t ∧ t.notifies = s.notifies - 1 ∧
      t.tasks = s.tasks ∧ t.stop = s.stop := by
  by_cases ha : ∃ w < threads, s.workers w = .asleep
  · obtain ⟨w, hw, hpc⟩ := ha
    refine ⟨some w, { s.setWorker w .test with notifies := s.notifies - 1 }, ?_, rfl, rfl, rfl⟩
    exact (if_neg hn.ne').trans (if_pos ⟨hw, WorkerPc.isAsleep_iff.mpr hpc⟩)
  · refine ⟨none, { s with notifies := s.notifies - 1 }, ?_, rfl, rfl, rfl⟩
    exact (if_neg hn.ne').trans (if_pos fun w hw hpc => ha ⟨w, hw, WorkerPc.isAsleep_iff.mp hpc⟩)

end PersistTree.ThreadPool
