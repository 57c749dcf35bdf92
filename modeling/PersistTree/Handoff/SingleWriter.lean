import PersistTree.Handoff.Model

/-!
# One `CallThread` at a time

Nothing but `is_running_` keeps two `CallThread` tasks apart, and the flag is set by a task when it
starts, not by `Flush` when it enqueues the task. As long as `Flush` never enqueues a task while an
earlier one is pending or unfinished, the lists are flushed one by one in the order in which they
were made; with two tasks in the pool both of them may enter `Run`, on the same NVM list or on an
object that holds no list any more.
-/
namespace PersistTree.Handoff

open Transition

/-- A worker that executes a `CallThread`. -/
def Alive : WorkerPc → Prop
  | .idle | .joined => False
  | _ => True

/-- A worker between its section under `q_mutex_` and its `Run`. -/
def Holding : WorkerPc → Prop
  | .sizeTest | .notify | .run => True
  | _ => False

theorem Holding.alive {pc : WorkerPc} (h : Holding pc) : Alive pc := by
  cases pc <;> trivial

/-- `Flush` enqueues a `CallThread` only when no earlier one is pending or unfinished. -/
def EnqueueAlone (p : Params) (s : State) (a : Action) : Prop :=
  a = .producer → s.producer = .enqueue → s.pending = 0 ∧ ¬SomeWorker p s.workers Alive

/-- Every `Run` is on the object that its iteration has just popped, and on no object twice. -/
structure FreshRuns (s : State) : Prop where
  popped : ∀ r ∈ s.runs, r.popped = some r.flush ∧ r.flush.skiplist ≠ none
  once : (s.runs.map RunRecord.flush).Nodup

/-- No two workers are inside `Run`. -/
def OneWriter (p : Params) (s : State) : Prop :=
  ∀ v < p.workers, ∀ w < p.workers,
    (s.workers v).pc = .inRun → (s.workers w).pc = .inRun → v = w

instance : DecidablePred Alive := fun pc => by cases pc <;> unfold Alive <;> infer_instance

instance (p : Params) (s : State) (a : Action) : Decidable (EnqueueAlone p s a) := by
  unfold EnqueueAlone SomeWorker
  infer_instance

variable {p : Params} {s t : State} {a : Action} {v w pending next made : ℕ} {x : Worker}
  {queue : List FlushNVM} {skiplist : Option ℕ} {runs : List RunRecord} {fault : Option Fault}
  {pc : ProducerPc} {workers : ℕ → Worker}

/-- There is at most one task, in the pool or on a worker. -/
structure Single (p : Params) (pending : ℕ) (workers : ℕ → Worker) : Prop where
  le_one : pending ≤ 1
  apart : 0 < pending → ¬SomeWorker p workers Alive
  unique : ∀ v < p.workers, ∀ w < p.workers,
    Alive (workers v).pc → Alive (workers w).pc → v = w

theorem Single.setWorker (h : Single p pending workers)
    (hx : Alive x.pc → Alive (workers w).pc) :
    Single p pending (Function.update workers w x) := by
  have hold : ∀ v, Alive (Function.update workers w x v).pc → Alive (workers v).pc := by
    intro v hv
    by_cases he : v = w
    · subst v
      rw [Function.update_self] at hv
      exact hx hv
    · rwa [Function.update_of_ne he] at hv
  constructor
  · exact h.le_one
  · intro hpos ⟨v, hv, ha⟩
    exact h.apart hpos ⟨v, hv, hold v ha⟩
  · intro v hv w hw ha hb
    exact h.unique v hv w hw (hold v ha) (hold w hb)

theorem Single.take (h : Single p pending workers) (hn : 0 < pending) (x : Worker) :
    Single p (pending - 1) (Function.update workers w x) := by
  have hle := h.le_one
  have hone : ∀ v < p.workers, Alive (Function.update workers w x v).pc → v = w := by
    intro v hv ha
    by_contra he
    rw [Function.update_of_ne he] at ha
    exact h.apart hn ⟨v, hv, ha⟩
  constructor
  · omega
  · intro hpos
    omega
  · intro v hv u hu ha hb
    exact (hone v hv ha).trans (hone u hu hb).symm

theorem Single.moves (h : Single p s.pending s.workers) (halone : EnqueueAlone p s a)
    (hm : Moves p s a t) : Single p t.pending t.workers := by
  cases hm with
  | enqueue hp =>
    obtain ⟨hn, hnone⟩ := halone rfl hp
    constructor
    · show s.pending + 1 ≤ 1
      omega
    · intro _
      exact hnone
    · exact h.unique
  | take w hw hpc hn => exact h.take hn _
  | exit w hw hpc hs hn => exact h.setWorker nofun
  | start w hw hpc | testLeave w hw hpc | testStay w hw hpc | loopLeave w hw hpc
  | loopStay w hw hpc | popNone w hw hpc | pop w f queue hw hpc | sizeNotify w hw hpc
  | sizeSkip w hw hpc | notify w hw hpc | notifyWake w hw hpc | run w n hw hpc | endRun w hw hpc
  | clear w hw hpc =>
    exact h.setWorker fun _ => by rw [hpc]; trivial
  | _ => exact h

theorem init_single (p : Params) : Single p init.pending init.workers :=
  ⟨Nat.zero_le _, fun h => absurd h (lt_irrefl 0), nofun⟩

theorem Single.oneWriter (h : Single p s.pending s.workers) : OneWriter p s := by
  intro v hv w hw hrun hrun'
  apply h.unique v hv w hw
  · rw [hrun]
    trivial
  · rw [hrun']
    trivial

/-- The object that holds list number `n`, and the record of its proper `Run`. -/
def holding (n : ℕ) : FlushNVM := ⟨some n⟩

def properRun (n : ℕ) : RunRecord := ⟨holding n, some (holding n)⟩

/-- The lists go through the system in the order of their numbers: the first ones have been run, at
most one is held by a worker, the queue starts with number `next`, and the active list is last. -/
structure InOrder (p : Params) (queue : List FlushNVM) (skiplist : Option ℕ) (made : ℕ)
    (runs : List RunRecord) (fault : Option Fault) (pc : ProducerPc) (workers : ℕ → Worker)
    (next : ℕ) : Prop where
  runs_eq : runs = (List.range runs.length).map properRun
  queue_eq : queue = (List.range' next queue.length).map holding
  active : skiplist = some (next + queue.length) ∧ made = next + queue.length + 1 ∨
    skiplist = none ∧ made = next + queue.length ∧ pc ≠ .idle ∧ pc ≠ .push
  held : fault = none → (¬SomeWorker p workers Holding ∧ next = runs.length) ∨
    ∃ w < p.workers, Holding (workers w).pc ∧ (workers w).flush = holding runs.length ∧
      (workers w).popped = some (holding runs.length) ∧ next = runs.length + 1
  locked : ∀ w < p.workers, (workers w).pc = .lockPop → queue ≠ []

theorem InOrder.setWorker (h : InOrder p queue skiplist made runs fault pc workers next)
    (hx : Holding x.pc ↔ Holding (workers w).pc)
    (hsame : Holding x.pc → x.flush = (workers w).flush ∧ x.popped = (workers w).popped)
    (hlock : x.pc = .lockPop → queue ≠ []) :
    InOrder p queue skiplist made runs fault pc (Function.update workers w x) next where
  runs_eq := h.runs_eq
  queue_eq := h.queue_eq
  active := h.active
  held := by
    intro hf
    rcases h.held hf with ⟨hnone, hnext⟩ | ⟨v, hv, hold, hflush, hpopped, hnext⟩
    · left
      constructor
      · rintro ⟨v, hv, hold⟩
        by_cases he : v = w
        · subst v
          rw [Function.update_self] at hold
          exact hnone ⟨w, hv, hx.mp hold⟩
        · rw [Function.update_of_ne he] at hold
          exact hnone ⟨v, hv, hold⟩
      · exact hnext
    · right
      use v, hv
      by_cases he : v = w
      · subst v
        have hh := hx.mpr hold
        rw [Function.update_self]
        exact ⟨hh, (hsame hh).1.trans hflush, (hsame hh).2.trans hpopped, hnext⟩
      · rw [Function.update_of_ne he]
        exact ⟨hold, hflush, hpopped, hnext⟩
  locked := by
    intro v hv hpc
    by_cases he : v = w
    · subst v
      rw [Function.update_self] at hpc
      exact hlock hpc
    · rw [Function.update_of_ne he] at hpc
      exact h.locked v hv hpc

theorem InOrder.goTo (h : InOrder p queue skiplist made runs fault pc workers next)
    {pc' : ProducerPc} (hpc : pc' = .idle ∨ pc' = .push → pc = .idle ∨ pc = .push) :
    InOrder p queue skiplist made runs fault pc' workers next where
  runs_eq := h.runs_eq
  queue_eq := h.queue_eq
  active := by
    rcases h.active with hactive | ⟨hs, hm, hidle, hpush⟩
    · exact Or.inl hactive
    · right
      refine ⟨hs, hm, ?_, ?_⟩
      · intro he
        exact (hpc (Or.inl he)).elim hidle hpush
      · intro he
        exact (hpc (Or.inr he)).elim hidle hpush
  held := h.held
  locked := h.locked

theorem InOrder.push (h : InOrder p queue skiplist made runs fault .push workers next) :
    InOrder p (queue ++ [⟨skiplist⟩]) none made runs fault .blockTest workers next := by
  obtain ⟨hs, hm⟩ := h.active.resolve_right fun hpc => hpc.2.2.2 rfl
  have hlen : (queue ++ [FlushNVM.mk skiplist]).length = queue.length + 1 := List.length_append
  constructor
  · exact h.runs_eq
  · rw [hlen, List.range'_concat, List.map_append, ← h.queue_eq, hs, Nat.one_mul]
    rfl
  · right
    refine ⟨rfl, ?_, nofun, nofun⟩
    rw [hm, hlen, Nat.add_assoc]
  · exact h.held
  · intro w hw hpc
    simp

theorem InOrder.realloc (h : InOrder p queue none made runs fault pc workers next) :
    InOrder p queue (some made) (made + 1) runs fault .idle workers next := by
  rcases h.active with ⟨hs, -⟩ | ⟨-, hm, -⟩
  · cases hs
  · constructor
    · exact h.runs_eq
    · exact h.queue_eq
    · left
      rw [hm]
      exact ⟨rfl, rfl⟩
    · exact h.held
    · exact h.locked

theorem InOrder.pop {f : FlushNVM} (hs : Single p pending workers)
    (h : InOrder p (f :: queue) skiplist made runs none pc workers next) (hw : w < p.workers)
    (hpc : (workers w).pc = .lockPop) :
    InOrder p queue skiplist made runs none pc
      (Function.update workers w ⟨.sizeTest, f, some f⟩) (next + 1) := by
  have halive : Alive (workers w).pc := by rw [hpc]; trivial
  have hnone : ¬SomeWorker p workers Holding := by
    rintro ⟨v, hv, hold⟩
    obtain rfl : v = w := hs.unique v hv w hw hold.alive halive
    rw [hpc] at hold
    exact hold
  have hnext : next = runs.length := by
    rcases h.held rfl with ⟨-, hnext⟩ | ⟨v, hv, hold, -⟩
    · exact hnext
    · exact absurd ⟨v, hv, hold⟩ hnone
  have hqueue := h.queue_eq
  rw [List.length_cons, List.range'_succ, List.map_cons, List.cons.injEq] at hqueue
  obtain ⟨hf, hrest⟩ := hqueue
  constructor
  · exact h.runs_eq
  · exact hrest
  · have hactive := h.active
    rw [List.length_cons, ← Nat.add_assoc, Nat.add_right_comm] at hactive
    exact hactive
  · intro _
    right
    use w, hw
    rw [Function.update_self, ← hnext, hf]
    exact ⟨trivial, rfl, rfl, rfl⟩
  · intro v hv hlock
    by_cases he : v = w
    · subst v
      rw [Function.update_self] at hlock
      cases hlock
    · rw [Function.update_of_ne he] at hlock
      exact absurd (hs.unique v hv w hw (by rw [hlock]; trivial) halive) he

theorem InOrder.record (hs : Single p pending workers)
    (h : InOrder p queue skiplist made runs none pc workers next) (hw : w < p.workers)
    (hpc : (workers w).pc = .run) :
    RunRecord.mk (workers w).flush (workers w).popped = properRun runs.length ∧
      next = runs.length + 1 := by
  have hold : Holding (workers w).pc := by rw [hpc]; trivial
  rcases h.held rfl with ⟨hnone, -⟩ | ⟨v, hv, hold', hflush, hpopped, hnext⟩
  · exact absurd ⟨w, hw, hold⟩ hnone
  · obtain rfl : v = w := hs.unique v hv w hw hold'.alive hold.alive
    rw [hflush, hpopped]
    exact ⟨rfl, hnext⟩

theorem InOrder.snoc (h : InOrder p queue skiplist made runs fault pc workers next) :
    runs ++ [properRun runs.length] =
      (List.range (runs ++ [properRun runs.length]).length).map properRun := by
  rw [List.length_append, List.length_singleton, List.range_succ, List.map_append, ← h.runs_eq]
  rfl

theorem InOrder.runFault (hs : Single p pending workers)
    (h : InOrder p queue skiplist made runs none pc workers next) (hw : w < p.workers)
    (hpc : (workers w).pc = .run) (e : Fault) :
    InOrder p queue skiplist made (runs ++ [⟨(workers w).flush, (workers w).popped⟩]) (some e) pc
      workers next := by
  rw [(h.record hs hw hpc).1]
  exact ⟨h.snoc, h.queue_eq, h.active, nofun, h.locked⟩

theorem InOrder.run (hs : Single p pending workers)
    (h : InOrder p queue skiplist made runs none pc workers next) (hw : w < p.workers)
    (hpc : (workers w).pc = .run) (hx : x.pc = .inRun) :
    InOrder p queue skiplist made (runs ++ [⟨(workers w).flush, (workers w).popped⟩]) none pc
      (Function.update workers w x) next := by
  obtain ⟨hrecord, hnext⟩ := h.record hs hw hpc
  have halive : Alive (workers w).pc := by rw [hpc]; trivial
  rw [hrecord]
  constructor
  · exact h.snoc
  · exact h.queue_eq
  · exact h.active
  · intro _
    left
    constructor
    · rintro ⟨v, hv, hold⟩
      by_cases he : v = w
      · subst v
        rw [Function.update_self, hx] at hold
        exact hold
      · rw [Function.update_of_ne he] at hold
        exact he (hs.unique v hv w hw hold.alive halive)
    · rw [hnext, List.length_append, List.length_singleton]
  · intro v hv hlock
    by_cases he : v = w
    · subst v
      rw [Function.update_self, hx] at hlock
      cases hlock
    · rw [Function.update_of_ne he] at hlock
      exact h.locked v hv hlock

/-- The two invariants together, as one predicate on states. -/
def Sequential (p : Params) (s : State) : Prop :=
  Single p s.pending s.workers ∧
    ∃ next, InOrder p s.queue s.skiplist s.made s.runs s.fault s.producer s.workers next

theorem InOrder.moves (hs : Single p s.pending s.workers)
    (h : InOrder p s.queue s.skiplist s.made s.runs s.fault s.producer s.workers next)
    (hf : s.fault = none) (hm : Moves p s a t) :
    ∃ next, InOrder p t.queue t.skiplist t.made t.runs t.fault t.producer t.workers next := by
  rw [hf] at h
  cases hm with
  | insertNull key hp hl | reallocKept a n hp hl | pushFull hp =>
    exact ⟨next, h.runs_eq, h.queue_eq, h.active, nofun, h.locked⟩
  | insert key n pc hp hl hpc | flush hp => exact ⟨next, hf ▸ h.goTo fun _ => Or.inl hp⟩
  | realloc a hp hl =>
    rw [hl] at h
    exact ⟨next, hf ▸ h.realloc⟩
  | push hp hq =>
    rw [hp] at h
    exact ⟨next, hf ▸ h.push⟩
  | finish hp | block hp hb | pass hp hb | waited hp hq | sleep hp hq | loadTrue hp hr
  | loadFalse hp hr | enqueue hp | wake hp =>
    exact ⟨next, hf ▸ h.goTo (by rintro (h | h) <;> cases h)⟩
  | take w hw hpc hn | exit w hw hpc hs hn | start w hw hpc | testLeave w hw hpc hq
  | testStay w hw hpc hq | loopLeave w hw hpc hq | endRun w hw hpc | clear w hw hpc =>
    exact ⟨next, hf ▸ h.setWorker (by rw [hpc]; exact Iff.rfl) nofun nofun⟩
  | loopStay w hw hpc hq =>
    exact ⟨next, hf ▸ h.setWorker (by rw [hpc]; exact Iff.rfl) nofun fun _ => hq⟩
  | popNone w hw hpc hq => exact absurd hq (h.locked w hw hpc)
  | pop w f queue hw hpc hq =>
    rw [hq] at h
    exact ⟨next + 1, hf ▸ h.pop hs hw hpc⟩
  | sizeNotify w hw hpc hq | sizeSkip w hw hpc hq | notify w hw hpc hp =>
    exact ⟨next, hf ▸ h.setWorker (by rw [hpc]; exact Iff.rfl) (fun _ => ⟨rfl, rfl⟩) nofun⟩
  | notifyWake w hw hpc hp =>
    have hwait : InOrder p s.queue s.skiplist s.made s.runs none .wait s.workers next :=
      h.goTo (by rintro (h | h) <;> cases h)
    exact ⟨next, hf ▸ hwait.setWorker (by rw [hpc]; exact Iff.rfl) (fun _ => ⟨rfl, rfl⟩) nofun⟩
  | runFault w e hw hpc => exact ⟨next, h.runFault hs hw hpc e⟩
  | run w n hw hpc => exact ⟨next, hf ▸ h.run hs hw hpc rfl⟩

theorem Sequential.preserved (h : Sequential p s) (halone : EnqueueAlone p s a)
    (hs : step p s a = some t) : Sequential p t := by
  obtain ⟨hsingle, next, horder⟩ := h
  have hm := moves_of_step hs
  exact ⟨hsingle.moves halone hm, horder.moves hsingle (fault_of_step hs) hm⟩

theorem init_sequential (p : Params) : Sequential p init :=
  ⟨init_single p, 0, rfl, rfl, Or.inl ⟨rfl, rfl⟩, fun _ => Or.inl ⟨fun ⟨_, _, h⟩ => h, rfl⟩, nofun⟩

theorem Sequential.freshRuns (h : Sequential p s) : FreshRuns s := by
  obtain ⟨-, next, horder⟩ := h
  have hruns := horder.runs_eq
  have hflush : s.runs.map RunRecord.flush = (List.range s.runs.length).map holding := by
    rw [congrArg (List.map RunRecord.flush) hruns, List.map_map]
    rfl
  constructor
  · intro r hr
    rw [hruns] at hr
    obtain ⟨n, -, rfl⟩ := List.mem_map.mp hr
    exact ⟨rfl, nofun⟩
  · rw [hflush]
    apply List.nodup_range.map
    intro m n he
    cases he
    rfl

theorem Sequential.along {as : List Action} (h : Guarded (step p) init as (EnqueueAlone p)) :
    Along (step p) init as (Sequential p) :=
  h.along (init_sequential p) fun _ _ _ hs halone hstep => hs.preserved halone hstep

/-- As long as `Flush` enqueues every `CallThread` alone, each `Run` is on the object just popped,
and no list is run twice. -/
theorem freshRuns_of_enqueueAlone (p : Params) (as : List Action)
    (h : Guarded (step p) init as (EnqueueAlone p)) : Along (step p) init as FreshRuns :=
  (Sequential.along h).mono fun _ hs => hs.freshRuns

/-- As long as `Flush` enqueues every `CallThread` alone, no two workers are inside `Run`. -/
theorem oneWriter_of_enqueueAlone (p : Params) (as : List Action)
    (h : Guarded (step p) init as (EnqueueAlone p)) : Along (step p) init as (OneWriter p) :=
  (Sequential.along h).mono fun _ hs => hs.1.oneWriter

/-- Three keys are queued one by one; the first task flushes two of them and ends, a second task
flushes the last one on the other worker. -/
def takeTurns : List Action :=
  List.flatten [[.insert [97]], List.replicate 5 .producer, [.take 0, .worker 0, .insert [98]],
    List.replicate 4 .producer, List.replicate 15 (.worker 0), [.insert [99]],
    List.replicate 5 .producer, [.take 1], List.replicate 7 (.worker 1)]

theorem takeTurns_alone : Guarded (step ⟨2, 1, 2⟩) init takeTurns (EnqueueAlone ⟨2, 1, 2⟩) :=
  Guarded.of_check (by decide +kernel)

theorem freshRuns_of_enqueueAlone_turns : Along (step ⟨2, 1, 2⟩) init takeTurns FreshRuns :=
  freshRuns_of_enqueueAlone ⟨2, 1, 2⟩ takeTurns takeTurns_alone

theorem oneWriter_of_enqueueAlone_turns :
    Along (step ⟨2, 1, 2⟩) init takeTurns (OneWriter ⟨2, 1, 2⟩) :=
  oneWriter_of_enqueueAlone ⟨2, 1, 2⟩ takeTurns takeTurns_alone

/-- Two lists are queued before either of their two tasks starts, and both tasks get as far as the
section under `q_mutex_`. -/
def enqueueTwice : List Action :=
  List.flatten [[.insert [97]], List.replicate 5 .producer, [.insert [98]],
    List.replicate 5 .producer, [.take 0, .take 1], List.replicate 3 (.worker 0),
    List.replicate 3 (.worker 1)]

/-- The first task flushes one list and pops the other; the second one runs an object without a
list. -/
theorem freshRuns_fails :
    ∃ s, run (step ⟨2, 1, 2⟩) init
        (enqueueTwice ++ List.replicate 7 (.worker 0) ++ List.replicate 4 (.worker 1)) = some s ∧
      ¬FreshRuns s := by
  have hrun : (run (step ⟨2, 1, 2⟩) init (enqueueTwice ++ List.replicate 7 (.worker 0) ++
      List.replicate 4 (.worker 1))).map State.runs =
        some [⟨⟨some 0⟩, some ⟨some 0⟩⟩, ⟨⟨none⟩, none⟩] := by
    decide
  obtain ⟨s, hs, he⟩ := Option.map_eq_some_iff.mp hrun
  refine ⟨s, hs, ?_⟩
  intro h
  have hnull := (h.popped ⟨⟨none⟩, none⟩ (by rw [he]; simp)).2
  exact hnull rfl

/-- Both tasks pop a list and run it at the same time. -/
theorem oneWriter_fails :
    ∃ s, run (step ⟨2, 1, 2⟩) init
        (enqueueTwice ++ List.replicate 4 (.worker 0) ++ List.replicate 4 (.worker 1)) = some s ∧
      ¬OneWriter ⟨2, 1, 2⟩ s := by
  have hrun : (run (step ⟨2, 1, 2⟩) init (enqueueTwice ++ List.replicate 4 (.worker 0) ++
      List.replicate 4 (.worker 1))).map (fun s => ((s.workers 0).pc, (s.workers 1).pc)) =
        some (.inRun, .inRun) := by
    decide
  obtain ⟨s, hs, he⟩ := Option.map_eq_some_iff.mp hrun
  simp only [Prod.mk.injEq] at he
  exact ⟨s, hs, fun h => absurd (h 0 (by decide) 1 (by decide) he.1 he.2) (by decide)⟩

end PersistTree.Handoff
