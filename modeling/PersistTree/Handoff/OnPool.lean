import PersistTree.Handoff.SingleWriter
import PersistTree.ThreadPool.Tasks

/-!
# The hand-off on the thread pool

The hand-off counts the tasks of its pool and lets any idle worker take one. Here `Flush`, the
`CallThread` tasks and the end of the producer run on the pool itself, with its queue, its sleeping
workers and its notifications. What the hand-off can do on the pool is exactly what it can do with
the counter, action by action.
-/
namespace PersistTree.Handoff

open Transition

/-- The hand-off and its pool. The counter and the `stop` flag of the hand-off are not used, and
`trace` records what it does. -/
structure PooledState where
  core : State
  pool : ThreadPool.State Unit
  trace : List Action

inductive PooledAction where
  /-- A step of the producer or of a `CallThread`. -/
  | core (a : Action)
  /-- A step of the pool on its own: of a worker without a task, a notification, a wake-up, a
  `join`. -/
  | pool (a : ThreadPool.Action Unit)
  deriving DecidableEq, Repr

def pooledInit : PooledState := ⟨init, ThreadPool.init, []⟩

namespace PooledState

/-- The step `a` of the hand-off, after which it and the pool are as given. -/
def act (s : PooledState) (a : Action) (core : State) (pool : ThreadPool.State Unit) :
    PooledState :=
  ⟨core, pool, s.trace ++ [a]⟩

end PooledState

/-- The hand-off as it counts: the queue of the pool is its counter. -/
def withPool (core : State) (pool : ThreadPool.State Unit) : State :=
  { core with pending := pool.tasks.length, stop := pool.stop }

def PooledState.view (s : PooledState) : State := withPool s.core s.pool

/-- A step of `Flush`: `enqueue` puts a task into the pool, and throws once the pool is stopped. -/
def pooledProducer (p : Params) (s : PooledState) : Option PooledState :=
  if s.core.producer = .enqueue then
    if s.pool.stop then some (s.act .producer (s.core.raise .assertion) s.pool)
    else (ThreadPool.step p.workers s.pool (.enqueue ())).map fun pool =>
      s.act .producer (s.core.goTo .realloc) pool
  else (producerStep p s.core).map fun core => s.act .producer core s.pool

/-- A step of the `CallThread` on worker `w`. When it returns, the task of the pool is finished. -/
def pooledWorker (p : Params) (s : PooledState) (w : ℕ) : Option PooledState :=
  (workerStep p s.core w).bind fun core =>
    if (core.workers w).pc = .idle then
      (ThreadPool.step p.workers s.pool (.worker w)).map fun pool => s.act (.worker w) core pool
    else some (s.act (.worker w) core s.pool)

/-- The section of a worker of the pool that has no task: it takes a `CallThread`, leaves, or goes
to sleep. -/
def pooledSection (p : Params) (s : PooledState) (w : ℕ) : Option PooledState :=
  if s.pool.workers w = .test then
    (ThreadPool.step p.workers s.pool (.worker w)).map fun pool =>
      match pool.workers w with
      | .running () => s.act (.take w) (s.core.setWorker w ⟨.start, ⟨none⟩, none⟩) pool
      | .returned => s.act (.exit w) (s.core.setPc w .joined) pool
      | .test | .asleep => { s with pool := pool }
  else none

def pooledCore (p : Params) (s : PooledState) : Action → Option PooledState
  | .insert key =>
    if s.core.producer = .idle then some (s.act (.insert key) (insertKey p s.core key) s.pool)
    else none
  | .flush =>
    if s.core.producer = .idle then some (s.act .flush (s.core.goTo .push) s.pool) else none
  | .realloc =>
    if s.core.producer = .idle then some (s.act .realloc (reallocList s.core) s.pool) else none
  | .finish =>
    if s.core.producer = .idle then
      (ThreadPool.step p.workers s.pool .stop).map fun pool =>
        s.act .finish (s.core.goTo .done) pool
    else none
  | .producer => pooledProducer p s
  | .wake =>
    if s.core.producer = .asleep then some (s.act .wake (s.core.goTo .wait) s.pool) else none
  | .worker w => if w < p.workers then pooledWorker p s w else none
  | .take _ | .exit _ => none

def pooledPool (p : Params) (s : PooledState) : ThreadPool.Action Unit → Option PooledState
  | .worker w => pooledSection p s w
  | .enqueue _ | .stop => none
  | a => (ThreadPool.step p.workers s.pool a).map fun pool => { s with pool := pool }

def Action.ofProducer : Action → Bool
  | .take _ | .worker _ | .exit _ => false
  | _ => true

/-- One step of the hand-off on its pool. The producer returns from `enqueue` after its
`notify_one`, and a fault is the end of the process. -/
def pooledStep (p : Params) (s : PooledState) (a : PooledAction) : Option PooledState :=
  if s.core.fault.isSome then none else
  match a with
  | .core a => if a.ofProducer ∧ 0 < s.pool.notifies then none else pooledCore p s a
  | .pool a => pooledPool p s a

/-- A worker of the pool and its place in `CallThread`. -/
def Matches : WorkerPc → ThreadPool.WorkerPc Unit → Prop
  | .idle, .test | .idle, .asleep | .joined, .returned => True
  | .idle, _ | .joined, _ => False
  | _, .running () => True
  | _, _ => False

theorem matches_iff_of_alive {pc : WorkerPc} {pc' : ThreadPool.WorkerPc Unit} (h : Alive pc) :
    Matches pc pc' ↔ pc' = .running () := by
  cases pc <;> cases pc' <;> simp_all [Alive, Matches]

/-- What the hand-off and its pool agree on. -/
structure Coupled (p : Params) (s : PooledState) : Prop where
  workers : ∀ w < p.workers, Matches (s.core.workers w).pc (s.pool.workers w)
  stop : s.pool.stop = true ↔ s.core.producer = .done
  destructor : s.pool.stop = true ↔ s.pool.destructor ≠ .notCalled

variable {p : Params} {s t : PooledState} {core : State} {pool pool' : ThreadPool.State Unit}
  {a : Action} {w : ℕ}

theorem insertKey_withPool (key : Key) :
    insertKey p (withPool core pool) key = withPool (insertKey p core key) pool := by
  unfold insertKey withPool
  dsimp only
  split
  · rfl
  · split_ifs <;> rfl

theorem reallocList_withPool :
    reallocList (withPool core pool) = withPool (reallocList core) pool := by
  unfold reallocList withPool
  dsimp only
  split <;> rfl

theorem pushList_withPool : pushList (withPool core pool) = withPool (pushList core) pool := by
  unfold pushList withPool
  dsimp only
  split_ifs <;> rfl

theorem producerStep_withPool (hp : core.producer ≠ .enqueue) :
    producerStep p (withPool core pool) = (producerStep p core).map fun c => withPool c pool := by
  have hsame : (withPool core pool).producer = core.producer := rfl
  unfold producerStep
  rw [hsame]
  cases hpc : core.producer with
  | push => exact congrArg some pushList_withPool
  | enqueue => exact absurd hpc hp
  | realloc => exact congrArg some reallocList_withPool
  | _ => rfl

theorem enqueue_withPool (hstop : pool.stop = false) :
    withPool (core.goTo .realloc) (ThreadPool.enqueue pool ()) =
      { (withPool core pool).goTo .realloc with pending := (withPool core pool).pending + 1 } := by
  rw [ThreadPool.enqueue, if_neg (by rw [hstop]; simp)]
  simp [withPool, State.goTo]

theorem popList_withPool : popList (withPool core pool) w = withPool (popList core w) pool := by
  have hsame : (withPool core pool).queue = core.queue := rfl
  unfold popList
  rw [hsame]
  cases core.queue <;> rfl

theorem withPool_ite (c : Prop) [Decidable c] (x y : State) :
    withPool (if c then x else y) pool = if c then withPool x pool else withPool y pool :=
  apply_ite (withPool · pool) c x y

theorem notifyOne_withPool :
    notifyOne (withPool core pool) w = withPool (notifyOne core w) pool := by
  unfold notifyOne
  dsimp only
  rw [withPool_ite]
  rfl

theorem enterRun_withPool : enterRun (withPool core pool) w = withPool (enterRun core w) pool := by
  have hsame : (withPool core pool).workers = core.workers := rfl
  unfold enterRun
  dsimp only
  rw [hsame]
  cases (core.workers w).flush.skiplist with
  | none => rfl
  | some n =>
    dsimp only
    rw [withPool_ite, withPool_ite]
    rfl

theorem workerStep_withPool :
    workerStep p (withPool core pool) w = (workerStep p core w).map fun c => withPool c pool := by
  have hsame : (withPool core pool).workers = core.workers := rfl
  unfold workerStep
  rw [hsame]
  cases hpc : (core.workers w).pc with
  | lockPop => exact congrArg some popList_withPool
  | notify => exact congrArg some notifyOne_withPool
  | run => exact congrArg some enterRun_withPool
  | _ => rfl

theorem Coupled.setWorker (h : Coupled p s) {x : Worker} (hw : w < p.workers)
    (hold : Alive (s.core.workers w).pc) (hnew : Alive x.pc) :
    ∀ v < p.workers, Matches (Function.update s.core.workers w x v).pc (s.pool.workers v) := by
  intro v hv
  by_cases he : v = w
  · subst v
    rw [Function.update_self, matches_iff_of_alive hnew]
    exact (matches_iff_of_alive hold).mp (h.workers w hw)
  · rw [Function.update_of_ne he]
    exact h.workers v hv

theorem Coupled.moves (h : Coupled p s) (hm : Moves p s.core a core)
    (henqueue : a = .producer → s.core.producer ≠ .enqueue) (hfinish : a ≠ .finish)
    (htake : ∀ w, a ≠ .take w) (hexit : ∀ w, a ≠ .exit w)
    (hidle : ∀ w, a = .worker w → (core.workers w).pc ≠ .idle) :
    Coupled p (s.act a core s.pool) := by
  have hproducer : ∀ pc : ProducerPc, s.core.producer ≠ .done → pc ≠ .done →
      (s.pool.stop = true ↔ pc = .done) := fun pc hold hnew =>
    ⟨fun hs => absurd (h.stop.mp hs) hold, fun hp => absurd hp hnew⟩
  cases hm with
  | insertNull key hp hl | reallocKept a n hp hl | pushFull hp | runFault w e hw hpc =>
    exact ⟨h.workers, h.stop, h.destructor⟩
  | insert key n pc hp hl hpc =>
    refine ⟨h.workers, hproducer pc (by rw [hp]; simp) ?_, h.destructor⟩
    rcases hpc with rfl | rfl <;> simp
  | flush hp | push hp | block hp | pass hp | waited hp | sleep hp | loadTrue hp
  | loadFalse hp | wake hp =>
    exact ⟨h.workers, hproducer _ (by rw [hp]; simp) (by simp [PooledState.act, State.goTo]),
      h.destructor⟩
  | realloc a hp hl =>
    refine ⟨h.workers, hproducer _ ?_ (by simp [PooledState.act]), h.destructor⟩
    rcases hp with ⟨-, hp⟩ | ⟨-, hp⟩ <;> rw [hp] <;> simp
  | finish hp => exact absurd rfl hfinish
  | enqueue hp => exact absurd hp (henqueue rfl)
  | take w hw hpc hn => exact absurd rfl (htake w)
  | exit w hw hpc hs hn => exact absurd rfl (hexit w)
  | testLeave w hw hpc hq | clear w hw hpc =>
    exact absurd (by simp [State.setPc, State.setWorker]) (hidle w rfl)
  | start w hw hpc | testStay w hw hpc hq | loopLeave w hw hpc hq | loopStay w hw hpc hq
  | popNone w hw hpc hq | pop w f queue hw hpc hq | sizeNotify w hw hpc hq | sizeSkip w hw hpc hq
  | notify w hw hpc hp | run w n hw hpc hf hd hk | endRun w hw hpc =>
    exact ⟨h.setWorker hw (by rw [hpc]; trivial) trivial, h.stop, h.destructor⟩
  | notifyWake w hw hpc hp =>
    exact ⟨h.setWorker hw (by rw [hpc]; trivial) trivial,
      hproducer _ (by rw [hp]; simp) (by simp [PooledState.act, State.goTo]), h.destructor⟩

theorem worker_moves (hm : Moves p s.core (.worker w) core) :
    w < p.workers ∧ Alive (s.core.workers w).pc ∧
      (∀ v ≠ w, core.workers v = s.core.workers v) ∧
      (core.producer = .done ↔ s.core.producer = .done) := by
  cases hm with
  | reallocKept a n hp hl | realloc a hp hl =>
    obtain ⟨he, -⟩ | ⟨he, -⟩ := hp <;> cases he
  | runFault w e hw hpc => exact ⟨hw, by rw [hpc]; trivial, fun _ _ => rfl, Iff.rfl⟩
  | notifyWake w hw hpc hp =>
    exact ⟨hw, by rw [hpc]; trivial, fun v hv => Function.update_of_ne hv _ _,
      by simp [State.goTo, hp]⟩
  | start w hw hpc | testLeave w hw hpc hq | testStay w hw hpc hq | loopLeave w hw hpc hq
  | loopStay w hw hpc hq | popNone w hw hpc hq | pop w f queue hw hpc hq
  | sizeNotify w hw hpc hq | sizeSkip w hw hpc hq | notify w hw hpc hp
  | run w n hw hpc hf hd hk | endRun w hw hpc | clear w hw hpc =>
    exact ⟨hw, by rw [hpc]; trivial, fun v hv => Function.update_of_ne hv _ _, Iff.rfl⟩

/-- What a step on the pool is for the hand-off with its counter. -/
def Follows (p : Params) (s t : PooledState) : Prop :=
  (t.trace = s.trace ∧ t.view = s.view) ∨
    ∃ a, t.trace = s.trace ++ [a] ∧ step p s.view a = some t.view

theorem view_fault (hf : s.core.fault = none) : ¬s.view.fault.isSome = true := by
  show ¬s.core.fault.isSome = true
  simp [hf]

theorem pooledProducer_follows (h : Coupled p s) (hf : s.core.fault = none)
    (hs : pooledProducer p s = some t) : Coupled p t ∧ Follows p s t := by
  have hview := view_fault hf
  unfold pooledProducer at hs
  by_cases hp : s.core.producer = .enqueue
  · have hstop : ¬s.pool.stop = true := fun hstop => by
      have := h.stop.mp hstop
      rw [hp] at this
      cases this
    rw [if_pos hp, if_neg hstop] at hs
    obtain ⟨pool, hpool, rfl⟩ := Option.map_eq_some_iff.mp hs
    cases ThreadPool.moves_of_step hpool with
    | refuse task hstop' => exact absurd hstop' hstop
    | accept task hstop' =>
      refine ⟨⟨h.workers, ?_, h.destructor⟩, Or.inr ⟨.producer, rfl, ?_⟩⟩
      · exact ⟨fun hs => absurd hs hstop, fun hd => by cases hd⟩
      · have hp' : s.view.producer = .enqueue := hp
        rw [step, if_neg hview]
        show producerStep p s.view = _
        rw [producerStep, hp']
        refine congrArg some ((enqueue_withPool hstop').symm.trans ?_)
        rw [ThreadPool.enqueue, if_neg hstop]
        rfl
  · rw [if_neg hp] at hs
    obtain ⟨core, hcore, rfl⟩ := Option.map_eq_some_iff.mp hs
    refine ⟨h.moves (moves_producerStep hcore) (fun _ => hp) (by simp) (by simp) (by simp)
      (by simp), Or.inr ⟨.producer, rfl, ?_⟩⟩
    rw [step, if_neg hview]
    show producerStep p (withPool s.core s.pool) = _
    rw [producerStep_withPool hp, hcore]
    rfl

theorem pooledWorker_follows (h : Coupled p s) (hf : s.core.fault = none) (hw : w < p.workers)
    (hs : pooledWorker p s w = some t) : Coupled p t ∧ Follows p s t := by
  have hview := view_fault hf
  obtain ⟨core, hcore, hs⟩ := Option.bind_eq_some_iff.mp hs
  have hm := moves_workerStep hw hcore
  have hstep : ∀ pool : ThreadPool.State Unit, pool.tasks = s.pool.tasks →
      pool.stop = s.pool.stop → step p s.view (.worker w) = some (withPool core pool) := by
    intro pool htasks hstop
    rw [step, if_neg hview]
    show (if w < p.workers then workerStep p (withPool s.core s.pool) w else none) = _
    rw [if_pos hw, workerStep_withPool, hcore, Option.map_some, withPool, withPool, htasks, hstop]
  by_cases hidle : (core.workers w).pc = .idle
  · rw [if_pos hidle] at hs
    obtain ⟨pool, hpool, rfl⟩ := Option.map_eq_some_iff.mp hs
    obtain ⟨-, halive, hothers, hdone⟩ := worker_moves hm
    have hrunning := (matches_iff_of_alive halive).mp (h.workers w hw)
    have hpool' := ThreadPool.moves_of_step hpool
    cases hpool' with
    | take w task tasks hw hpc hq | sleep w hw hpc hq hs | leave w hw hpc hq hs =>
      rw [hrunning] at hpc
      cases hpc
    | finish w task hw' hpc =>
      refine ⟨⟨?_, ?_, h.destructor⟩, Or.inr ⟨.worker w, rfl, hstep _ rfl rfl⟩⟩
      · intro v hv
        show Matches (core.workers v).pc (Function.update s.pool.workers w .test v)
        by_cases he : v = w
        · subst v
          rw [Function.update_self, hidle]
          trivial
        · rw [Function.update_of_ne he, hothers v he]
          exact h.workers v hv
      · exact h.stop.trans hdone.symm
  · rw [if_neg hidle] at hs
    obtain rfl := Option.some.inj hs
    refine ⟨h.moves hm (by simp) (by simp) (by simp) (by simp) ?_,
      Or.inr ⟨.worker w, rfl, hstep _ rfl rfl⟩⟩
    intro v hv
    cases hv
    exact hidle

theorem idle_of_matches {pc : WorkerPc} {pc' : ThreadPool.WorkerPc Unit} (h : Matches pc pc')
    (hpc : pc' = .test ∨ pc' = .asleep) : pc = .idle := by
  rcases hpc with rfl | rfl <;> cases pc <;> simp_all [Matches]

theorem Coupled.update (h : Coupled p s) {x : Worker} {pc : ThreadPool.WorkerPc Unit}
    (hx : Matches x.pc pc) : ∀ v < p.workers,
      Matches (Function.update s.core.workers w x v).pc
        (Function.update s.pool.workers w pc v) := by
  intro v hv
  by_cases he : v = w
  · subst v
    rw [Function.update_self, Function.update_self]
    exact hx
  · rw [Function.update_of_ne he, Function.update_of_ne he]
    exact h.workers v hv

theorem Coupled.update_idle (h : Coupled p s) {pc : ThreadPool.WorkerPc Unit}
    (hold : Matches (s.core.workers w).pc pc) : ∀ v < p.workers,
      Matches (s.core.workers v).pc (Function.update s.pool.workers w pc v) := by
  intro v hv
  by_cases he : v = w
  · subst v
    rw [Function.update_self]
    exact hold
  · rw [Function.update_of_ne he]
    exact h.workers v hv

theorem pooledSection_follows (h : Coupled p s) (hf : s.core.fault = none)
    (hs : pooledSection p s w = some t) : Coupled p t ∧ Follows p s t := by
  have hview := view_fault hf
  obtain ⟨htest, hs⟩ := Option.ite_none_right_eq_some.mp hs
  obtain ⟨pool, hpool, rfl⟩ := Option.map_eq_some_iff.mp hs
  cases ThreadPool.moves_of_step hpool with
  | finish w task hw hpc =>
    rw [htest] at hpc
    cases hpc
  | take w task tasks hw hpc hq =>
    have hidle := idle_of_matches (h.workers w hw) (Or.inl hpc)
    simp only [ThreadPool.State.setWorker, Function.update_self]
    refine ⟨⟨h.update trivial, h.stop, h.destructor⟩, Or.inr ⟨.take w, rfl, ?_⟩⟩
    have hpending : s.view.pending = tasks.length + 1 := congrArg List.length hq
    rw [step, if_neg hview]
    refine (if_pos ⟨hw, hidle, by rw [hpending]; omega⟩).trans ?_
    rw [hpending]
    rfl
  | sleep w hw hpc hq hstop =>
    have hidle := idle_of_matches (h.workers w hw) (Or.inl hpc)
    simp only [ThreadPool.State.setWorker, Function.update_self]
    refine ⟨⟨h.update_idle ?_, h.stop, h.destructor⟩, Or.inl ⟨rfl, rfl⟩⟩
    rw [hidle]
    trivial
  | leave w hw hpc hq hstop =>
    have hidle := idle_of_matches (h.workers w hw) (Or.inl hpc)
    simp only [ThreadPool.State.setWorker, Function.update_self]
    refine ⟨⟨h.update trivial, h.stop, h.destructor⟩, Or.inr ⟨.exit w, rfl, ?_⟩⟩
    have hpending : s.view.pending = 0 := congrArg List.length hq
    rw [step, if_neg hview]
    exact if_pos ⟨hw, hidle, hstop, hpending⟩

/-- A step of the pool on its own. -/
theorem pool_follows (h : Coupled p s) {b : ThreadPool.Action Unit}
    (hpool : ThreadPool.step p.workers s.pool b = some pool)
    (hb : ∀ task, b ≠ .enqueue task) (hb' : ∀ w, b ≠ .worker w) (hb'' : b ≠ .stop) :
    Coupled p { s with pool := pool } ∧ Follows p s { s with pool := pool } := by
  cases ThreadPool.moves_of_step hpool with
  | refuse task hs | accept task hs => exact absurd rfl (hb task)
  | take w | sleep w | leave w | finish w => exact absurd rfl (hb' w)
  | stop hd => exact absurd rfl hb''
  | notifyNobody hn ha => exact ⟨⟨h.workers, h.stop, h.destructor⟩, Or.inl ⟨rfl, rfl⟩⟩
  | notifyWake w hn hw hpc | wake w hw hpc =>
    refine ⟨⟨h.update_idle ?_, h.stop, h.destructor⟩, Or.inl ⟨rfl, rfl⟩⟩
    rw [idle_of_matches (h.workers w hw) (Or.inr hpc)]
    trivial
  | notifyAll hd =>
    refine ⟨⟨?_, h.stop, ?_⟩, Or.inl ⟨rfl, rfl⟩⟩
    · intro w hw
      have hmatch := h.workers w hw
      show Matches (s.core.workers w).pc (ThreadPool.wakeUp (s.pool.workers w))
      cases hpc : s.pool.workers w with
      | asleep =>
        rw [idle_of_matches hmatch (Or.inr hpc)]
        trivial
      | test | running task | returned =>
        rw [hpc] at hmatch
        exact hmatch
    · rw [h.destructor, hd]
      simp
  | join i hd hi hpc =>
    refine ⟨⟨h.workers, h.stop, ?_⟩, Or.inl ⟨rfl, rfl⟩⟩
    rw [h.destructor, hd]
    simp

theorem pooledPool_follows (h : Coupled p s) (hf : s.core.fault = none)
    {b : ThreadPool.Action Unit} (hs : pooledPool p s b = some t) :
    Coupled p t ∧ Follows p s t := by
  cases b with
  | worker w => exact pooledSection_follows h hf hs
  | enqueue _ | stop => cases hs
  | notifyOne _ | wake _ | notifyAll | join =>
    obtain ⟨pool, hpool, rfl⟩ := Option.map_eq_some_iff.mp hs
    exact pool_follows h hpool (by simp) (by simp) (by simp)

theorem pooledCore_follows (h : Coupled p s) (hf : s.core.fault = none)
    (hs : pooledCore p s a = some t) : Coupled p t ∧ Follows p s t := by
  have hview := view_fault hf
  cases a with
  | take _ | exit _ => cases hs
  | producer => exact pooledProducer_follows h hf hs
  | worker w =>
    obtain ⟨hw, hs⟩ := Option.ite_none_right_eq_some.mp hs
    exact pooledWorker_follows h hf hw hs
  | insert key =>
    obtain ⟨hp, ⟨⟩⟩ := Option.ite_none_right_eq_some.mp hs
    refine ⟨h.moves (moves_insertKey key hp) (by simp) (by simp) (by simp) (by simp) (by simp),
      Or.inr ⟨.insert key, rfl, ?_⟩⟩
    rw [step, if_neg hview]
    exact (if_pos hp).trans (congrArg some (insertKey_withPool key))
  | flush =>
    obtain ⟨hp, ⟨⟩⟩ := Option.ite_none_right_eq_some.mp hs
    refine ⟨h.moves (.flush hp) (by simp) (by simp) (by simp) (by simp) (by simp),
      Or.inr ⟨.flush, rfl, ?_⟩⟩
    rw [step, if_neg hview]
    exact if_pos hp
  | realloc =>
    obtain ⟨hp, ⟨⟩⟩ := Option.ite_none_right_eq_some.mp hs
    refine ⟨h.moves (moves_reallocList (Or.inl ⟨rfl, hp⟩)) (by simp) (by simp) (by simp)
      (by simp) (by simp), Or.inr ⟨.realloc, rfl, ?_⟩⟩
    rw [step, if_neg hview]
    exact (if_pos hp).trans (congrArg some reallocList_withPool)
  | wake =>
    obtain ⟨hp, ⟨⟩⟩ := Option.ite_none_right_eq_some.mp hs
    refine ⟨h.moves (.wake hp) (by simp) (by simp) (by simp) (by simp) (by simp),
      Or.inr ⟨.wake, rfl, ?_⟩⟩
    rw [step, if_neg hview]
    exact if_pos hp
  | finish =>
    obtain ⟨hp, hs⟩ := Option.ite_none_right_eq_some.mp hs
    obtain ⟨pool, hpool, rfl⟩ := Option.map_eq_some_iff.mp hs
    cases ThreadPool.moves_of_step hpool with
    | stop hd =>
      refine ⟨⟨h.workers, ?_, ?_⟩, Or.inr ⟨.finish, rfl, ?_⟩⟩
      · simp [PooledState.act, State.goTo]
      · simp [PooledState.act]
      · rw [step, if_neg hview]
        exact if_pos hp

theorem pooledStep_follows {b : PooledAction} (h : Coupled p s)
    (hs : pooledStep p s b = some t) : Coupled p t ∧ Follows p s t := by
  obtain ⟨hf, hs⟩ := Option.ite_none_left_eq_some.mp hs
  have hf := Option.not_isSome_iff_eq_none.mp hf
  cases b with
  | pool b => exact pooledPool_follows h hf hs
  | core a => exact pooledCore_follows h hf (Option.ite_none_left_eq_some.mp hs).2

theorem pooledInit_coupled (p : Params) : Coupled p pooledInit where
  workers _ _ := trivial
  stop := by simp [pooledInit, init, ThreadPool.init]
  destructor := by simp [pooledInit, ThreadPool.init]

theorem Coupled.running (h : Coupled p s) (hp : s.core.producer ≠ .done) :
    s.pool.stop = false ∧ s.pool.destructor = .notCalled := by
  have hstop : ¬s.pool.stop = true := fun hs => hp (h.stop.mp hs)
  exact ⟨Bool.eq_false_of_not_eq_true hstop, not_not.mp fun hd => hstop (h.destructor.mpr hd)⟩

theorem step_pool (hf : s.core.fault = none) (b : ThreadPool.Action Unit) :
    pooledStep p s (.pool b) = pooledPool p s b := by
  rw [pooledStep, if_neg (by simp [hf])]

theorem Coupled.exists_notified (h : Coupled p s) (hf : s.core.fault = none) :
    ∃ bs pool, run (pooledStep p) s bs = some { s with pool := pool } ∧ pool.notifies = 0 ∧
      withPool s.core pool = s.view ∧ Coupled p { s with pool := pool } := by
  induction hn : s.pool.notifies generalizing s with
  | zero => exact ⟨[], s.pool, rfl, hn, rfl, h⟩
  | succ n ih =>
    obtain ⟨woken, pool, hpool, hnotifies, htasks, hstop⟩ :=
      ThreadPool.exists_notifyOne p.workers (by omega : 0 < s.pool.notifies)
    have hs : pooledStep p s (.pool (.notifyOne woken)) = some { s with pool := pool } := by
      rw [step_pool hf]
      exact Option.map_eq_some_iff.mpr ⟨pool, hpool, rfl⟩
    obtain ⟨bs, pool', hbs, hnone, hview, hcoupled⟩ :=
      ih (pooledStep_follows h hs).1 hf (by rw [hnotifies, hn]; rfl)
    refine ⟨.pool (.notifyOne woken) :: bs, pool', by rw [run, hs]; exact hbs, hnone, ?_, hcoupled⟩
    rw [hview, PooledState.view, PooledState.view, withPool, withPool, htasks, hstop]

/-- The pool can bring worker `w`, which has no task, to its section. -/
theorem Coupled.exists_test (h : Coupled p s) (hf : s.core.fault = none)
    (hw : w < p.workers) (hidle : (s.core.workers w).pc = .idle) :
    ∃ bs, run (pooledStep p) s bs = some { s with pool := s.pool.setWorker w .test } := by
  have hmatch := h.workers w hw
  rw [hidle] at hmatch
  cases hpc : s.pool.workers w with
  | test =>
    refine ⟨[], congrArg some ?_⟩
    rw [ThreadPool.State.setWorker, ← hpc, Function.update_eq_self]
  | asleep =>
    refine ⟨[.pool (.wake w)], ?_⟩
    have hwake : ThreadPool.step p.workers s.pool (.wake w) = some (s.pool.setWorker w .test) :=
      if_pos ⟨hw, by rw [hpc]; rfl⟩
    have hs : pooledStep p s (.pool (.wake w)) =
        some { s with pool := s.pool.setWorker w .test } := by
      rw [step_pool hf]
      exact Option.map_eq_some_iff.mpr ⟨_, hwake, rfl⟩
    rw [run, hs]
    rfl
  | running task | returned =>
    rw [hpc] at hmatch
    exact hmatch.elim

theorem run_section (hf : s.core.fault = none) {bs : List PooledAction}
    (hbs : run (pooledStep p) s bs = some { s with pool := s.pool.setWorker w .test })
    (hs : pooledSection p { s with pool := s.pool.setWorker w .test } w = some t) :
    run (pooledStep p) s (bs ++ [.pool (.worker w)]) = some t := by
  rw [run_concat]
  exact ⟨_, hbs, (if_neg (by simp [hf])).trans hs⟩

theorem pooledSection_test (hw : w < p.workers) :
    pooledSection p { s with pool := s.pool.setWorker w .test } w =
      some (match s.pool.tasks with
        | task :: tasks => s.act (.take w) (s.core.setWorker w ⟨.start, ⟨none⟩, none⟩)
            { s.pool.setWorker w (.running task) with
              tasks := tasks
              started := s.pool.started ++ [task] }
        | [] =>
          if s.pool.stop then
            s.act (.exit w) (s.core.setPc w .joined) (s.pool.setWorker w .returned)
          else { s with pool := s.pool.setWorker w .asleep }) := by
  have htest : (s.pool.setWorker w .test).workers w = .test := Function.update_self ..
  have hset : ∀ pc, (s.pool.setWorker w .test).setWorker w pc = s.pool.setWorker w pc := fun pc =>
    congrArg (fun workers => { s.pool with workers := workers }) (Function.update_idem ..)
  have hsection : ThreadPool.step p.workers (s.pool.setWorker w .test) (.worker w) =
      some (ThreadPool.takeTask (s.pool.setWorker w .test) w) := by
    rw [ThreadPool.step, if_pos hw, ThreadPool.workerStep, htest]
  rw [pooledSection]
  dsimp only
  rw [if_pos htest, hsection, Option.map_some, ThreadPool.takeTask]
  have htasks : (s.pool.setWorker w .test).tasks = s.pool.tasks := rfl
  have hstop : (s.pool.setWorker w .test).stop = s.pool.stop := rfl
  rw [htasks, hstop]
  cases s.pool.tasks with
  | cons task tasks =>
    dsimp only
    rw [hset]
    simp only [ThreadPool.State.setWorker, Function.update_self]
    rfl
  | nil =>
    dsimp only
    rw [hset]
    by_cases hs : s.pool.stop = true
    · rw [if_pos hs, if_pos hs]
      simp only [ThreadPool.State.setWorker, Function.update_self]
      rfl
    · rw [if_neg hs, if_neg hs]
      simp only [ThreadPool.State.setWorker, Function.update_self]

theorem exists_pooledCore {v : State} (h : Coupled p s) (hs : step p s.view a = some v)
    (htake : ∀ w, a ≠ .take w) (hexit : ∀ w, a ≠ .exit w) :
    ∃ core pool, pooledCore p s a = some (s.act a core pool) ∧ withPool core pool = v := by
  obtain ⟨-, hs⟩ := Option.ite_none_left_eq_some.mp hs
  cases a with
  | take w => exact absurd rfl (htake w)
  | exit w => exact absurd rfl (hexit w)
  | insert key =>
    obtain ⟨hp, ⟨⟩⟩ := Option.ite_none_right_eq_some.mp hs
    exact ⟨_, _, if_pos hp, (insertKey_withPool key).symm⟩
  | flush =>
    obtain ⟨hp, ⟨⟩⟩ := Option.ite_none_right_eq_some.mp hs
    exact ⟨_, _, if_pos hp, rfl⟩
  | realloc =>
    obtain ⟨hp, ⟨⟩⟩ := Option.ite_none_right_eq_some.mp hs
    exact ⟨_, _, if_pos hp, reallocList_withPool.symm⟩
  | wake =>
    obtain ⟨hp, ⟨⟩⟩ := Option.ite_none_right_eq_some.mp hs
    exact ⟨_, _, if_pos hp, rfl⟩
  | finish =>
    obtain ⟨hp, ⟨⟩⟩ := Option.ite_none_right_eq_some.mp hs
    have hp : s.core.producer = .idle := hp
    obtain ⟨-, hd⟩ := h.running (by rw [hp]; simp)
    have hstop : ThreadPool.step p.workers s.pool .stop =
        some { s.pool with stop := true, destructor := .notifyAll } := if_pos hd
    refine ⟨s.core.goTo .done, { s.pool with stop := true, destructor := .notifyAll }, ?_, rfl⟩
    exact (if_pos hp).trans (by rw [hstop]; rfl)
  | producer =>
    by_cases hp : s.core.producer = .enqueue
    · obtain ⟨hstop, hd⟩ := h.running (by rw [hp]; simp)
      have henqueue : ThreadPool.step p.workers s.pool (.enqueue ()) =
          some (ThreadPool.enqueue s.pool ()) := if_neg (by rw [hd]; simp)
      refine ⟨s.core.goTo .realloc, ThreadPool.enqueue s.pool (), ?_, ?_⟩
      · rw [pooledCore, pooledProducer, if_pos hp, hstop, henqueue]
        rfl
      · have hp' : s.view.producer = .enqueue := hp
        have hs : producerStep p s.view = some v := hs
        unfold producerStep at hs
        rw [hp'] at hs
        obtain rfl := Option.some.inj hs
        exact enqueue_withPool hstop
    · have hs : producerStep p (withPool s.core s.pool) = some v := hs
      rw [producerStep_withPool hp] at hs
      obtain ⟨core, hcore, rfl⟩ := Option.map_eq_some_iff.mp hs
      refine ⟨core, s.pool, ?_, rfl⟩
      rw [pooledCore, pooledProducer, if_neg hp, hcore]
      rfl
  | worker w =>
    obtain ⟨hw, hs⟩ := Option.ite_none_right_eq_some.mp hs
    have hs : workerStep p (withPool s.core s.pool) w = some v := hs
    rw [workerStep_withPool] at hs
    obtain ⟨core, hcore, rfl⟩ := Option.map_eq_some_iff.mp hs
    have hpooled : pooledCore p s (.worker w) = pooledWorker p s w := if_pos hw
    by_cases hidle : (core.workers w).pc = .idle
    · obtain ⟨-, halive, -⟩ := worker_moves (moves_workerStep hw hcore)
      have hrunning := (matches_iff_of_alive halive).mp (h.workers w hw)
      refine ⟨core, { s.pool.setWorker w .test with finished := s.pool.finished ++ [()] }, ?_, rfl⟩
      rw [hpooled, pooledWorker, hcore, Option.bind_some, if_pos hidle, ThreadPool.step, if_pos hw,
        ThreadPool.workerStep, hrunning]
      rfl
    · refine ⟨core, s.pool, ?_, rfl⟩
      rw [hpooled, pooledWorker, hcore, Option.bind_some, if_neg hidle]

/-- The producer has first to send its notification. -/
theorem exists_run_core {v : State} (h : Coupled p s) (hs : step p s.view a = some v)
    (htake : ∀ w, a ≠ .take w) (hexit : ∀ w, a ≠ .exit w) :
    ∃ bs t, run (pooledStep p) s bs = some t ∧ t.trace = s.trace ++ [a] ∧ t.view = v := by
  have hf : s.view.fault = none := fault_of_step hs
  have hf : s.core.fault = none := hf
  obtain ⟨bs, pool, hbs, hnone, hview, hcoupled⟩ := h.exists_notified hf
  rw [← hview] at hs
  obtain ⟨core, pool', hcore, rfl⟩ := exists_pooledCore hcoupled hs htake hexit
  refine ⟨bs ++ [.core a], s.act a core pool', (run_concat _).mpr ⟨_, hbs, ?_⟩, rfl, rfl⟩
  rw [pooledStep, if_neg (by simp [hf])]
  exact (if_neg (by simp [hnone])).trans hcore

/-- Every step of the hand-off with its counter can be made on the pool. -/
theorem exists_pooled {v : State} (h : Coupled p s) (hs : step p s.view a = some v) :
    ∃ bs t, run (pooledStep p) s bs = some t ∧ t.trace = s.trace ++ [a] ∧ t.view = v := by
  have hf : s.view.fault = none := fault_of_step hs
  have hf : s.core.fault = none := hf
  cases a with
  | take w =>
    obtain ⟨⟨hw, hidle, hn⟩, ⟨⟩⟩ :=
      Option.ite_none_right_eq_some.mp (Option.ite_none_left_eq_some.mp hs).2
    obtain ⟨bs, hbs⟩ := h.exists_test hf hw hidle
    obtain ⟨task, tasks, hq⟩ := List.exists_cons_of_length_pos hn
    refine ⟨_, _, run_section hf hbs (pooledSection_test hw), ?_⟩
    rw [hq]
    refine ⟨rfl, ?_⟩
    have hpending : s.view.pending = tasks.length + 1 := congrArg List.length hq
    rw [hpending]
    rfl
  | exit w =>
    obtain ⟨⟨hw, hidle, hstop, hn⟩, ⟨⟩⟩ :=
      Option.ite_none_right_eq_some.mp (Option.ite_none_left_eq_some.mp hs).2
    obtain ⟨bs, hbs⟩ := h.exists_test hf hw hidle
    have hq : s.pool.tasks = [] := List.length_eq_zero_iff.mp hn
    refine ⟨_, _, run_section hf hbs (pooledSection_test hw), ?_⟩
    have hstop : s.pool.stop = true := hstop
    rw [hq, hstop]
    exact ⟨rfl, rfl⟩
  | insert | flush | realloc | finish | producer | wake | worker =>
    exact exists_run_core h hs (by simp) (by simp)

theorem pooled_simulates (p : Params) :
    Simulates (step p) init (pooledStep p) pooledInit PooledState.view PooledState.trace
      (Coupled p) where
  start := ⟨pooledInit_coupled p, rfl, rfl⟩
  invariant _ _ _ h hs := (pooledStep_follows h hs).1
  forward _ _ _ h hs := (pooledStep_follows h hs).2
  backward _ _ _ h hs := exists_pooled h hs

/-- The hand-off on the thread pool goes through exactly the schedules of the hand-off that counts
its tasks, and through the same states. -/
theorem pooled_iff (p : Params) (as : List Action) (v : State) :
    run (step p) init as = some v ↔
      ∃ t, Reachable (pooledStep p) pooledInit t ∧ t.trace = as ∧ t.view = v :=
  (pooled_simulates p).run_iff

end PersistTree.Handoff
