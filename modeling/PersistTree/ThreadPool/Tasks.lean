import PersistTree.ThreadPool.Model

/-!
# What happens to the tasks of a pool

Tasks are started in the order in which they were accepted, each by one worker, and nothing but
their execution takes them out of the system. A worker goes to sleep only on an empty queue, and
every task that is queued later brings a notification of its own; so a worker can be asleep only
while the queued tasks are covered by notifications to come and by workers about to look.
-/
namespace PersistTree.ThreadPool

open Library Transition

variable {τ : Type} {threads : ℕ} {s t : State τ} {a : Action τ}

def inHand : WorkerPc τ → Multiset τ
  | .running task => {task}
  | .test | .asleep | .returned => 0

/-- A worker about to enter its section counts 1. -/
def testing : WorkerPc τ → ℕ
  | .test => 1
  | .asleep | .running _ | .returned => 0

/-- Every accepted task is queued, in hand or finished, and the queue is a suffix of what was
accepted. -/
structure Accounted (threads : ℕ) (s : State τ) : Prop where
  accepted : s.accepted = s.started ++ s.tasks
  started : (s.finished : Multiset τ) + sumOver threads inHand s.workers = s.started

/-- While a worker sleeps, no queued task is forgotten. -/
def Covered (threads : ℕ) (s : State τ) : Prop :=
  (∃ w < threads, s.workers w = .asleep) →
    s.tasks.length ≤ s.notifies + sumOver threads testing s.workers

theorem init_accounted (threads : ℕ) : Accounted threads (init : State τ) where
  accepted := rfl
  started := by simp [init, sumOver, inHand]

theorem sumOver_inHand_update {w : ℕ} {workers : ℕ → WorkerPc τ} {pc : WorkerPc τ}
    (hw : w < threads)
    (hold : inHand (workers w) = 0) (hnew : inHand pc = 0) :
    sumOver threads inHand (Function.update workers w pc) = sumOver threads inHand workers := by
  have h := sumOver_update hw inHand workers pc
  rwa [hold, hnew, add_zero, add_zero] at h

theorem Accounted.moves (h : Accounted threads s) (hm : Moves threads s a t) :
    Accounted threads t := by
  cases hm with
  | refuse task hs | notifyNobody hn ha | stop hd | join i hd hi hpc =>
    exact ⟨h.accepted, h.started⟩
  | accept task hs =>
    refine ⟨?_, h.started⟩
    show s.accepted ++ [task] = s.started ++ (s.tasks ++ [task])
    rw [h.accepted, List.append_assoc]
  | take w task tasks hw hpc hq =>
    constructor
    · show s.accepted = (s.started ++ [task]) ++ tasks
      rw [h.accepted, hq, List.append_assoc]
      rfl
    · have htotal := sumOver_update hw inHand s.workers (.running task)
      rw [hpc] at htotal
      show (s.finished : Multiset τ) + sumOver threads inHand (Function.update s.workers w _) =
        ((s.started ++ [task] : List τ) : Multiset τ)
      rw [← Multiset.coe_add, ← h.started, add_assoc]
      exact congrArg _ (by simpa [inHand] using htotal)
  | finish w task hw hpc =>
    constructor
    · exact h.accepted
    · have htotal := sumOver_update hw inHand s.workers .test
      rw [hpc] at htotal
      show ((s.finished ++ [task] : List τ) : Multiset τ) +
        sumOver threads inHand (Function.update s.workers w .test) = s.started
      rw [← Multiset.coe_add, add_assoc, ← h.started]
      refine congrArg _ ?_
      rw [add_comm]
      simpa [inHand] using htotal
  | notifyWake w hn hw hpc | wake w hw hpc | sleep w hw hpc hq hs | leave w hw hpc hq hs =>
    refine ⟨h.accepted, ?_⟩
    show _ + sumOver threads inHand (Function.update s.workers w _) = _
    rw [sumOver_inHand_update hw (by rw [hpc]; rfl) rfl]
    exact h.started
  | notifyAll hd =>
    refine ⟨h.accepted, ?_⟩
    have hsame : sumOver threads inHand (wakeUp ∘ s.workers) =
        sumOver threads inHand s.workers := by
      refine Finset.sum_congr rfl fun w _ => ?_
      show inHand (wakeUp (s.workers w)) = _
      cases s.workers w <;> rfl
    show _ + sumOver threads inHand (wakeUp ∘ s.workers) = _
    rw [hsame]
    exact h.started

theorem init_covered (threads : ℕ) : Covered threads (init : State τ) := fun _ => Nat.zero_le _

theorem asleep_of_update {w v : ℕ} {workers : ℕ → WorkerPc τ} {pc : WorkerPc τ}
    (hpc : pc ≠ .asleep) (hv : Function.update workers w pc v = .asleep) :
    workers v = .asleep := by
  by_cases he : v = w
  · subst v
    rw [Function.update_self] at hv
    exact absurd hv hpc
  · rwa [Function.update_of_ne he] at hv

theorem Covered.moves (h : Covered threads s) (hm : Moves threads s a t) : Covered threads t := by
  cases hm with
  | refuse task hs | stop hd | join i hd hi hpc => exact h
  | accept task hs =>
    intro hasleep
    have hle := h hasleep
    show (s.tasks ++ [task]).length ≤ s.notifies + 1 + sumOver threads testing s.workers
    rw [List.length_append, List.length_singleton]
    omega
  | notifyNobody hn ha =>
    rintro ⟨w, hw, hpc⟩
    exact absurd hpc (ha w hw)
  | notifyWake w hn hw hpc =>
    rintro -
    have hle := h ⟨w, hw, hpc⟩
    have htotal := sumOver_update hw testing s.workers .test
    rw [hpc] at htotal
    show s.tasks.length ≤ s.notifies - 1 + sumOver threads testing (Function.update s.workers w _)
    simp only [testing] at htotal
    omega
  | wake w hw hpc =>
    rintro -
    have hle := h ⟨w, hw, hpc⟩
    have htotal := sumOver_update hw testing s.workers .test
    rw [hpc] at htotal
    show s.tasks.length ≤ s.notifies + sumOver threads testing (Function.update s.workers w _)
    simp only [testing] at htotal
    omega
  | take w task tasks hw hpc hq =>
    rintro ⟨v, hv, hasleep⟩
    have hle := h ⟨v, hv, asleep_of_update (by simp) hasleep⟩
    have htotal := sumOver_update hw testing s.workers (.running task)
    rw [hpc] at htotal
    rw [hq, List.length_cons] at hle
    show tasks.length ≤ s.notifies + sumOver threads testing (Function.update s.workers w _)
    simp only [testing] at htotal
    omega
  | sleep w hw hpc hq hs | leave w hw hpc hq hs =>
    rintro -
    show s.tasks.length ≤ _
    rw [hq]
    exact Nat.zero_le _
  | finish w task hw hpc =>
    rintro ⟨v, hv, hasleep⟩
    have hle := h ⟨v, hv, asleep_of_update (by simp) hasleep⟩
    have htotal := sumOver_update hw testing s.workers .test
    rw [hpc] at htotal
    show s.tasks.length ≤ s.notifies + sumOver threads testing (Function.update s.workers w _)
    simp only [testing] at htotal
    omega
  | notifyAll hd =>
    rintro ⟨w, hw, hpc⟩
    have hpc : wakeUp (s.workers w) = .asleep := hpc
    revert hpc
    cases s.workers w <;> simp [wakeUp]

theorem accounted_of_reachable (h : Reachable (step threads) init s) : Accounted threads s :=
  h.invariant (init_accounted threads) fun _ _ _ hI hs => hI.moves (moves_of_step hs)

theorem covered_of_reachable (h : Reachable (step threads) init s) : Covered threads s :=
  h.invariant (init_covered threads) fun _ _ _ hI hs => hI.moves (moves_of_step hs)

/-- In every reachable state the tasks have been started in the order in which `enqueue` accepted
them, and every task that has been started is finished or in the hands of exactly one worker. -/
theorem tasks_in_order (threads : ℕ) (s : State τ) (h : Reachable (step threads) init s) :
    s.started ++ s.tasks = s.accepted ∧
      (s.finished : Multiset τ) + sumOver threads inHand s.workers = s.started :=
  ⟨(accounted_of_reachable h).accepted.symm, (accounted_of_reachable h).started⟩

/-- Two tasks in a pool of two workers: one of them sleeps and is notified, and the task that was
accepted first is still running when the second one ends. -/
theorem tasks_in_order_two : ∃ s : State ℕ, s.started = [7, 8] ∧ s.finished = [8] ∧
    s.started ++ s.tasks = s.accepted ∧
      (s.finished : Multiset ℕ) + sumOver 2 inHand s.workers = s.started := by
  have hrun : (run (step 2) (init : State ℕ) [.worker 1, .enqueue 7, .worker 0, .enqueue 8,
      .notifyOne (some 1), .worker 1, .worker 1]).map (fun s => (s.started, s.finished)) =
        some ([7, 8], [8]) := by
    decide
  obtain ⟨s, hs, he⟩ := Option.map_eq_some_iff.mp hrun
  simp only [Prod.mk.injEq] at he
  exact ⟨s, he.1, he.2, tasks_in_order 2 s (Reachable.of_run hs)⟩

/-- A worker that cannot move is asleep or has left its loop. -/
theorem workerStep_eq_none {w : ℕ} (h : workerStep s w = none) :
    s.workers w = .asleep ∨ s.workers w = .returned := by
  unfold workerStep at h
  split at h
  · cases h
  · cases h
  next hpc => exact Or.inl hpc
  next hpc => exact Or.inr hpc

/-- Workers leave their loops only when the pool is stopped and its queue is empty, and then
nothing is queued any more. -/
def LeftEmpty (threads : ℕ) (s : State τ) : Prop :=
  (∃ w < threads, s.workers w = .returned) → s.stop = true ∧ s.tasks = []

theorem returned_of_update {w v : ℕ} {workers : ℕ → WorkerPc τ} {pc : WorkerPc τ}
    (hpc : pc ≠ .returned) (hv : Function.update workers w pc v = .returned) :
    workers v = .returned := by
  by_cases he : v = w
  · subst v
    rw [Function.update_self] at hv
    exact absurd hv hpc
  · rwa [Function.update_of_ne he] at hv

theorem LeftEmpty.moves (h : LeftEmpty threads s) (hm : Moves threads s a t) :
    LeftEmpty threads t := by
  cases hm with
  | refuse task hs | notifyNobody hn ha | join i hd hi hpc => exact h
  | accept task hs =>
    intro hreturned
    obtain ⟨hstop, -⟩ := h hreturned
    rw [hs] at hstop
    cases hstop
  | take w task tasks hw hpc hq =>
    rintro ⟨v, hv, hreturned⟩
    obtain ⟨-, hempty⟩ := h ⟨v, hv, returned_of_update (by simp) hreturned⟩
    rw [hq] at hempty
    cases hempty
  | notifyWake w hn hw hpc | wake w hw hpc | sleep w hw hpc hq hs | finish w task hw hpc =>
    rintro ⟨v, hv, hreturned⟩
    exact h ⟨v, hv, returned_of_update (by simp) hreturned⟩
  | leave w hw hpc hq hs => exact fun _ => ⟨hs, hq⟩
  | stop hd => exact fun hreturned => ⟨rfl, (h hreturned).2⟩
  | notifyAll hd =>
    rintro ⟨w, hw, hpc⟩
    refine h ⟨w, hw, ?_⟩
    have hpc : wakeUp (s.workers w) = .returned := hpc
    revert hpc
    cases s.workers w <;> simp [wakeUp]

theorem leftEmpty_of_reachable (h : Reachable (step threads) init s) : LeftEmpty threads s := by
  refine h.invariant (I := LeftEmpty threads) ?_ fun _ _ _ hI hs => hI.moves (moves_of_step hs)
  rintro ⟨w, -, hpc⟩
  cases hpc

/-- No wake-up is lost: when neither a worker nor a notification can do anything any more, all that
was accepted has been executed. -/
theorem finished_of_stuck {threads : ℕ} (hthreads : 0 < threads) {s : State τ}
    (h : Reachable (step threads) init s) (hworkers : ∀ w, step threads s (.worker w) = none)
    (hnotify : ∀ woken, step threads s (.notifyOne woken) = none) :
    s.tasks = [] ∧ (s.finished : Multiset τ) = s.accepted := by
  have hpc : ∀ w < threads, s.workers w = .asleep ∨ s.workers w = .returned := by
    intro w hw
    have hnone := hworkers w
    rw [step, if_pos hw] at hnone
    exact workerStep_eq_none hnone
  have hempty : s.tasks = [] := by
    by_cases hasleep : ∃ w < threads, s.workers w = .asleep
    · obtain ⟨w, hw, hw'⟩ := hasleep
      have hcovered := covered_of_reachable h ⟨w, hw, hw'⟩
      have htesting : sumOver threads testing s.workers = 0 := sumOver_eq_zero.mpr fun v hv => by
        rcases hpc v hv with hv' | hv' <;> rw [hv'] <;> rfl
      have hnone : s.notifies = 0 := by
        by_contra hne
        have hstuck := hnotify (some w)
        simp [step, notifyOne, hne, hw, hw', WorkerPc.isAsleep] at hstuck
      rw [htesting, hnone] at hcovered
      exact List.length_eq_zero_iff.mp (Nat.le_zero.mp hcovered)
    · refine (leftEmpty_of_reachable h ⟨0, hthreads, ?_⟩).2
      exact (hpc 0 hthreads).resolve_left fun hw => hasleep ⟨0, hthreads, hw⟩
  obtain ⟨haccepted, hstarted⟩ := accounted_of_reachable h
  have hinHand : sumOver threads inHand s.workers = 0 := by
    refine Finset.sum_eq_zero fun w hw => ?_
    rcases hpc w (Finset.mem_range.mp hw) with hw | hw <;> rw [hw] <;> rfl
  refine ⟨hempty, ?_⟩
  rw [haccepted, hempty, List.append_nil, ← hstarted, hinHand, add_zero]

/-- One worker that sleeps again after the only task has been executed. -/
theorem finished_of_stuck_one : ∃ s : State ℕ, s.accepted = [5] ∧
    s.tasks = [] ∧ (s.finished : Multiset ℕ) = s.accepted := by
  have hrun : (run (step 1) (init : State ℕ) [.enqueue 5, .notifyOne none, .worker 0, .worker 0,
      .worker 0]).map (fun s => (s.accepted, s.notifies, s.workers 0)) =
        some ([5], 0, .asleep) := by
    decide
  obtain ⟨s, hs, he⟩ := Option.map_eq_some_iff.mp hrun
  simp only [Prod.mk.injEq] at he
  obtain ⟨haccepted, hnone, hasleep⟩ := he
  refine ⟨s, haccepted, finished_of_stuck Nat.one_pos (Reachable.of_run hs) ?_ ?_⟩
  · intro w
    rw [step]
    split_ifs with hw
    · obtain rfl := Nat.lt_one_iff.mp hw
      rw [workerStep, hasleep]
    · rfl
  · intro woken
    exact if_pos hnone

end PersistTree.ThreadPool
