import PersistTree.ThreadPool.Tasks

/-!
# Shutting a pool down

Once the destructor has set `stop`, nothing can be queued, and every step of the pool uses up some
of the work that is left: tasks, notifications, sleeping workers to wake, workers to leave and to
be joined. Until the last worker is joined some step is always possible, so the destructor returns,
and it does so only after every accepted task has been executed.
-/
namespace PersistTree.ThreadPool

open Library Transition

variable {τ : Type} {threads : ℕ} {s t : State τ} {a : Action τ}

/-- How far the destructor has come: after `notify_all` nobody sleeps, and the workers are joined in
the order of their numbers after they have left. -/
structure Phase (threads : ℕ) (s : State τ) : Prop where
  stop : s.stop = true ↔ s.destructor ≠ .notCalled
  awake : ∀ i, s.destructor = .joining i → ∀ w < threads, s.workers w ≠ .asleep
  joined : ∀ i, s.destructor = .joining i → i ≤ threads ∧ ∀ w < i, s.workers w = .returned

theorem init_phase (threads : ℕ) : Phase threads (init : State τ) :=
  ⟨by simp [init], by simp [init], by simp [init]⟩

theorem Phase.setWorker {w : ℕ} (pc : WorkerPc τ) (h : Phase threads s)
    (hold : s.workers w ≠ .returned) (hnew : s.stop = true → pc ≠ .asleep) :
    Phase threads (s.setWorker w pc) where
  stop := h.stop
  awake i hi v hv hasleep := by
    have hstop : s.stop = true := h.stop.mpr fun he => by
      have hi : s.destructor = .joining i := hi
      rw [hi] at he
      cases he
    exact h.awake i hi v hv (asleep_of_update (hnew hstop) hasleep)
  joined i hi := by
    obtain ⟨hle, hreturned⟩ := h.joined i hi
    refine ⟨hle, fun v hv => ?_⟩
    have hne : v ≠ w := fun he => hold (he ▸ hreturned v hv)
    show Function.update s.workers w pc v = _
    rw [Function.update_of_ne hne]
    exact hreturned v hv

theorem Phase.moves (h : Phase threads s) (hm : Moves threads s a t) : Phase threads t := by
  cases hm with
  | refuse task hs | accept task hs | notifyNobody hn ha => exact ⟨h.stop, h.awake, h.joined⟩
  | notifyWake w hn hw hpc | wake w hw hpc =>
    have h' := h.setWorker .test (by rw [hpc]; simp) (by simp)
    exact ⟨h'.stop, h'.awake, h'.joined⟩
  | take w task tasks hw hpc hq =>
    have h' := h.setWorker (.running task) (by rw [hpc]; simp) (by simp)
    exact ⟨h'.stop, h'.awake, h'.joined⟩
  | finish w task hw hpc =>
    have h' := h.setWorker .test (by rw [hpc]; simp) (by simp)
    exact ⟨h'.stop, h'.awake, h'.joined⟩
  | sleep w hw hpc hq hs => exact h.setWorker .asleep (by rw [hpc]; simp) (by simp [hs])
  | leave w hw hpc hq hs => exact h.setWorker .returned (by rw [hpc]; simp) (by simp)
  | stop hd => exact ⟨by simp, by simp, by simp⟩
  | notifyAll hd =>
    refine ⟨?_, ?_, ?_⟩
    · show s.stop = true ↔ _
      rw [h.stop, hd]
      simp
    · intro i _ w _
      show wakeUp (s.workers w) ≠ .asleep
      cases s.workers w <;> simp [wakeUp]
    · rintro i ⟨⟩
      exact ⟨Nat.zero_le _, fun w hw => absurd hw (Nat.not_lt_zero w)⟩
  | join i hd hi hpc =>
    refine ⟨?_, ?_, ?_⟩
    · show s.stop = true ↔ _
      rw [h.stop, hd]
      simp
    · rintro j -
      exact h.awake i hd
    · rintro j ⟨⟩
      refine ⟨hi, fun w hw => ?_⟩
      rcases Nat.lt_succ_iff_lt_or_eq.mp hw with hw | rfl
      · exact (h.joined i hd).2 w hw
      · exact hpc

theorem phase_of_reachable (h : Reachable (step threads) init s) : Phase threads s :=
  h.invariant (init_phase threads) fun _ _ _ hI hs => hI.moves (moves_of_step hs)

/-- The steps a worker still has before it, tasks not counted. -/
def toGo : WorkerPc τ → ℕ
  | .asleep | .running _ => 2
  | .test => 1
  | .returned => 0

def Destructor.toGo (threads : ℕ) : Destructor → ℕ
  | .notCalled => threads + 2
  | .notifyAll => threads + 1
  | .joining i => threads - i

/-- A bound on the steps a stopped pool still takes. -/
def workLeft (threads : ℕ) (s : State τ) : ℕ :=
  2 * s.tasks.length + s.notifies + sumOver threads toGo s.workers + s.destructor.toGo threads

def NoCall : Action τ → Prop
  | .enqueue _ => False
  | _ => True

theorem workLeft_lt (hp : Phase threads s) (hstop : s.stop = true) (ha : NoCall a)
    (hm : Moves threads s a t) : workLeft threads t < workLeft threads s := by
  cases hm with
  | refuse task hs | accept task hs => exact ha.elim
  | notifyNobody hn hnone =>
    simp only [workLeft]
    omega
  | notifyWake w hn hw hpc | wake w hw hpc | finish w task hw hpc =>
    have htotal := sumOver_update hw toGo s.workers .test
    rw [hpc] at htotal
    simp only [toGo] at htotal
    simp only [workLeft, State.setWorker]
    omega
  | take w task tasks hw hpc hq =>
    -- one step more for the worker, one task less in the queue
    have htotal := sumOver_update hw toGo s.workers (.running task)
    rw [hpc] at htotal
    simp only [toGo] at htotal
    simp only [workLeft, State.setWorker, hq, List.length_cons]
    omega
  | leave w hw hpc hq hs =>
    have htotal := sumOver_update hw toGo s.workers .returned
    rw [hpc] at htotal
    simp only [toGo] at htotal
    simp only [workLeft, State.setWorker]
    omega
  | sleep w hw hpc hq hs =>
    rw [hstop] at hs
    cases hs
  | stop hd => exact absurd hd (hp.stop.mp hstop)
  | notifyAll hd =>
    have hle : sumOver threads toGo (wakeUp ∘ s.workers) ≤ sumOver threads toGo s.workers :=
      sumOver_le fun w _ => by
        show toGo (wakeUp (s.workers w)) ≤ _
        cases s.workers w <;> simp [wakeUp, toGo]
    simp only [workLeft, hd, Destructor.toGo]
    omega
  | join i hd hi hpc =>
    simp only [workLeft, hd, Destructor.toGo]
    omega

/-- A stopped pool can move on until it is destroyed. -/
theorem exists_step (hp : Phase threads s) (hstop : s.stop = true)
    (hd : ¬s.Destroyed threads) : ∃ a t, NoCall a ∧ step threads s a = some t := by
  cases he : s.destructor with
  | notCalled => exact absurd he (hp.stop.mp hstop)
  | notifyAll => exact ⟨.notifyAll, _, trivial, if_pos he⟩
  | joining i =>
    obtain ⟨hle, -⟩ := hp.joined i he
    have hi : i < threads := by
      refine lt_of_le_of_ne hle fun hthreads => hd ?_
      rw [State.Destroyed, he, hthreads]
    cases hpc : s.workers i with
    | test => exact ⟨.worker i, takeTask s i, trivial, by rw [step, if_pos hi, workerStep, hpc]⟩
    | asleep => exact absurd hpc (hp.awake i he i hi)
    | running task =>
      exact ⟨.worker i, _, trivial, by rw [step, if_pos hi, workerStep, hpc]⟩
    | returned =>
      refine ⟨.join, { s with destructor := .joining (i + 1) }, trivial, ?_⟩
      rw [step, joinNext, he]
      exact if_pos ⟨hi, by rw [hpc]; rfl⟩

theorem stop_preserved (hs : s.stop = true) (hm : Moves threads s a t) : t.stop = true := by
  cases hm with
  | stop hd => rfl
  | _ => exact hs

/-- A pool whose destructor has returned has executed everything it accepted. -/
theorem finished_of_destroyed (h : Reachable (step threads) init s) (hd : s.Destroyed threads)
    (hthreads : 0 < threads) : s.tasks = [] ∧ (s.finished : Multiset τ) = s.accepted := by
  obtain ⟨-, hreturned⟩ := (phase_of_reachable h).joined threads hd
  have hempty := (leftEmpty_of_reachable h ⟨0, hthreads, hreturned 0 hthreads⟩).2
  obtain ⟨haccepted, hstarted⟩ := accounted_of_reachable h
  have hinHand : sumOver threads inHand s.workers = 0 :=
    Finset.sum_eq_zero fun w hw => by rw [hreturned w (Finset.mem_range.mp hw)]; rfl
  refine ⟨hempty, ?_⟩
  rw [haccepted, hempty, List.append_nil, ← hstarted, hinHand, add_zero]

/-- Once the destructor has set `stop`, and apart from calls of `enqueue`, the pool takes at most
`workLeft` more steps, and it comes to an end only when the destructor has returned and every
accepted task has been executed. -/
theorem shutdown_completes {threads : ℕ} (hthreads : 0 < threads) {s : State τ}
    (h : Reachable (step threads) init s) (hstop : s.stop = true) {as : List (Action τ)}
    (has : ∀ a ∈ as, NoCall a) {t : State τ} (hrun : run (step threads) s as = some t) :
    as.length ≤ workLeft threads s ∧
      ((∀ a, NoCall a → step threads t a = none) → t.Destroyed threads ∧
        t.tasks = [] ∧ (t.finished : Multiset τ) = t.accepted) := by
  have hI : ∀ (s : State τ) (a : Action τ) (t : State τ), Phase threads s ∧ s.stop = true →
      NoCall a → step threads s a = some t → Phase threads t ∧ t.stop = true := fun s a t hI _ hs =>
    ⟨hI.1.moves (moves_of_step hs), stop_preserved hI.2 (moves_of_step hs)⟩
  have hg : Guarded (step threads) s as fun _ a => NoCall a := Guarded.of_forall has
  have hend := hg.invariant ⟨phase_of_reachable h, hstop⟩ hI hrun
  constructor
  · have hle := hg.length_le hI
      (fun s a t hI ha hs => workLeft_lt hI.1 hI.2 ha (moves_of_step hs))
      ⟨phase_of_reachable h, hstop⟩ hrun
    omega
  · intro hstuck
    have hd : t.Destroyed threads := by
      by_contra hd
      obtain ⟨a, u, ha, hu⟩ := exists_step hend.1 hend.2 hd
      rw [hstuck a ha] at hu
      cases hu
    obtain ⟨bs, hbs⟩ := h
    have ht : Reachable (step threads) init t := ⟨bs ++ as, by
      rw [run_append, hbs, Option.bind_some, hrun]⟩
    exact ⟨hd, finished_of_destroyed ht hd hthreads⟩

/-- The destructor finds a task queued and the only worker asleep. -/
theorem shutdown_completes_asleep : ∃ s t : State ℕ, s.tasks = [5] ∧
    run (step 1) s [.notifyAll, .notifyOne none, .worker 0, .worker 0, .worker 0, .join] = some t ∧
      6 ≤ workLeft 1 s ∧ t.Destroyed 1 ∧ t.tasks = [] ∧
      (t.finished : Multiset ℕ) = t.accepted := by
  have hrun : (run (step 1) (init : State ℕ) [.worker 0, .enqueue 5, .stop]).map
      (fun s => (s.tasks, s.stop)) = some ([5], true) := by decide
  have hrun' : ((run (step 1) (init : State ℕ) [.worker 0, .enqueue 5, .stop]).bind fun s =>
      run (step 1) s [.notifyAll, .notifyOne none, .worker 0, .worker 0, .worker 0, .join]).map
      (fun t => (t.notifies, t.workers 0, t.destructor)) = some (0, .returned, .joining 1) := by
    decide
  obtain ⟨s, hs, he⟩ := Option.map_eq_some_iff.mp hrun
  rw [hs, Option.bind_some] at hrun'
  obtain ⟨t, ht, he'⟩ := Option.map_eq_some_iff.mp hrun'
  simp only [Prod.mk.injEq] at he he'
  obtain ⟨hle, hend⟩ := shutdown_completes Nat.one_pos (Reachable.of_run hs) he.2
    (by simp [NoCall]) ht
  refine ⟨s, t, he.1, ht, hle, hend fun a ha => ?_⟩
  obtain ⟨hnone, hreturned, hd⟩ := he'
  cases a with
  | enqueue task => exact ha.elim
  | notifyOne woken => exact if_pos hnone
  | worker w =>
    rw [step]
    split_ifs with hw
    · obtain rfl := Nat.lt_one_iff.mp hw
      rw [workerStep, hreturned]
    · rfl
  | wake w =>
    refine if_neg ?_
    rintro ⟨hw, hasleep⟩
    obtain rfl := Nat.lt_one_iff.mp hw
    rw [hreturned] at hasleep
    cases hasleep
  | stop => exact if_neg (by simp [hd])
  | notifyAll => exact if_neg (by simp [hd])
  | join =>
    rw [step, joinNext, hd]
    exact if_neg (by simp)

end PersistTree.ThreadPool
