import PersistTree.Handoff.Stranding
import PersistTree.Library.Parties

/-!
# The hand-off settles

Between two calls of the producer every step of the hand-off uses up some of the work that is left,
whatever the schedule: lists to pop, tasks to take, and the places still to pass in `Flush` and in
`CallThread`. A `CallThread` that finds nothing to pop under the lock cannot go round its loop
again: the object it holds is null or deleted, and its `Run` ends the process. When no step is left
and no list was stranded, `Flush` has returned and every list has been flushed.
-/
namespace PersistTree.Handoff

open Library Transition

/-- The steps that neither the producer's calls nor a spurious wake-up bring about. -/
def Internal : Action → Prop
  | .producer | .worker _ | .take _ | .exit _ => True
  | .insert _ | .flush | .realloc | .finish | .wake => False

/-- The steps a worker still has before it, those for the lists it may pop not counted. A worker
that holds nothing it has popped does not get past `run`. -/
def Worker.work (x : Worker) : ℕ :=
  match x.pc with
  | .joined => 0
  | .idle => 1
  | .clear => 2
  | .run => if x.popped = none then 3 else 10
  | .notify => if x.popped = none then 5 else 12
  | .sizeTest => if x.popped = none then 6 else 13
  | .lockPop => 7
  | .loopTest => 8
  | .testEmpty | .inRun => 9
  | .start => 10

def ProducerPc.work : ProducerPc → ℕ
  | .idle | .done => 0
  | .realloc => 1
  | .asleep => 2
  | .wait => 3
  | .enqueue => 12
  | .loadTest => 13
  | .blockTest => 14
  | .push => 22

/-- A bound on the internal steps to come. -/
def workLeft (p : Params) (s : State) : ℕ :=
  if s.fault.isSome then 0
  else 7 * s.queue.length + 10 * s.pending + sumOver p.workers Worker.work s.workers +
    s.producer.work + 1

/-- A worker whose `flush` has not been popped since its last `Run`. -/
def Spent (x : Worker) : Prop :=
  match x.pc with
  | .idle | .joined | .inRun => False
  | .sizeTest | .notify | .run => x.popped = none
  | .start | .testEmpty | .loopTest | .lockPop | .clear => True

/-- A `flush` that is not to be run again holds no list, or a deleted one. -/
structure Stale (deleted : List ℕ) (x : Worker) : Prop where
  deleted : Spent x → ∀ n, x.flush.skiplist = some n → n ∈ deleted
  locked : x.pc = .lockPop → x.popped = none

variable {p : Params} {s t : State} {a : Action} {w : ℕ} {x : Worker}

theorem stale_update {deleted deleted' : List ℕ} (h : ∀ v, Stale deleted (s.workers v))
    (hdeleted : deleted ⊆ deleted') (hx : Stale deleted' x) :
    ∀ v, Stale deleted' (Function.update s.workers w x v) := by
  intro v
  by_cases he : v = w
  · subst v
    rw [Function.update_self]
    exact hx
  · rw [Function.update_of_ne he]
    exact ⟨fun hs n hn => hdeleted ((h v).deleted hs n hn), (h v).locked⟩

theorem Stale.goTo {deleted : List ℕ} (h : Stale deleted x) {pc : WorkerPc}
    (hspent : Spent { x with pc := pc } → Spent x) (hpc : pc ≠ .lockPop) :
    Stale deleted { x with pc := pc } :=
  ⟨fun hs => h.deleted (hspent hs), fun he => absurd he hpc⟩

theorem stale_moves (h : ∀ v, Stale s.deleted (s.workers v)) (hm : Moves p s a t) :
    ∀ v, Stale t.deleted (t.workers v) := by
  cases hm with
  | insertNull | insert | flush | reallocKept | realloc | finish | pushFull | push | block | pass
  | waited | sleep | loadTrue | loadFalse | enqueue | wake | runFault => exact h
  | take w hw hpc hn =>
    exact stale_update h (List.Subset.refl _) ⟨fun _ n hn => (by cases hn), by simp⟩
  | loopLeave w hw hpc hq | loopStay w hw hpc hq =>
    exact stale_update h (List.Subset.refl _)
      ⟨fun _ => (h w).deleted (by simp [Spent, hpc]), fun _ => rfl⟩
  | pop w f queue hw hpc hq =>
    exact stale_update h (List.Subset.refl _) ⟨fun hs => by simp [Spent] at hs, by simp⟩
  | endRun w hw hpc =>
    refine stale_update h (List.subset_append_right _ _) ⟨fun _ n hn => ?_, by simp⟩
    have hn : (s.workers w).flush.skiplist = some n := hn
    rw [hn]
    exact List.mem_append_left _ (List.mem_singleton_self n)
  | exit w hw hpc hs hn | start w hw hpc | testLeave w hw hpc hq | testStay w hw hpc hq
  | popNone w hw hpc hq | sizeNotify w hw hpc hq | sizeSkip w hw hpc hq | notify w hw hpc hp
  | notifyWake w hw hpc hp | run w n hw hpc hf hd hk | clear w hw hpc =>
    exact stale_update h (List.Subset.refl _) ((h w).goTo (by simp [Spent, hpc]) (by simp))

theorem stale_of_reachable (h : Reachable (step p) init s) :
    ∀ v, Stale s.deleted (s.workers v) :=
  Reachable.invariant (I := fun s => ∀ v, Stale s.deleted (s.workers v))
    (fun _ => ⟨fun hs => by simp [Spent, init] at hs, by simp [init]⟩)
    (fun _ _ _ h hs => stale_moves h (moves_of_step hs)) h

theorem workLeft_le (p : Params) (s : State) :
    workLeft p s ≤ 7 * s.queue.length + 10 * s.pending + sumOver p.workers Worker.work s.workers +
      s.producer.work + 1 := by
  unfold workLeft
  split_ifs
  · exact Nat.zero_le _
  · exact le_rfl

theorem workLeft_update_lt
    (hs : workLeft p s = 7 * s.queue.length + 10 * s.pending +
      sumOver p.workers Worker.work s.workers + s.producer.work + 1) (hw : w < p.workers)
    (ht : (t.queue, t.pending, t.producer, t.workers) =
      (s.queue, s.pending, s.producer, Function.update s.workers w x))
    (hx : x.work < (s.workers w).work) : workLeft p t < workLeft p s := by
  simp only [Prod.mk.injEq] at ht
  obtain ⟨hqueue, hpending, hproducer, hworkers⟩ := ht
  have htotal := sumOver_update hw Worker.work s.workers x
  refine (workLeft_le p _).trans_lt ?_
  rw [hs, hqueue, hpending, hproducer, hworkers]
  omega

theorem workLeft_lt (h : ∀ v, Stale s.deleted (s.workers v)) (hf : s.fault = none)
    (ha : Internal a) (hm : Moves p s a t) : workLeft p t < workLeft p s := by
  have hs : workLeft p s = 7 * s.queue.length + 10 * s.pending +
      sumOver p.workers Worker.work s.workers + s.producer.work + 1 := by
    rw [workLeft, if_neg (by simp [hf])]
  cases hm with
  | insertNull | insert | flush | finish | wake => exact ha.elim
  | reallocKept a n hp hl | pushFull hp | runFault w e hw hpc =>
    rw [hs]
    exact Nat.succ_pos _
  | realloc a hp hl =>
    obtain ⟨rfl, -⟩ | ⟨-, hp⟩ := hp
    · exact ha.elim
    · refine (workLeft_le p _).trans_lt ?_
      rw [hs, hp]
      simp only [ProducerPc.work]
      omega
  | push hp hq =>
    refine (workLeft_le p _).trans_lt ?_
    rw [hs, hp]
    simp only [ProducerPc.work, List.length_append, List.length_singleton]
    omega
  | block hp hb | pass hp hb | waited hp hq | sleep hp hq | loadTrue hp hr | loadFalse hp hr
  | enqueue hp =>
    refine (workLeft_le p _).trans_lt ?_
    rw [hs, hp]
    simp only [State.goTo, ProducerPc.work]
    omega
  | take w hw hpc hn =>
    have htotal := sumOver_update hw Worker.work s.workers ⟨.start, ⟨none⟩, none⟩
    rw [show (s.workers w).work = 1 by simp [Worker.work, hpc]] at htotal
    refine (workLeft_le p _).trans_lt ?_
    rw [hs]
    simp only [State.setWorker]
    simp only [Worker.work] at htotal
    omega
  | pop w f queue hw hpc hq =>
    have htotal := sumOver_update hw Worker.work s.workers ⟨.sizeTest, f, some f⟩
    rw [show (s.workers w).work = 7 by simp [Worker.work, hpc],
      show Worker.work ⟨.sizeTest, f, some f⟩ = 13 by simp [Worker.work]] at htotal
    refine (workLeft_le p _).trans_lt ?_
    rw [hs, hq]
    simp only [State.setWorker, List.length_cons]
    omega
  | notifyWake w hw hpc hp =>
    have htotal : sumOver p.workers Worker.work (s.setPc w .run).workers + _ = _ :=
      sumOver_update hw Worker.work s.workers { s.workers w with pc := .run }
    have hlt : Worker.work { s.workers w with pc := .run } + 2 = (s.workers w).work := by
      simp only [Worker.work, hpc]
      split_ifs <;> rfl
    refine (workLeft_le p _).trans_lt ?_
    rw [hs, hp]
    show 7 * s.queue.length + 10 * s.pending +
      sumOver p.workers Worker.work (s.setPc w .run).workers + 3 + 1 < _ + _ + _ + 2 + 1
    omega
  | run w n hw hpc hskip hd hk =>
    -- the object has been popped, since it is not deleted
    have hpopped : (s.workers w).popped ≠ none := fun hnone =>
      hd ((h w).deleted (by rw [Spent, hpc]; exact hnone) n hskip)
    exact workLeft_update_lt hs hw rfl (by simp [Worker.work, hpc, hpopped])
  | popNone w hw hpc hq =>
    exact workLeft_update_lt hs hw rfl (by simp [Worker.work, hpc, (h w).locked hpc])
  | exit w hw hpc hs' hn | start w hw hpc | testLeave w hw hpc hq | testStay w hw hpc hq
  | endRun w hw hpc | clear w hw hpc | loopLeave w hw hpc hq | loopStay w hw hpc hq =>
    exact workLeft_update_lt hs hw rfl (by simp [Worker.work, hpc])
  | sizeNotify w hw hpc hq | sizeSkip w hw hpc hq | notify w hw hpc hp =>
    refine workLeft_update_lt hs hw rfl ?_
    simp only [Worker.work, hpc]
    split_ifs <;> omega

theorem producerStep_eq_none (h : producerStep p s = none) :
    s.producer = .idle ∨ s.producer = .asleep ∨ s.producer = .done := by
  unfold producerStep at h
  cases hp : s.producer with
  | idle => exact Or.inl rfl
  | asleep => exact Or.inr (Or.inl rfl)
  | done => exact Or.inr (Or.inr rfl)
  | push | blockTest | wait | loadTest | enqueue | realloc =>
    rw [hp] at h
    cases h

theorem workerStep_eq_none (h : workerStep p s w = none) :
    (s.workers w).pc = .idle ∨ (s.workers w).pc = .joined := by
  unfold workerStep at h
  cases hpc : (s.workers w).pc with
  | idle => exact Or.inl rfl
  | joined => exact Or.inr rfl
  | start | testEmpty | loopTest | lockPop | sizeTest | notify | run | inRun | clear =>
    rw [hpc] at h
    cases h

theorem stop_of_done (h : Reachable (step p) init s) (hdone : s.producer = .done) :
    s.stop = true := by
  refine Reachable.invariant (I := fun s => s.producer = .done → s.stop = true) (by simp [init])
    (fun s a t hI hs => ?_) h hdone
  cases moves_of_step hs with
  | insert key n pc hp hl hpc => rcases hpc with rfl | rfl <;> simp
  | realloc a hp hl | push hp hq => simp
  | flush hp | block hp hb | pass hp hb | waited hp hq | sleep hp hq | loadTrue hp hr
  | loadFalse hp hr | enqueue hp | wake hp => simp [State.goTo]
  | notifyWake w hw hpc hp => simp [State.goTo]
  | finish hp => exact fun _ => rfl
  | _ => exact hI

/-- The producer is between two calls and the workers wait for a task, or the producer is done and
all workers are joined; nothing is queued. -/
structure Settled (p : Params) (s : State) : Prop where
  queue : s.queue = []
  pending : s.pending = 0
  parties : (s.producer = .idle ∧ ∀ w < p.workers, (s.workers w).pc = .idle) ∨
    s.producer = .done ∧ ∀ w < p.workers, (s.workers w).pc = .joined

/-- A hand-off that has not stranded a list comes to rest only when there is nothing left to do. -/
theorem settled_of_stuck (hworkers : 0 < p.workers) (hreach : Reachable (step p) init s)
    (hserved : Served p s.queue s.producer s.pending s.stop s.workers) (hf : s.fault = none)
    (hstuck : ∀ b, Internal b → step p s b = none) : Settled p s := by
  have hnone : ¬s.fault.isSome = true := by simp [hf]
  have hproducer := hstuck .producer trivial
  have hworker := fun w => hstuck (.worker w) trivial
  have htake := fun w => hstuck (.take w) trivial
  have hexit := fun w => hstuck (.exit w) trivial
  simp only [step, if_neg hnone] at hproducer hworker htake hexit
  have hpc : ∀ w < p.workers, (s.workers w).pc = .idle ∨ (s.workers w).pc = .joined :=
    fun w hw => workerStep_eq_none (by simpa [hw] using hworker w)
  have hstranded := hserved.notStranded hworkers
  have hpending : s.pending = 0 := by
    by_contra hne
    rcases hpc 0 hworkers with hidle | hjoined
    · have := htake 0
      rw [if_pos ⟨hworkers, hidle, Nat.pos_of_ne_zero hne⟩] at this
      cases this
    · exact hne (hserved.joined ⟨0, hworkers, hjoined⟩).1
  have hnobody : ¬GoingToPop p s.pending s.workers := by
    rintro (hpos | ⟨w, hw, hpop⟩)
    · omega
    · rcases hpc w hw with he | he <;> rw [he] at hpop <;> exact hpop
  have hawake : s.producer ≠ .asleep := fun he => hnobody (hstranded.awaited he)
  have hrest : s.producer = .idle ∨ s.producer = .done :=
    (producerStep_eq_none hproducer).imp id fun h => h.resolve_left hawake
  refine ⟨?_, hpending, ?_⟩
  · by_contra hqueue
    refine hnobody (hstranded.served hqueue ?_)
    rcases hrest with he | he <;> rw [he] <;> exact id
  · rcases hrest with hidle | hdone
    · refine Or.inl ⟨hidle, fun w hw => (hpc w hw).resolve_right fun hjoined => ?_⟩
      have hdone := (hserved.joined ⟨w, hw, hjoined⟩).2
      rw [hidle] at hdone
      cases hdone
    · refine Or.inr ⟨hdone, fun w hw => (hpc w hw).resolve_left fun hidle => ?_⟩
      have := hexit w
      rw [if_pos ⟨hw, hidle, stop_of_done hreach hdone, hpending⟩] at this
      cases this

instance : DecidablePred PopsAgain := fun pc => by cases pc <;> unfold PopsAgain <;> infer_instance

instance (p : Params) (s : State) (a : Action) : Decidable (LoadSound p s a) := by
  unfold LoadSound GoingToPop SomeWorker
  infer_instance

/-- A hand-off at rest waits for a call. -/
theorem Settled.stuck (h : Settled p s) (hstop : s.producer = .idle → s.stop = false)
    {b : Action} (hb : Internal b) : step p s b = none := by
  obtain ⟨-, hpending, hparties⟩ := h
  unfold step
  by_cases hf : s.fault.isSome
  · exact if_pos hf
  rw [if_neg hf]
  cases b with
  | insert | flush | realloc | finish | wake => exact hb.elim
  | producer => rcases hparties with ⟨hp, -⟩ | ⟨hp, -⟩ <;> simp only [producerStep, hp]
  | take w => exact if_neg (by simp [hpending])
  | exit w =>
    refine if_neg fun ⟨hw, hpc, hstopped, _⟩ => ?_
    rcases hparties with ⟨hp, -⟩ | ⟨-, hall⟩
    · rw [hstop hp] at hstopped
      cases hstopped
    · rw [hall w hw] at hpc
      cases hpc
  | worker w =>
    dsimp only
    split_ifs with hw
    · rcases hparties with ⟨-, hall⟩ | ⟨-, hall⟩ <;> simp only [workerStep, hall w hw]
    · rfl

end PersistTree.Handoff
