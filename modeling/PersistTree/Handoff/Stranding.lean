import PersistTree.Handoff.Accounting

/-!
# Stranded lists

`Flush` leaves a queued list to a running `CallThread` when it reads `is_running_` as true. The flag
is still true after the last test of `queue_`, until the task clears it, and it stays true for good
when a task returns from its first test. A list left to such a task is stranded. No other step can
strand a list: the property holds along a run exactly if the flag is never read as true with a list
in the queue and nobody left to pop it.
-/
namespace PersistTree.Handoff

open Transition

/-- `CallThread` before its last test of `queue_`. -/
def PopsAgain : WorkerPc → Prop
  | .idle | .clear | .joined => False
  | _ => True

/-- `CallThread` between its section under `q_mutex_` and the end of its section under `mut`. -/
def Announces : WorkerPc → Prop
  | .sizeTest | .notify => True
  | _ => False

/-- `Flush` between its push and the end of its decision about a new `CallThread`. -/
def Deciding : ProducerPc → Prop
  | .blockTest | .loadTest | .enqueue => True
  | _ => False

/-- A `CallThread` is pending, or running and not past its last test. -/
def GoingToPop (p : Params) (pending : ℕ) (workers : ℕ → Worker) : Prop :=
  0 < pending ∨ SomeWorker p workers PopsAgain

/-- No list is stranded: neither in the queue, nor under a sleeping producer, nor behind the last
worker. -/
structure NotStranded (p : Params) (s : State) : Prop where
  served : s.queue ≠ [] → ¬Deciding s.producer → GoingToPop p s.pending s.workers
  awaited : s.producer = .asleep → GoingToPop p s.pending s.workers
  drained : (∀ w < p.workers, (s.workers w).pc = .joined) → s.queue = []

/-- What `Flush` takes `is_running_` for: the step that loads the flag as true, with a list in the
queue, finds a `CallThread` that is still going to pop. -/
def LoadSound (p : Params) (s : State) (a : Action) : Prop :=
  a = .producer → s.producer = .loadTest → s.isRunning = true → s.queue ≠ [] →
    GoingToPop p s.pending s.workers

variable {p : Params} {s t : State} {a : Action} {w pending : ℕ} {x : Worker}
  {queue : List FlushNVM} {pc : ProducerPc} {stop : Bool} {workers : ℕ → Worker}

theorem GoingToPop.update (h : GoingToPop p pending workers)
    (hx : PopsAgain (workers w).pc → PopsAgain x.pc) :
    GoingToPop p pending (Function.update workers w x) :=
  h.imp id fun h => h.update hx

/-- The invariant behind `NotStranded`. A producer that has just pushed onto a queue that was not
empty knows of a task, a sleeping producer will be notified or sees a queue too long to be, and a
worker is joined only when nothing more can be asked of it. -/
structure Served (p : Params) (queue : List FlushNVM) (pc : ProducerPc) (pending : ℕ) (stop : Bool)
    (workers : ℕ → Worker) : Prop where
  served : queue ≠ [] → ¬Deciding pc → GoingToPop p pending workers
  second : pc = .blockTest → 1 < queue.length → GoingToPop p pending workers
  asleep : pc = .asleep → p.skiplistMaxNum < queue.length ∨ SomeWorker p workers Announces
  joined : SomeWorker p workers (· = .joined) → pending = 0 ∧ pc = .done
  stopped : stop = true → pc = .done

theorem Served.goTo (h : Served p queue pc pending stop workers) {pc' : ProducerPc}
    (hdone : pc ≠ .done) (hserved : queue ≠ [] → ¬Deciding pc' → GoingToPop p pending workers)
    (hpush : pc' ≠ .blockTest) (hsleep : pc' = .asleep → p.skiplistMaxNum < queue.length) :
    Served p queue pc' pending stop workers where
  served := hserved
  second := by
    intro he
    exact absurd he hpush
  asleep := by
    intro he
    exact Or.inl (hsleep he)
  joined := by
    intro hj
    exact absurd (h.joined hj).2 hdone
  stopped := by
    intro hs
    exact absurd (h.stopped hs) hdone

theorem Served.walk (h : Served p queue pc pending stop workers) {pc' : ProducerPc}
    (hdone : pc ≠ .done) (hpc : ¬Deciding pc) (hpush : pc' ≠ .blockTest)
    (hsleep : pc' = .asleep → p.skiplistMaxNum < queue.length) :
    Served p queue pc' pending stop workers := by
  apply h.goTo hdone _ hpush hsleep
  intro hq _
  exact h.served hq hpc

/-- A worker moves on while the queue stays as it is. It may stop popping only when the queue is
empty, and a sleeping producer must not lose its last announcer. -/
theorem Served.setWorker (h : Served p queue pc pending stop workers)
    (hpop : PopsAgain (workers w).pc → queue ≠ [] → PopsAgain x.pc)
    (hnote : pc = .asleep → Announces (workers w).pc →
      p.skiplistMaxNum < queue.length ∨ Announces x.pc)
    (hjoin : x.pc ≠ .joined) :
    Served p queue pc pending stop (Function.update workers w x) where
  served := by
    intro hq hpc
    apply (h.served hq hpc).update
    intro ha
    exact hpop ha hq
  second := by
    intro hpc hlen
    apply (h.second hpc hlen).update
    intro ha
    exact hpop ha (List.length_pos_iff.mp (by omega))
  asleep := by
    intro hpc
    by_cases hlen : p.skiplistMaxNum < queue.length
    · exact Or.inl hlen
    · have hsome := (h.asleep hpc).resolve_left hlen
      exact Or.inr (hsome.update fun ha => (hnote hpc ha).resolve_left hlen)
  joined := by
    intro hj
    exact h.joined (hj.of_update hjoin)
  stopped := h.stopped

theorem Served.advance (h : Served p queue pc pending stop workers)
    (hnote : ¬Announces (workers w).pc) (hpop : PopsAgain x.pc) :
    Served p queue pc pending stop (Function.update workers w x) := by
  apply h.setWorker
  · intro _ _
    exact hpop
  · intro _ ha
    exact absurd ha hnote
  · intro hj
    rw [hj] at hpop
    exact hpop

theorem Served.leave (h : Served p queue pc pending stop workers)
    (hnote : ¬Announces (workers w).pc) (hseen : PopsAgain (workers w).pc → queue = [])
    (hjoin : x.pc ≠ .joined) :
    Served p queue pc pending stop (Function.update workers w x) := by
  apply h.setWorker _ _ hjoin
  · intro ha hne
    exact absurd (hseen ha) hne
  · intro _ ha
    exact absurd ha hnote

theorem Served.pop (h : Served p queue pc pending stop workers) (hw : w < p.workers)
    (hx : x.pc = .sizeTest) (queue' : List FlushNVM) :
    Served p queue' pc pending stop (Function.update workers w x) := by
  have hpops : SomeWorker p (Function.update workers w x) PopsAgain :=
    .new hw (by rw [hx]; trivial)
  have hannounces : SomeWorker p (Function.update workers w x) Announces :=
    .new hw (by rw [hx]; trivial)
  constructor
  · intro _ _
    exact Or.inr hpops
  · intro _ _
    exact Or.inr hpops
  · intro _
    exact Or.inr hannounces
  · intro hj
    exact h.joined (hj.of_update (by rw [hx]; nofun))
  · exact h.stopped

theorem Served.push (h : Served p queue .push pending stop workers) (f : FlushNVM) :
    Served p (queue ++ [f]) .blockTest pending stop workers where
  served := by
    intro _ hpc
    exact absurd trivial hpc
  second := by
    intro _ hlen
    rw [List.length_append, List.length_singleton] at hlen
    exact h.served (List.length_pos_iff.mp (by omega)) id
  asleep := nofun
  joined := by
    intro hj
    cases (h.joined hj).2
  stopped := by
    intro hs
    cases h.stopped hs

theorem Served.enqueue (h : Served p queue .enqueue pending stop workers) :
    Served p queue .realloc (pending + 1) stop workers where
  served := by
    intro _ _
    exact Or.inl pending.succ_pos
  second := nofun
  asleep := nofun
  joined := by
    intro hj
    cases (h.joined hj).2
  stopped := by
    intro hs
    cases h.stopped hs

theorem Served.finish (h : Served p queue .idle pending stop workers) :
    Served p queue .done pending true workers where
  served := by
    intro hq _
    exact h.served hq id
  second := nofun
  asleep := nofun
  joined := by
    intro hj
    cases (h.joined hj).2
  stopped := by
    intro _
    rfl

theorem Served.take (h : Served p queue pc pending stop workers) (hw : w < p.workers)
    (hidle : (workers w).pc = .idle) (hn : 0 < pending) (hx : x.pc = .start) :
    Served p queue pc (pending - 1) stop (Function.update workers w x) := by
  have hpops : SomeWorker p (Function.update workers w x) PopsAgain :=
    .new hw (by rw [hx]; trivial)
  constructor
  · intro _ _
    exact Or.inr hpops
  · intro _ _
    exact Or.inr hpops
  · intro hpc
    apply (h.asleep hpc).imp id
    intro hsome
    exact hsome.update fun ha => by rw [hidle] at ha; exact ha.elim
  · intro hj
    have := (h.joined (hj.of_update (by rw [hx]; nofun))).1
    omega
  · exact h.stopped

theorem Served.exit (h : Served p queue pc 0 true workers) (hidle : (workers w).pc = .idle)
    (x : Worker) : Served p queue pc 0 true (Function.update workers w x) := by
  have hpops : PopsAgain (workers w).pc → PopsAgain x.pc := by rw [hidle]; exact False.elim
  constructor
  · intro hq hpc
    exact (h.served hq hpc).update hpops
  · intro hpc hlen
    exact (h.second hpc hlen).update hpops
  · intro hpc
    apply (h.asleep hpc).imp id
    intro hsome
    exact hsome.update fun ha => by rw [hidle] at ha; exact ha.elim
  · intro _
    exact ⟨rfl, h.stopped rfl⟩
  · exact h.stopped

theorem Served.moves (h : Served p s.queue s.producer s.pending s.stop s.workers)
    (hmax : 1 ≤ p.skiplistMaxNum)
    (hacc : Accounted p.skiplistMaxNum s.queue s.blockSkiplistNum s.producer)
    (hload : LoadSound p s a) (hm : Moves p s a t) :
    Served p t.queue t.producer t.pending t.stop t.workers := by
  cases hm with
  | insert key n pc hp hl hpc =>
    rw [hp] at h
    rcases hpc with rfl | rfl <;> exact h.walk nofun id nofun nofun
  | realloc a hp hl =>
    have hpc : s.producer ≠ .done ∧ ¬Deciding s.producer := by
      rcases hp with ⟨-, hp⟩ | ⟨-, hp⟩ <;> rw [hp] <;> exact ⟨nofun, id⟩
    exact h.walk hpc.1 hpc.2 nofun nofun
  | finish hp =>
    rw [hp] at h
    exact h.finish
  | push hp hq =>
    rw [hp] at h
    exact h.push _
  | block hp hb =>
    -- more than `skiplist_max_num_ ≥ 1` lists are queued, so this was not the first one
    rw [hacc.block_eq] at hb
    exact h.goTo (by rw [hp]; nofun) (fun _ _ => h.second hp (by omega)) nofun nofun
  | pass hp hb | loadFalse hp hr =>
    exact h.goTo (by rw [hp]; nofun) (fun _ hpc => absurd trivial hpc) nofun nofun
  | flush hp | waited hp hq | wake hp =>
    rw [hp] at h
    exact h.walk nofun id nofun nofun
  | sleep hp hq =>
    rw [hp] at h
    exact h.walk nofun id nofun fun _ => hq
  | loadTrue hp hr =>
    exact h.goTo (by rw [hp]; nofun) (fun hq _ => hload rfl hp hr hq) nofun nofun
  | enqueue hp =>
    rw [hp] at h
    exact h.enqueue
  | take w hw hpc hn => exact h.take hw hpc hn rfl
  | exit w hw hpc hs hn =>
    rw [hs, hn] at h
    show Served p s.queue s.producer s.pending s.stop _
    rw [hs, hn]
    exact h.exit hpc _
  | start w hw hpc | testStay w hw hpc | loopStay w hw hpc | run w n hw hpc | endRun w hw hpc =>
    exact h.advance (by rw [hpc]; exact id) trivial
  | testLeave w hw hpc hq | loopLeave w hw hpc hq =>
    exact h.leave (by rw [hpc]; exact id) (fun _ => hq) nofun
  | clear w hw hpc => exact h.leave (by rw [hpc]; exact id) (by rw [hpc]; exact False.elim) nofun
  | popNone w hw hpc hq => exact h.pop hw rfl _
  | pop w f queue hw hpc hq => exact h.pop hw rfl _
  | sizeNotify w hw hpc hq =>
    exact h.setWorker (fun _ _ => trivial) (fun _ _ => Or.inr trivial) nofun
  | sizeSkip w hw hpc hq => exact h.setWorker (fun _ _ => trivial) (fun _ _ => Or.inl hq) nofun
  | notify w hw hpc hp => exact h.setWorker (fun _ _ => trivial) (fun he => absurd he hp) nofun
  | notifyWake w hw hpc hp =>
    rw [hp] at h
    have hwait : Served p s.queue .wait s.pending s.stop s.workers := h.walk nofun id nofun nofun
    exact hwait.setWorker (fun _ _ => trivial) nofun nofun
  | _ => exact h

theorem init_served (p : Params) :
    Served p init.queue init.producer init.pending init.stop init.workers where
  served := fun hq => absurd rfl hq
  second := nofun
  asleep := nofun
  joined := fun ⟨_, _, hj⟩ => by cases hj
  stopped := nofun

theorem Served.notStranded (h : Served p s.queue s.producer s.pending s.stop s.workers)
    (hworkers : 0 < p.workers) : NotStranded p s where
  served := h.served
  awaited := fun hpc => by
    rcases h.asleep hpc with hlen | ⟨w, hw, hnote⟩
    · exact h.served (List.length_pos_iff.mp (by omega)) (by rw [hpc]; exact id)
    · refine Or.inr ⟨w, hw, ?_⟩
      generalize (s.workers w).pc = pc at hnote
      cases pc <;> trivial
  drained := fun hall => by
    by_contra hq
    obtain ⟨hn, hdone⟩ := h.joined ⟨0, hworkers, hall 0 hworkers⟩
    rcases h.served hq (by rw [hdone]; exact id) with hpos | ⟨w, hw, hpop⟩
    · omega
    · rw [hall w hw] at hpop
      exact hpop

/-- The step that reads the flag as true ends the decision and changes nothing else. -/
theorem step_loadTrue (h : step p s .producer = some t) (hpc : s.producer = .loadTest)
    (hr : s.isRunning = true) : t = s.goTo .realloc := by
  have hm := moves_of_step h
  generalize ha : Action.producer = a at hm
  cases hm with
  | loadTrue => rfl
  | loadFalse hp hf => rw [hr] at hf; cases hf
  | reallocKept a n hp | realloc a hp =>
    rcases hp with ⟨he, -⟩ | ⟨-, hp⟩
    · rw [← ha] at he
      cases he
    · cases hpc.symm.trans hp
  | pushFull hp | push hp | block hp | pass hp | waited hp | sleep hp | enqueue hp =>
    cases hpc.symm.trans hp
  | _ => cases ha

/-- A run strands no list if and only if `Flush` never reads `is_running_` as true with a list in
the queue and no `CallThread` left that is going to pop it. -/
theorem notStranded_iff (p : Params) (hmax : 1 ≤ p.skiplistMaxNum) (hworkers : 0 < p.workers)
    (as : List Action) (s : State) (hrun : run (step p) init as = some s) :
    Along (step p) init as (NotStranded p) ↔ Guarded (step p) init as (LoadSound p) := by
  constructor
  · intro halong bs a hb u hu ha hpc hr hq
    obtain ⟨t, ht⟩ := run_prefix _ hb hrun
    obtain ⟨u', hu', hstep⟩ := (run_concat _).mp ht
    rw [hu] at hu'
    cases hu'
    rw [ha] at hstep
    have hserved := (halong _ hb t ht).served
    rw [step_loadTrue hstep hpc hr] at hserved
    exact hserved hq id
  · intro hguard
    have hI := hguard.along
      (I := fun s => Accounted p.skiplistMaxNum s.queue s.blockSkiplistNum s.producer ∧
        Served p s.queue s.producer s.pending s.stop s.workers)
      ⟨init_accounted p, init_served p⟩
      fun s a t h hload hs => ⟨h.1.moves (moves_of_step hs),
        h.2.moves hmax h.1 hload (moves_of_step hs)⟩
    exact hI.mono fun s h => h.2.notStranded hworkers

/-- One key is flushed by a `CallThread` that gets as far as its last test. -/
def flushOne : List Action :=
  List.flatten [[.insert [97]], List.replicate 5 .producer, [.take 0],
    List.replicate 9 (.worker 0)]

theorem notStranded_iff_one :
    Along (step ⟨1, 1, 2⟩) init flushOne (NotStranded ⟨1, 1, 2⟩) ↔
      Guarded (step ⟨1, 1, 2⟩) init flushOne (LoadSound ⟨1, 1, 2⟩) := by
  have hrun : (run (step ⟨1, 1, 2⟩) init flushOne).isSome := by decide
  obtain ⟨s, hs⟩ := Option.isSome_iff_exists.mp hrun
  exact notStranded_iff ⟨1, 1, 2⟩ le_rfl (by decide) flushOne s hs

/-- The second list is queued between the last test of the `CallThread` and its store of the flag,
and the third `Flush` sleeps on it. -/
def strand : List Action :=
  List.flatten [flushOne, [.insert [98]], List.replicate 4 .producer, [.worker 0, .insert [99]],
    List.replicate 3 .producer]

theorem notStranded_fails :
    ∃ s, run (step ⟨1, 1, 2⟩) init strand = some s ∧ ¬NotStranded ⟨1, 1, 2⟩ s := by
  have hrun : (run (step ⟨1, 1, 2⟩) init strand).map (fun s =>
      (s.producer, s.pending, (s.workers 0).pc, (s.workers 1).pc)) =
        some (.asleep, 0, .idle, .idle) := by
    decide
  obtain ⟨s, hs, he⟩ := Option.map_eq_some_iff.mp hrun
  simp only [Prod.mk.injEq] at he
  obtain ⟨hpc, hn, h0, h1⟩ := he
  refine ⟨s, hs, ?_⟩
  intro h
  rcases h.awaited hpc with hpos | ⟨w, hw, hpop⟩
  · omega
  · obtain rfl | rfl : w = 0 ∨ w = 1 := Nat.le_one_iff_eq_zero_or_eq_one.mp (Nat.le_of_lt_succ hw)
    · rw [h0] at hpop
      exact hpop
    · rw [h1] at hpop
      exact hpop

end PersistTree.Handoff
