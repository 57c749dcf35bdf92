import PersistTree.Handoff.Accounting

/-!
# The wake-up of the producer

`CallThread` shortens the queue under `q_mutex_` and notifies under `mut`, and it notifies only if
an unlocked test finds the queue short enough. `Flush` tests the same bound under `mut` before it
sleeps. No wake-up is lost between the two: a producer that sleeps over a short queue is still owed
a notification.
-/
namespace PersistTree.Handoff

open Transition

/-- `CallThread` between its section under `q_mutex_` and the end of its section under `mut`, in an
iteration that has popped an element. -/
def Owes (x : Worker) : Prop :=
  (x.pc = .sizeTest ∨ x.pc = .notify) ∧ x.popped ≠ none

/-- Some worker of the pool owes the producer the notification for its pop. -/
def Owed (p : Params) (workers : ℕ → Worker) : Prop :=
  ∃ w < p.workers, Owes (workers w)

/-- A producer asleep waits for a longer queue to shrink, or for a notification that is due. -/
def Awaited (p : Params) (queue : List FlushNVM) (pc : ProducerPc) (workers : ℕ → Worker) : Prop :=
  pc = .asleep → p.skiplistMaxNum < queue.length ∨ Owed p workers

variable {p : Params} {s t : State} {a : Action} {w : ℕ} {x : Worker} {queue : List FlushNVM}
  {pc : ProducerPc} {workers : ℕ → Worker}

theorem Owed.new (hw : w < p.workers) (hx : Owes x) : Owed p (Function.update workers w x) :=
  ⟨w, hw, by rwa [Function.update_self]⟩

theorem Owed.update (h : Owed p workers) (hx : Owes (workers w) → Owes x) :
    Owed p (Function.update workers w x) := by
  obtain ⟨v, hv, hO⟩ := h
  by_cases he : v = w
  · subst v
    exact .new hv (hx hO)
  · exact ⟨v, hv, by rwa [Function.update_of_ne he]⟩

theorem Awaited.advance (h : Awaited p queue pc workers)
    (hpc : (workers w).pc ≠ .sizeTest ∧ (workers w).pc ≠ .notify) :
    Awaited p queue pc (Function.update workers w x) := by
  intro ha
  apply (h ha).imp id
  intro ho
  apply ho.update
  rintro ⟨hs | hn, -⟩
  · exact absurd hs hpc.1
  · exact absurd hn hpc.2

/-- The worker that shortens the queue owes the notification from then on. -/
theorem Awaited.pop (hw : w < p.workers) (f : FlushNVM) (queue' : List FlushNVM) :
    Awaited p queue' pc (Function.update workers w ⟨.sizeTest, f, some f⟩) := by
  intro _
  apply Or.inr
  exact .new hw ⟨Or.inl rfl, Option.some_ne_none f⟩

theorem Awaited.sizeNotify (h : Awaited p queue pc workers) (hpc : x.pc = .notify)
    (hpopped : x.popped = (workers w).popped) :
    Awaited p queue pc (Function.update workers w x) := by
  intro ha
  apply (h ha).imp id
  intro ho
  apply ho.update
  rintro ⟨-, hne⟩
  exact ⟨Or.inr hpc, hpopped ▸ hne⟩

theorem Awaited.moves (h : Awaited p s.queue s.producer s.workers) (hm : Moves p s a t) :
    Awaited p t.queue t.producer t.workers := by
  cases hm with
  | insert key n pc hp hl hpc =>
    rcases hpc with rfl | rfl <;> nofun
  | flush | realloc | finish | push | block | pass | waited | loadTrue | loadFalse | enqueue
  | wake | notifyWake => nofun
  | sleep hp hq =>
    intro _
    exact Or.inl hq
  | take w hw hpc | exit w hw hpc | start w hw hpc | testLeave w hw hpc | testStay w hw hpc
  | loopLeave w hw hpc | loopStay w hw hpc | popNone w hw hpc | run w n hw hpc
  | endRun w hw hpc | clear w hw hpc =>
    exact h.advance (by rw [hpc]; exact ⟨nofun, nofun⟩)
  | pop w f queue hw hpc hq => exact .pop hw f queue
  | sizeNotify w hw hpc hq => exact h.sizeNotify rfl rfl
  | sizeSkip w hw hpc hq =>
    -- the test that skips the notification has just found the queue too long
    intro _
    exact Or.inl hq
  | notify w hw hpc hp =>
    intro ha
    exact absurd ha hp
  | insertNull | reallocKept | pushFull | runFault => exact h

theorem Awaited.stepAny {a : AnyAction} (h : Awaited p s.queue s.producer s.workers)
    (hs : Handoff.stepAny p s a = some t) : Awaited p t.queue t.producer t.workers := by
  cases a with
  | core a => exact h.moves (moves_of_step hs)
  | callThread =>
    obtain ⟨-, ⟨⟩⟩ := Option.ite_none_right_eq_some.mp hs
    exact h
  | survive w =>
    obtain ⟨⟨-, -, hpc⟩, ⟨⟩⟩ := Option.ite_none_right_eq_some.mp hs
    exact h.advance (by rw [hpc]; exact ⟨nofun, nofun⟩)

theorem init_awaited (p : Params) : Awaited p init.queue init.producer init.workers := by
  intro ha
  cases ha

/-- No wake-up is lost: whenever the producer is asleep, the queue is too long for it to go on, or
some `CallThread` has popped an element and has its notification still ahead. -/
theorem wakeUp_not_lost (p : Params) (s : State) (h : Reachable (stepAny p) init s)
    (hasleep : s.producer = .asleep) :
    p.skiplistMaxNum < s.queue.length ∨ ∃ w < p.workers,
      ((s.workers w).pc = .sizeTest ∨ (s.workers w).pc = .notify) ∧
        (s.workers w).popped ≠ none :=
  Reachable.invariant (I := fun s => Awaited p s.queue s.producer s.workers)
    (init_awaited p) (fun _ _ _ h hs => h.stepAny hs) h hasleep

/-- The producer falls asleep on the second list, and a `CallThread` pops the first one. -/
def sleepAndPop : List AnyAction :=
  List.map .core (List.flatten [[.insert [97]], List.replicate 5 .producer, [.insert [98]],
    List.replicate 3 .producer, [.take 0], List.replicate 4 (.worker 0)])

/-- The queue is short again in this state, and the notification is due. -/
theorem wakeUp_not_lost_popped :
    ∃ s : State, s.producer = .asleep ∧ s.queue.length ≤ 1 ∧
      (1 < s.queue.length ∨ ∃ w < 2,
        ((s.workers w).pc = .sizeTest ∨ (s.workers w).pc = .notify) ∧
          (s.workers w).popped ≠ none) := by
  have hrun : (run (stepAny ⟨1, 1, 2⟩) init sleepAndPop).map
      (fun s => (s.producer, s.queue.length)) = some (.asleep, 1) := by
    decide
  obtain ⟨s, hs, he⟩ := Option.map_eq_some_iff.mp hrun
  simp only [Prod.mk.injEq] at he
  exact ⟨s, he.1, he.2.le, wakeUp_not_lost ⟨1, 1, 2⟩ s (Reachable.of_run hs) he.1⟩

end PersistTree.Handoff
