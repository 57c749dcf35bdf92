import PersistTree.Handoff.Model

/-!
# Queue accounting

`block_skiplist_num_` counts the queued lists, and the producer never leaves more than
`skiplist_max_num_` of them behind when it returns from `Flush`. Neither depends on how the flushing
threads are scheduled, so the system here is larger than the hand-off itself: `CallThread` may also
be started from elsewhere, and a `Run` on a wrong object may go unnoticed.
-/
namespace PersistTree.Handoff

open Transition

inductive AnyAction where
  | core (a : Action)
  /-- Somebody else asks the pool for a `CallThread`. -/
  | callThread
  /-- The `Run` of worker `w` returns without effect, whatever its object is. -/
  | survive (w : ℕ)
  deriving DecidableEq, Repr

def stepAny (p : Params) (s : State) : AnyAction → Option State
  | .core a => step p s a
  | .callThread => if s.fault = none then some { s with pending := s.pending + 1 } else none
  | .survive w =>
    if s.fault = none ∧ w < p.workers ∧ (s.workers w).pc = .run then some (s.setPc w .loopTest)
    else none

/-- The producer has pushed a list and not yet found the queue short enough. -/
def Overfull : ProducerPc → Prop
  | .blockTest | .wait | .asleep => True
  | _ => False

/-- The counter is exact, and the queue holds at most one list more than it should while the
producer is waiting. -/
structure Accounted (max : ℕ) (queue : List FlushNVM) (block : ℕ) (pc : ProducerPc) : Prop where
  block_eq : block = queue.length
  fits : queue.length ≤ queueMaxSize
  le_succ : queue.length ≤ max + 1
  le : ¬Overfull pc → queue.length ≤ max

variable {p : Params} {s t : State} {a : Action} {max block : ℕ} {queue : List FlushNVM}
  {pc : ProducerPc}

theorem Accounted.push (h : Accounted max queue block .push) (hq : queue.length < queueMaxSize)
    (f : FlushNVM) : Accounted max (queue ++ [f]) ((block + 1) % 2 ^ 64) .blockTest where
  block_eq := by
    have hmax : queueMaxSize < 2 ^ 64 := by decide
    rw [h.block_eq, List.length_append, List.length_singleton]
    exact Nat.mod_eq_of_lt (by omega)
  fits := by
    rw [List.length_append, List.length_singleton]
    exact hq
  le_succ := by
    rw [List.length_append, List.length_singleton]
    exact Nat.succ_le_succ (h.le id)
  le := fun hpc => absurd trivial hpc

/-- The counter does not underflow: it counts the list that is taken. -/
theorem Accounted.pop {f : FlushNVM} (h : Accounted max (f :: queue) block pc) :
    Accounted max queue ((block + (2 ^ 64 - 1)) % 2 ^ 64) pc := by
  have hfits := h.fits
  have hsucc := h.le_succ
  have hle := h.le
  rw [List.length_cons] at hfits hsucc hle
  have hmax : queueMaxSize < 2 ^ 64 := by decide
  constructor
  · rw [h.block_eq, List.length_cons]
    omega
  · omega
  · omega
  · intro hpc
    have := hle hpc
    omega

theorem Accounted.goTo (h : Accounted max queue block pc) {pc' : ProducerPc}
    (hle : ¬Overfull pc' → queue.length ≤ max) : Accounted max queue block pc' :=
  ⟨h.block_eq, h.fits, h.le_succ, hle⟩

theorem Accounted.moves
    (h : Accounted p.skiplistMaxNum s.queue s.blockSkiplistNum s.producer) (hm : Moves p s a t) :
    Accounted p.skiplistMaxNum t.queue t.blockSkiplistNum t.producer := by
  cases hm with
  | insert key n pc hp hl hpc =>
    rw [hp] at h
    exact h.goTo fun _ => h.le id
  | flush hp =>
    rw [hp] at h
    exact h.goTo fun _ => h.le id
  | realloc a hp hl =>
    apply h.goTo
    intro _
    apply h.le
    rcases hp with ⟨-, hp⟩ | ⟨-, hp⟩ <;> rw [hp] <;> exact id
  | finish hp =>
    rw [hp] at h
    exact h.goTo fun _ => h.le id
  | push hp hq =>
    rw [hp] at h
    exact h.push hq _
  | block hp hb => exact h.goTo fun hpc => absurd trivial hpc
  | pass hp hb => exact h.goTo fun _ => h.block_eq ▸ hb
  | waited hp hq => exact h.goTo fun _ => hq
  | sleep hp hq => exact h.goTo fun hpc => absurd trivial hpc
  | loadTrue hp hr =>
    rw [hp] at h
    exact h.goTo fun _ => h.le id
  | loadFalse hp hr =>
    rw [hp] at h
    exact h.goTo fun _ => h.le id
  | enqueue hp =>
    rw [hp] at h
    exact h.goTo fun _ => h.le id
  | wake hp => exact h.goTo fun hpc => absurd trivial hpc
  | pop w f queue hw hpc hq =>
    rw [hq] at h
    exact h.pop
  | notifyWake w hw hpc hp => exact h.goTo fun hpc => absurd trivial hpc
  | _ => exact h

theorem Accounted.stepAny {a : AnyAction}
    (h : Accounted p.skiplistMaxNum s.queue s.blockSkiplistNum s.producer)
    (hs : Handoff.stepAny p s a = some t) :
    Accounted p.skiplistMaxNum t.queue t.blockSkiplistNum t.producer := by
  cases a with
  | core a => exact h.moves (moves_of_step hs)
  | callThread =>
    obtain ⟨-, ⟨⟩⟩ := Option.ite_none_right_eq_some.mp hs
    exact h
  | survive w =>
    obtain ⟨-, ⟨⟩⟩ := Option.ite_none_right_eq_some.mp hs
    exact h

theorem init_accounted (p : Params) :
    Accounted p.skiplistMaxNum init.queue init.blockSkiplistNum init.producer :=
  ⟨rfl, Nat.zero_le _, Nat.zero_le _, fun _ => Nat.zero_le _⟩

/-- In every reachable state the counter is the length of the queue, so that it is positive whenever
a list can be taken, and the queue is as short as the producer's place in `Flush` promises. -/
theorem queue_accounting (p : Params) (s : State) (h : Reachable (stepAny p) init s) :
    s.blockSkiplistNum = s.queue.length ∧ (s.queue ≠ [] → 0 < s.blockSkiplistNum) ∧
      s.queue.length ≤ p.skiplistMaxNum + 1 ∧
      (s.producer = .idle ∨ s.producer = .done → s.queue.length ≤ p.skiplistMaxNum) := by
  have hI : Accounted p.skiplistMaxNum s.queue s.blockSkiplistNum s.producer :=
    Reachable.invariant
      (I := fun s => Accounted p.skiplistMaxNum s.queue s.blockSkiplistNum s.producer)
      (init_accounted p) (fun _ _ _ h hs => h.stepAny hs) h
  refine ⟨hI.block_eq, ?_, hI.le_succ, ?_⟩
  · intro hne
    rw [hI.block_eq]
    exact List.length_pos_of_ne_nil hne
  · intro hpc
    apply hI.le
    rcases hpc with hpc | hpc <;> rw [hpc] <;> exact id

/-- A `Flush` that has pushed the second list of a queue for one, with a `CallThread` pending. -/
theorem queue_accounting_full :
    ∃ s : State, s.producer = .asleep ∧
      s.blockSkiplistNum = s.queue.length ∧ (s.queue ≠ [] → 0 < s.blockSkiplistNum) ∧
      s.queue.length ≤ 1 + 1 ∧
      (s.producer = .idle ∨ s.producer = .done → s.queue.length ≤ 1) := by
  have hrun : (run (stepAny ⟨1, 8, 2⟩) init
      ([.flush, .producer, .producer, .producer, .producer, .producer, .flush, .producer,
        .producer, .producer].map AnyAction.core)).map State.producer = some .asleep := by
    decide
  obtain ⟨s, hs, hpc⟩ := Option.map_eq_some_iff.mp hrun
  exact ⟨s, hpc, queue_accounting ⟨1, 8, 2⟩ s (Reachable.of_run hs)⟩

end PersistTree.Handoff
