import PersistTree.Handoff.WithLists

/-!
# The loops of the flushing threads

Whatever the schedule, a list that a worker holds has been handed over, so that it is not the one
that is filled. The loop of a `Run` therefore walks along a list that stays as it is, even when
several workers are inside `Run`, and what one iteration keeps of the nodes passed so far holds in
every state.
-/
namespace PersistTree.Handoff

open Library Transition

variable {p : Params} {d : ListParams} {a : Action}

/-- The lists that are queued or held by a worker have been made, and none of them is active. -/
structure HandedOver (s : State) : Prop where
  active : ∀ n, s.skiplist = some n → n < s.made
  queued : ∀ f ∈ s.queue, ∀ n, f.skiplist = some n → n < s.made ∧ s.skiplist ≠ some n
  held : ∀ w n, (s.workers w).flush.skiplist = some n → n < s.made ∧ s.skiplist ≠ some n

section handedOver

variable {s t : State} {w : ℕ}

theorem init_handedOver : HandedOver init where
  active n hn := by
    cases hn
    exact Nat.one_pos
  queued := nofun
  held := nofun

theorem HandedOver.setWorker {x : Worker} (h : HandedOver s)
    (hx : ∀ n, x.flush.skiplist = some n → n < s.made ∧ s.skiplist ≠ some n) :
    HandedOver (s.setWorker w x) where
  active := h.active
  queued := h.queued
  held v n hn := by
    have hn : ((Function.update s.workers w x) v).flush.skiplist = some n := hn
    by_cases hv : v = w
    · rw [hv, Function.update_self] at hn
      exact hx n hn
    · rw [Function.update_of_ne hv] at hn
      exact h.held v n hn

theorem HandedOver.setPc (h : HandedOver s) (w : ℕ) (pc : WorkerPc) : HandedOver (s.setPc w pc) :=
  h.setWorker (h.held w)

theorem HandedOver.moves (h : HandedOver s) (hm : Moves p s a t) : HandedOver t := by
  cases hm with
  | insertNull | insert | flush | reallocKept | finish | pushFull | block | pass | waited | sleep
  | loadTrue | loadFalse | enqueue | wake | runFault => exact ⟨h.active, h.queued, h.held⟩
  | realloc _ hp hl =>
    -- the new list has a new number
    refine ⟨fun n hn => ?_, fun f hf n hn => ?_, fun w n hn => ?_⟩
    · cases hn
      exact Nat.lt_succ_self _
    · have hlt := (h.queued f hf n hn).1
      exact ⟨hlt.trans (Nat.lt_succ_self _), fun he => hlt.ne (Option.some.inj he).symm⟩
    · have hlt := (h.held w n hn).1
      exact ⟨hlt.trans (Nat.lt_succ_self _), fun he => hlt.ne (Option.some.inj he).symm⟩
  | push hp hq =>
    refine ⟨nofun, fun f hf n hn => ⟨?_, nofun⟩, fun w n hn => ⟨(h.held w n hn).1, nofun⟩⟩
    rcases List.mem_append.mp hf with hf | hf
    · exact (h.queued f hf n hn).1
    · rw [List.mem_singleton.mp hf] at hn
      exact h.active n hn
  | take w hw hpc hn =>
    have h' := h.setWorker (w := w) (x := ⟨.start, ⟨none⟩, none⟩) nofun
    exact ⟨h'.active, h'.queued, h'.held⟩
  | pop w f queue hw hpc hq =>
    have h' := h.setWorker (w := w) (x := ⟨.sizeTest, f, some f⟩) (h.queued f (by simp [hq]))
    exact ⟨h'.active, fun g hg => h.queued g (by simp [hq, hg]), h'.held⟩
  | loopLeave w | loopStay w => exact h.setWorker (h.held w)
  | exit w | testLeave w | testStay w | popNone w | sizeNotify w | sizeSkip w | notify w =>
    exact h.setPc w _
  | start w =>
    have h' := h.setPc w .testEmpty
    exact ⟨h'.active, h'.queued, h'.held⟩
  | notifyWake w =>
    have h' := h.setPc w .run
    exact ⟨h'.active, h'.queued, h'.held⟩
  | run w =>
    have h' := h.setPc w .inRun
    exact ⟨h'.active, h'.queued, h'.held⟩
  | endRun w =>
    have h' := h.setPc w .loopTest
    exact ⟨h'.active, h'.queued, h'.held⟩
  | clear w =>
    have h' := h.setPc w .idle
    exact ⟨h'.active, h'.queued, h'.held⟩

end handedOver

variable {s t : ListState} {list : MemorySkipList} {loop : RunLoop} {P Q : List ℕ} {y n w : ℕ}
  {R : MemorySkipList → RunLoop → List ℕ → Prop}

/-- The loop of a `Run` has passed the nodes `P` of its list, of which `R` holds. -/
structure Passing (R : MemorySkipList → RunLoop → List ℕ → Prop) (list : MemorySkipList)
    (loop : RunLoop) (P Q : List ℕ) : Prop where
  chain : Chain (list.nodes.next 0) list.head (P ++ Q)
  start : loop.start = Q.head?
  passed : R list loop P

theorem Passing.cons (h : Passing R list loop P Q) (hy : loop.start = some y) :
    ∃ Q', Q = y :: Q' ∧ list.nodes.next 0 y = some Q'.head? := by
  obtain ⟨hchain, hstart, -⟩ := h
  cases Q with
  | nil =>
    rw [hy] at hstart
    cases hstart
  | cons z Q =>
    obtain rfl : y = z := Option.some.inj (hy.symm.trans hstart)
    refine ⟨Q, rfl, ?_⟩
    have hsuffix := hchain.suffix
    cases hsuffix with
    | cons _ ht => exact ht.next_eq

theorem iterate_next {junk : ℕ → List UInt8} {env : ℕ → Env} {st st' : FlushState} {next : Ptr}
    (h : iterate list junk env y st = .ok (next, st')) : list.nodes.next 0 y = some next := by
  obtain ⟨buffer, -, h⟩ := bind_eq_ok.mp h
  obtain ⟨nvm, -, h⟩ := bind_eq_ok.mp h
  obtain ⟨next', hnext, h⟩ := bind_eq_ok.mp h
  cases h
  exact deref_eq_ok.mp hnext

/-- Every worker inside `Run` is on its way along the list that it holds. -/
def Looping (R : MemorySkipList → RunLoop → List ℕ → Prop) (s : ListState) : Prop :=
  ∀ w n, (s.core.workers w).pc = .inRun → (s.core.workers w).flush.skiplist = some n →
    ∃ P Q, Passing R (s.lists n) (s.loops w) P Q

theorem Looping.congr (h : Looping R s) {core : State}
    (hworkers : ∀ v, (core.workers v).pc = .inRun → core.workers v = s.core.workers v) :
    Looping R { s with core := core } := by
  intro v m hpc hm
  have he := hworkers v hpc
  rw [he] at hpc hm
  exact h v m hpc hm

theorem Looping.update (h : Looping R s) {x : RunLoop}
    (hx : ∀ n, (s.core.workers w).pc = .inRun → (s.core.workers w).flush.skiplist = some n →
      ∃ P Q, Passing R (s.lists n) x P Q) (nvm : PersistentSkipList) :
    Looping R { s with nvm := nvm, loops := Function.update s.loops w x } := by
  intro v m hpc hm
  by_cases hv : v = w
  · subst v
    simp only [Function.update_self]
    exact hx m hpc hm
  · simp only [Function.update_of_ne hv]
    exact h v m hpc hm

theorem Looping.enter (h : Looping R s) {core : State} {L : List ℕ}
    (hn : (s.core.workers w).flush.skiplist = some n)
    (hworkers : core.workers =
      Function.update s.core.workers w { s.core.workers w with pc := .inRun })
    (hchain : Chain ((s.lists n).nodes.next 0) (s.lists n).head L)
    (hnext : (s.lists n).nodes.next 0 (s.lists n).head = some (some y))
    (hR : R (s.lists n) ⟨some y, (0, 0), []⟩ []) :
    Looping R { s with
      core := core
      loops := Function.update s.loops w ⟨some y, (0, 0), []⟩ } := by
  intro v m hpc hm
  simp only [hworkers] at hpc hm
  by_cases hv : v = w
  · subst v
    rw [Function.update_self] at hm
    obtain rfl : n = m := Option.some.inj (hn.symm.trans hm)
    simp only [Function.update_self]
    exact ⟨[], L, hchain, Option.some.inj (hnext.symm.trans hchain.next_eq), hR⟩
  · simp only [Function.update_of_ne hv] at hpc hm ⊢
    exact h v m hpc hm

theorem Looping.insert (h : Looping R s) (hover : HandedOver s.core) {core : State} {key : Key}
    (hm : Moves d.toParams s.core (.insert key) core) (hn : s.core.skiplist = some n)
    (list : MemorySkipList) (inserted : List Key) :
    Looping R { s with
      core := core
      lists := Function.update s.lists n list
      inserted := inserted } := by
  intro v m hpc hflush
  simp only [hm.insert_workers.1] at hpc hflush
  have hmn : m ≠ n := fun hmn => (hover.held v m hflush).2 (hmn ▸ hn)
  simp only [Function.update_of_ne hmn]
  exact h v m hpc hflush

/-- `R` is kept if it holds where a loop starts and an iteration keeps it. -/
theorem Looping.step {a : ListAction} (h : Looping R s) (hover : HandedOver s.core)
    (hchain : ∀ n, ∃ L, Chain ((s.lists n).nodes.next 0) (s.lists n).head L)
    (hstart : ∀ list y, R list ⟨some y, (0, 0), []⟩ [])
    (hcopy : ∀ w n y P Q next st, Passing R (s.lists n) (s.loops w) P (y :: Q) →
      iterate (s.lists n) (d.junk n) d.env y ⟨s.nvm, (s.loops w).last, (s.loops w).reports⟩ =
        .ok (next, st) → R (s.lists n) ⟨next, st.last, st.reports⟩ (P ++ [y]))
    (hm : ListMoves d s a t) (hf : t.fault = none) (hcore : t.core.fault = none) :
    Looping R t := by
  cases hm with
  | insertFault | copyFault | enterFault => cases hf
  | insertNull _ _ _ hne | coreFault _ _ _ _ hne => exact absurd hcore hne
  | insert c core n list hstep hn hlist => exact h.insert hover (moves_of_step hstep) hn _ _
  | copy w n y next st hw hpc hn hy hstep =>
    refine h.update (fun m _ hflush => ?_) st.nvm
    obtain rfl : n = m := Option.some.inj (hn.symm.trans hflush)
    obtain ⟨P, Q, hpass⟩ := h w n hpc hn
    obtain ⟨Q, rfl, hnext⟩ := hpass.cons hy
    refine ⟨P ++ [y], Q, ?_, ?_, hcopy w n y P Q next st hpass hstep⟩
    · rw [List.append_assoc]
      exact hpass.chain
    · exact Option.some.inj ((iterate_next hstep).symm.trans hnext)
  | enter w n y core hstep hw hpc hn hruns hworkers hnext =>
    obtain ⟨L, hL⟩ := hchain n
    exact h.enter hn hworkers hL hnext (hstart _ _)
  | leave w core hstep hw hpc hstart hruns hworkers =>
    refine h.congr fun v hv => ?_
    by_cases hvw : v = w
    · subst v
      rw [hworkers, Function.update_self] at hv
      cases hv
    · rw [hworkers, Function.update_of_ne hvw]
  | other b core hb hstep hruns hworkers =>
    exact h.congr fun v hv => (hworkers v).2 ((hworkers v).1.mp hv)

end PersistTree.Handoff
