import PersistTree.Buffer.Equivalence
import PersistTree.Handoff.SingleWriter

/-!
# The hand-off with its lists

The hand-off knows a DRAM list by its number and its keys. Here `Insert` fills the DRAM lists
themselves, and a `Run` moves the keys of one of them to the NVM list, one key at a time; between
two keys the producer and the other workers may go on. As long as every `CallThread` is enqueued
alone, the NVM list is at any time what the lists flushed so far give when they are flushed one
after the other, in the order in which they were made.
-/
namespace PersistTree.Handoff

open Library Transition

/-- The hand-off's parameters and those of the lists. Behind the key buffers of DRAM list `n` are
the bytes `junk n`, and `env` is what the insertion that makes an NVM node meets. -/
structure ListParams extends Params where
  dramMaxHeight : ℕ
  keySize : ℕ
  nvm : PersistentSkipList
  junk : ℕ → ℕ → List UInt8
  env : ℕ → Env

structure RunLoop where
  start : Ptr
  last : ℕ × ℕ
  reports : List Bool

structure ListState where
  core : State
  /-- The DRAM lists by their numbers; a list that is not made yet is as the constructor will leave
  it. -/
  lists : ℕ → MemorySkipList
  nvm : PersistentSkipList
  /-- The `Run` that each worker is in. -/
  loops : ℕ → RunLoop
  /-- The keys of all calls of `Insert`. -/
  inserted : List Key
  fault : Option Fault

inductive ListAction where
  /-- The producer calls `Insert`. -/
  | insert (c : Call)
  /-- Worker `w`, inside `Run`, moves one key to the NVM list. -/
  | copy (w : ℕ)
  /-- Any other step of the hand-off. -/
  | core (a : Action)

def listInit (d : ListParams) : ListState where
  core := init
  lists := fun _ => MemorySkipList.new d.dramMaxHeight d.keySize
  nvm := d.nvm
  loops := fun _ => ⟨none, (0, 0), []⟩
  inserted := []
  fault := none

namespace ListState

def raise (s : ListState) (e : Fault) : ListState := { s with fault := some e }

end ListState

def listInsert (d : ListParams) (s : ListState) (c : Call) : Option ListState :=
  (step d.toParams s.core (.insert c.key)).map fun core =>
    let t := { s with core := core, inserted := s.inserted ++ [c.key] }
    match s.core.skiplist with
    | none => t
    | some n =>
      match (s.lists n).insert c with
      | .ok list => { t with lists := Function.update s.lists n list }
      | .error e => t.raise e

def iterate (list : MemorySkipList) (junk : ℕ → List UInt8) (env : ℕ → Env) (start : ℕ)
    (st : FlushState) : Except Fault (Ptr × FlushState) := do
  let buffer ← deref (list.keyAt start)
  let key := cString (buffer ++ junk start)
  let printed := printKey key st.last
  let nvm ← st.nvm.insert ⟨env st.nvm.nodes.length, key⟩
  let next ← deref (list.nodes.next 0 start)
  return (next,
    { nvm := nvm, last := printed.1, reports := st.reports ++ [printed.2] })

/-- Worker `w` executes an iteration, if its loop is not at its end. -/
def listCopy (d : ListParams) (s : ListState) (w : ℕ) : Option ListState :=
  let loop := s.loops w
  match (s.core.workers w).flush.skiplist, loop.start with
  | some n, some start =>
    if n ∈ s.core.deleted then some (s.raise .useAfterFree)
    else match iterate (s.lists n) (d.junk n) d.env start ⟨s.nvm, loop.last, loop.reports⟩ with
      | .ok (next, st) => some { s with
          nvm := st.nvm
          loops := Function.update s.loops w ⟨next, st.last, st.reports⟩ }
      | .error e => some (s.raise e)
  | _, _ => none

/-- Worker `w` has entered `Run` on list `n`: `start = head->Next(0)`, which must not be null. -/
def enterLoop (s : ListState) (w n : ℕ) : ListState :=
  match (s.lists n).nodes.next 0 (s.lists n).head with
  | none => s.raise .badAccess
  | some none => s.raise .assertion
  | some (some y) => { s with loops := Function.update s.loops w ⟨some y, (0, 0), []⟩ }

/-- Worker `w` has moved; if it is inside `Run` now, its loop starts. -/
def workerMoved (s : ListState) (w : ℕ) (core : State) : ListState :=
  match (core.workers w).pc, (core.workers w).flush.skiplist with
  | .inRun, some n => enterLoop { s with core := core } w n
  | _, _ => { s with core := core }

/-- A step of the `CallThread` on worker `w`. It leaves `Run` when its loop is at its end. -/
def listWorker (d : ListParams) (s : ListState) (w : ℕ) : Option ListState :=
  if (s.core.workers w).pc = .inRun ∧ (s.loops w).start ≠ none then none
  else (step d.toParams s.core (.worker w)).map (workerMoved s w)

def listStep (d : ListParams) (s : ListState) (a : ListAction) : Option ListState :=
  if s.fault.isSome ∨ s.core.fault.isSome then none else
  match a with
  | .insert c => listInsert d s c
  | .copy w => if w < d.workers ∧ (s.core.workers w).pc = .inRun then listCopy d s w else none
  | .core (.insert _) => none
  | .core (.worker w) => listWorker d s w
  | .core a => (step d.toParams s.core a).map fun core => { s with core := core }

section runFrom

variable {list : MemorySkipList} {junk : ℕ → List UInt8} {env : ℕ → Env} {start : Ptr} {x y : ℕ}
  {st r : FlushState} {fuel : ℕ}

theorem runFrom_succ (fuel : ℕ) :
    PersistTree.FlushNVM.runFrom list junk env (fuel + 1) (some y) st =
      iterate list junk env y st >>= fun r =>
        PersistTree.FlushNVM.runFrom list junk env fuel r.1 r.2 := by
  simp only [PersistTree.FlushNVM.runFrom, iterate, bind_assoc, pure_bind]

/-- A loop that comes to its end has walked along a chain, and more fuel does not change it. -/
theorem runFrom_chain (hx : list.nodes.next 0 x = some start)
    (h : PersistTree.FlushNVM.runFrom list junk env fuel start st = .ok r) :
    ∃ l, Chain (list.nodes.next 0) x l ∧ ∀ fuel', l.length < fuel' →
      PersistTree.FlushNVM.runFrom list junk env fuel' start st = .ok r := by
  induction fuel generalizing x start st with
  | zero => cases h
  | succ fuel ih =>
    cases start with
    | none =>
      refine ⟨[], .nil hx, fun fuel' hf => ?_⟩
      obtain ⟨fuel', rfl⟩ : ∃ k, fuel' = k + 1 := ⟨fuel' - 1, by simp at hf; omega⟩
      exact h
    | some y =>
      rw [runFrom_succ] at h
      obtain ⟨⟨next, st'⟩, hstep, h⟩ := bind_eq_ok.mp h
      have hread := hstep
      obtain ⟨buffer, -, hread⟩ := bind_eq_ok.mp hread
      obtain ⟨nvm, -, hread⟩ := bind_eq_ok.mp hread
      obtain ⟨next', hnext, hread⟩ := bind_eq_ok.mp hread
      cases hread
      obtain ⟨l, hl, hmore⟩ := ih (deref_eq_ok.mp hnext) h
      refine ⟨y :: l, .cons hx hl, fun fuel' hf => ?_⟩
      rw [List.length_cons] at hf
      obtain ⟨fuel', rfl⟩ : ∃ k, fuel' = k + 1 := ⟨fuel' - 1, by omega⟩
      rw [runFrom_succ, hstep, ok_bind]
      exact hmore fuel' (by omega)

/-- The fuel of `Run` is enough for every loop that comes to its end. -/
theorem run_eq_ok {nvm : PersistentSkipList}
    (hx : list.nodes.next 0 list.head = some (some y))
    (h : PersistTree.FlushNVM.runFrom list junk env fuel (some y) ⟨nvm, (0, 0), []⟩ = .ok r) :
    (PersistTree.FlushNVM.mk (some list)).run junk env nvm = .ok r.nvm := by
  obtain ⟨l, hl, hmore⟩ := runFrom_chain hx h
  simp only [PersistTree.FlushNVM.run, hx, deref_some, ok_bind,
    hmore (list.nodes.length + 1) (Nat.lt_succ_of_le (Arena.chain_length_le hl)), pure_eq_ok]

end runFrom

theorem runAll_concat (junk : ℕ → ℕ → List UInt8) (env : ℕ → Env) (k : ℕ)
    (queue : List PersistTree.FlushNVM) (f : PersistTree.FlushNVM) (nvm : PersistentSkipList) :
    PersistTree.FlushNVM.runAll junk env k (queue ++ [f]) nvm =
      PersistTree.FlushNVM.runAll junk env k queue nvm >>= f.run (junk (k + queue.length)) env := by
  induction queue generalizing k nvm with
  | nil => exact bind_pure _
  | cons g queue ih =>
    simp only [List.cons_append, PersistTree.FlushNVM.runAll, ih, bind_assoc, List.length_cons,
      Nat.add_right_comm, Nat.add_assoc]

section inRun

variable {p : Params} {s t : State} {a : Action} {v w : ℕ}

/-- What a step is for the workers inside `Run`: one of them enters, or leaves and has deleted its
list, or nothing changes for them. -/
inductive RunMoves (p : Params) (s : State) (a : Action) (t : State) : Prop
  | enter (w n : ℕ) (ha : a = .worker w) (hw : w < p.workers) (hpc : (s.workers w).pc = .run)
      (hf : (s.workers w).flush.skiplist = some n)
      (hruns : t.runs = s.runs ++ [⟨(s.workers w).flush, (s.workers w).popped⟩])
      (hworkers : t.workers = Function.update s.workers w { s.workers w with pc := .inRun })
      (hdeleted : t.deleted = s.deleted)
  | leave (w : ℕ) (ha : a = .worker w) (hw : w < p.workers) (hpc : (s.workers w).pc = .inRun)
      (hruns : t.runs = s.runs)
      (hworkers : t.workers = Function.update s.workers w { s.workers w with pc := .loopTest })
      (hdeleted : t.deleted = (s.workers w).flush.skiplist.toList ++ s.deleted)
  | other (hruns : t.runs = s.runs)
      (hworkers : ∀ v, ((t.workers v).pc = .inRun ↔ (s.workers v).pc = .inRun) ∧
        ((s.workers v).pc = .inRun → t.workers v = s.workers v))
      (hself : ∀ w, a = .worker w → (t.workers w).pc ≠ .inRun)
      (hdeleted : t.deleted = s.deleted)

theorem RunMoves.update {x : Worker} (hruns : t.runs = s.runs)
    (hworkers : t.workers = Function.update s.workers w x) (hold : (s.workers w).pc ≠ .inRun)
    (hnew : x.pc ≠ .inRun) (ha : ∀ v, a = .worker v → v = w) (hdeleted : t.deleted = s.deleted) :
    RunMoves p s a t := by
  refine .other hruns (fun v => ?_) (fun v hv => ?_) hdeleted
  · by_cases he : v = w
    · subst v
      rw [hworkers, Function.update_self]
      exact ⟨⟨fun h => absurd h hnew, fun h => absurd h hold⟩, fun h => absurd h hold⟩
    · rw [hworkers, Function.update_of_ne he]
      exact ⟨Iff.rfl, fun _ => rfl⟩
  · rw [ha v hv, hworkers, Function.update_self]
    exact hnew

theorem Moves.runMoves (hm : Moves p s a t) (hf : t.fault = none) : RunMoves p s a t := by
  cases hm with
  | insertNull | reallocKept | pushFull | runFault => cases hf
  | realloc a hp hl =>
    refine .other rfl (fun _ => ⟨Iff.rfl, fun _ => rfl⟩) ?_ rfl
    rintro w rfl
    obtain ⟨he, -⟩ | ⟨he, -⟩ := hp <;> cases he
  | insert | flush | finish | push | block | pass | waited | sleep | loadTrue | loadFalse
  | enqueue | wake =>
    exact .other rfl (fun _ => ⟨Iff.rfl, fun _ => rfl⟩) (by simp) rfl
  | run w n hw hpc hskip hd hk => exact .enter w n rfl hw hpc hskip rfl rfl rfl
  | endRun w hw hpc => exact .leave w rfl hw hpc rfl rfl rfl
  | take w hw hpc hn | exit w hw hpc hs hn =>
    exact .update rfl rfl (by rw [hpc]; simp) (by simp) (by simp) rfl
  | start w hw hpc | testLeave w hw hpc hq | testStay w hw hpc hq | loopLeave w hw hpc hq
  | loopStay w hw hpc hq | popNone w hw hpc hq | pop w f queue hw hpc hq | sizeNotify w hw hpc hq
  | sizeSkip w hw hpc hq | notify w hw hpc hp | notifyWake w hw hpc hp | clear w hw hpc =>
    exact .update rfl rfl (by rw [hpc]; simp) (by simp) (by simp) rfl

theorem Moves.insert_workers {key : Key} (hm : Moves p s (.insert key) t) :
    t.workers = s.workers ∧ t.runs = s.runs := by
  cases hm with
  | insertNull | insert => exact ⟨rfl, rfl⟩
  | reallocKept _ n hp hl | realloc _ hp hl => obtain ⟨he, -⟩ | ⟨he, -⟩ := hp <;> cases he

theorem Moves.insert_null {key : Key} (hm : Moves p s (.insert key) t) (hn : s.skiplist = none) :
    t.fault ≠ none := by
  cases hm with
  | insertNull => nofun
  | insert _ n _ _ hl =>
    rw [hn] at hl
    cases hl
  | reallocKept _ n hp hl | realloc _ hp hl => obtain ⟨he, -⟩ | ⟨he, -⟩ := hp <;> cases he

theorem Moves.not_inRun (hm : Moves p s (.worker w) t) (hs : s.fault = none)
    (hf : t.fault ≠ none) : (t.workers w).pc ≠ .inRun := by
  cases hm with
  | reallocKept _ n hp hl | realloc _ hp hl => obtain ⟨he, -⟩ | ⟨he, -⟩ := hp <;> cases he
  | runFault _ e hw hpc =>
    rw [show (s.workers w).pc = _ from hpc]
    nofun
  | _ => exact absurd hs hf

theorem Sequential.inRun (hs : Sequential p s) (hw : w < p.workers)
    (hpc : (s.workers w).pc = .inRun) (hv : v < p.workers) (hin : (s.workers v).pc = .inRun) :
    v = w :=
  hs.1.unique v hv w hw (by rw [hin]; trivial) (by rw [hpc]; trivial)

theorem Sequential.enter (hs : Sequential p s) (hf : s.fault = none) (hw : w < p.workers)
    (hpc : (s.workers w).pc = .run) :
    (s.workers w).flush = holding s.runs.length ∧
      ∀ v < p.workers, (s.workers v).pc ≠ .inRun := by
  obtain ⟨hsingle, next, horder⟩ := hs
  rw [hf] at horder
  refine ⟨congrArg RunRecord.flush (horder.record hsingle hw hpc).1, fun v hv hin => ?_⟩
  obtain rfl := hsingle.unique v hv w hw (by rw [hin]; trivial) (by rw [hpc]; trivial)
  rw [hpc] at hin
  cases hin

end inRun

variable {d : ListParams} {s t : ListState} {w k : ℕ}

def flushed (s : ListState) (k : ℕ) : List PersistTree.FlushNVM :=
  (List.range k).map fun n => ⟨some (s.lists n)⟩

/-- Flushing the first `k` lists one after the other ends in `nvm`. -/
def RunsTo (d : ListParams) (s : ListState) (k : ℕ) (nvm : PersistentSkipList) : Prop :=
  PersistTree.FlushNVM.runAll d.junk d.env 0 (flushed s k) d.nvm = .ok nvm

/-- Worker `w` is inside the `Run` of list `k`: wherever its loop ends from here, the loop from the
first key on ends too. -/
structure Midway (d : ListParams) (s : ListState) (w k : ℕ) : Prop where
  flush : (s.core.workers w).flush = holding k
  runs : s.core.runs.length = k + 1
  loop : ∃ nvm y, RunsTo d s k nvm ∧
    (s.lists k).nodes.next 0 (s.lists k).head = some (some y) ∧
    ∀ fuel r, PersistTree.FlushNVM.runFrom (s.lists k) (d.junk k) d.env fuel (s.loops w).start
        ⟨s.nvm, (s.loops w).last, (s.loops w).reports⟩ = .ok r →
      ∃ fuel', PersistTree.FlushNVM.runFrom (s.lists k) (d.junk k) d.env fuel' (some y)
        ⟨nvm, (0, 0), []⟩ = .ok r

/-- The NVM list is what the flushed lists give, or a worker is on its way there. -/
structure Merged (d : ListParams) (s : ListState) : Prop where
  quiet : (∀ w < d.workers, (s.core.workers w).pc ≠ .inRun) →
    RunsTo d s s.core.runs.length s.nvm
  midway : ∀ w < d.workers, (s.core.workers w).pc = .inRun → ∃ k, Midway d s w k

theorem RunsTo.congr {nvm : PersistentSkipList} (h : RunsTo d s k nvm)
    (hlists : ∀ n < k, t.lists n = s.lists n) : RunsTo d t k nvm := by
  have hsame : flushed t k = flushed s k :=
    List.map_congr_left fun n hn => by rw [hlists n (List.mem_range.mp hn)]
  rw [RunsTo, hsame]
  exact h

theorem RunsTo.succ {nvm nvm' : PersistentSkipList} (h : RunsTo d s k nvm)
    (hrun : (PersistTree.FlushNVM.mk (some (s.lists k))).run (d.junk k) d.env nvm = .ok nvm') :
    RunsTo d s (k + 1) nvm' := by
  have hlen : (flushed s k).length = k := by rw [flushed, List.length_map, List.length_range]
  rw [RunsTo, flushed, List.range_succ, List.map_append]
  refine (runAll_concat d.junk d.env 0 (flushed s k) _ d.nvm).trans ?_
  rw [show _ = _ from h, ok_bind, hlen, Nat.zero_add]
  exact hrun

theorem Merged.congr (h : Merged d s) (hruns : t.core.runs = s.core.runs)
    (hworkers : ∀ v, ((t.core.workers v).pc = .inRun ↔ (s.core.workers v).pc = .inRun) ∧
      ((s.core.workers v).pc = .inRun → t.core.workers v = s.core.workers v))
    (hlists : ∀ n < s.core.runs.length, t.lists n = s.lists n) (hnvm : t.nvm = s.nvm)
    (hloops : t.loops = s.loops) : Merged d t where
  quiet hquiet := by
    rw [hruns, hnvm]
    refine (h.quiet fun w hw hpc => hquiet w hw ((hworkers w).1.mpr hpc)).congr hlists
  midway w hw hpc := by
    have hpc := (hworkers w).1.mp hpc
    obtain ⟨k, hflush, hlen, nvm, y, hto, hnext, hloop⟩ := h.midway w hw hpc
    have hk : t.lists k = s.lists k := hlists k (by omega)
    refine ⟨k, ?_, by rw [hruns, hlen], nvm, y, hto.congr fun n hn => hlists n (by omega), ?_, ?_⟩
    · rw [(hworkers w).2 hpc]
      exact hflush
    · rw [hk]
      exact hnext
    · rw [hk, hnvm, hloops]
      exact hloop

theorem listInit_merged (d : ListParams) : Merged d (listInit d) where
  quiet _ := rfl
  midway _ _ h := by cases h

theorem Merged.enter (h : Merged d s) (hs : Sequential d.toParams s.core)
    (hf : s.core.fault = none) {core : State} {n y : ℕ} (hw : w < d.workers)
    (hpc : (s.core.workers w).pc = .run) (hn : (s.core.workers w).flush.skiplist = some n)
    (hruns : core.runs = s.core.runs ++ [⟨(s.core.workers w).flush, (s.core.workers w).popped⟩])
    (hworkers : core.workers =
      Function.update s.core.workers w { s.core.workers w with pc := .inRun })
    (hnext : (s.lists n).nodes.next 0 (s.lists n).head = some (some y)) :
    Merged d { s with
      core := core
      loops := Function.update s.loops w ⟨some y, (0, 0), []⟩ } := by
  obtain ⟨hflush, halone⟩ := hs.enter hf hw hpc
  have hn : s.core.runs.length = n := by
    rw [hflush] at hn
    exact Option.some.inj hn
  constructor
  · intro hquiet
    refine absurd ?_ (hquiet w hw)
    show (core.workers w).pc = .inRun
    rw [hworkers, Function.update_self]
  · intro v hv hin
    have hin : (core.workers v).pc = .inRun := hin
    have he : v = w := by
      by_contra he
      rw [hworkers, Function.update_of_ne he] at hin
      exact halone v hv hin
    subst v
    refine ⟨n, ?_, ?_, s.nvm, y, ?_, hnext, ?_⟩
    · show (core.workers w).flush = holding n
      rw [hworkers, Function.update_self, ← hn]
      exact hflush
    · show core.runs.length = n + 1
      rw [hruns, List.length_append, List.length_singleton, hn]
    · have hquiet := h.quiet halone
      rwa [hn] at hquiet
    · intro fuel r hr
      simp only [Function.update_self] at hr
      exact ⟨fuel, hr⟩

theorem Merged.leave (h : Merged d s) (hs : Sequential d.toParams s.core) {core : State}
    (hw : w < d.workers) (hpc : (s.core.workers w).pc = .inRun) (hstart : (s.loops w).start = none)
    (hruns : core.runs = s.core.runs)
    (hworkers : core.workers =
      Function.update s.core.workers w { s.core.workers w with pc := .loopTest }) :
    Merged d { s with core := core } := by
  have hnone : ∀ v < d.workers, (core.workers v).pc ≠ .inRun := by
    intro v hv hin
    by_cases he : v = w
    · subst v
      rw [hworkers, Function.update_self] at hin
      cases hin
    · rw [hworkers, Function.update_of_ne he] at hin
      exact he (hs.inRun hw hpc hv hin)
  refine ⟨fun _ => ?_, fun v hv hin => absurd hin (hnone v hv)⟩
  obtain ⟨k, -, hlen, nvm, y, hto, hnext, hloop⟩ := h.midway w hw hpc
  obtain ⟨fuel, hfuel⟩ := hloop 1 ⟨s.nvm, (s.loops w).last, (s.loops w).reports⟩ (by
    rw [hstart]
    rfl)
  show RunsTo d { s with core := core } core.runs.length s.nvm
  rw [hruns, hlen]
  exact RunsTo.succ (hto.congr fun _ _ => rfl) (run_eq_ok hnext hfuel)

theorem Merged.copy (h : Merged d s) (hs : Sequential d.toParams s.core) (hw : w < d.workers)
    (hpc : (s.core.workers w).pc = .inRun) {n start : ℕ} {next : Ptr} {st : FlushState}
    (hn : (s.core.workers w).flush.skiplist = some n) (hstart : (s.loops w).start = some start)
    (hstep : iterate (s.lists n) (d.junk n) d.env start
      ⟨s.nvm, (s.loops w).last, (s.loops w).reports⟩ = .ok (next, st)) :
    Merged d { s with
      nvm := st.nvm
      loops := Function.update s.loops w ⟨next, st.last, st.reports⟩ } := by
  refine ⟨fun hquiet => absurd hpc (hquiet w hw), fun v hv hin => ?_⟩
  obtain rfl : v = w := hs.inRun hw hpc hv hin
  obtain ⟨k, hflush, hlen, nvm, y, hto, hnext, hloop⟩ := h.midway v hw hpc
  obtain rfl : k = n := by
    rw [hflush] at hn
    exact Option.some.inj hn
  refine ⟨k, hflush, hlen, nvm, y, hto.congr fun _ _ => rfl, hnext, fun fuel r hr => ?_⟩
  refine hloop (fuel + 1) r ?_
  rw [hstart, runFrom_succ, hstep, ok_bind]
  simpa only [Function.update_self] using hr

/-- The step of the hand-off that an action contains. -/
def ListAction.toCore : ListAction → Option Action
  | .insert c => some (.insert c.key)
  | .copy _ => none
  | .core a => some a

/-- `Flush` enqueues a `CallThread` only when no earlier one is pending or unfinished. -/
def EnqueuesAlone (d : ListParams) (s : ListState) (a : ListAction) : Prop :=
  ∀ b, a.toCore = some b → EnqueueAlone d.toParams s.core b

instance decidableForallEqSome {α : Type} (o : Option α) (P : α → Prop) [DecidablePred P] :
    Decidable (∀ b, o = some b → P b) :=
  match o with
  | none => isTrue (by simp)
  | some b => decidable_of_iff (P b) (by simp)

instance (d : ListParams) (s : ListState) (a : ListAction) : Decidable (EnqueuesAlone d s a) :=
  inferInstanceAs (Decidable (∀ b, a.toCore = some b → EnqueueAlone d.toParams s.core b))

theorem workerMoved_of_ne {core : State} (h : (core.workers w).pc ≠ .inRun) :
    workerMoved s w core = { s with core := core } := by
  unfold workerMoved
  split
  next n hpc hn => exact absurd hpc h
  next => rfl

/-- All that a step can do, branch by branch. -/
inductive ListMoves (d : ListParams) (s : ListState) : ListAction → ListState → Prop
  | insertNull (c : Call) (core : State)
      (hstep : step d.toParams s.core (.insert c.key) = some core) (hf : core.fault ≠ none) :
      ListMoves d s (.insert c) { s with core := core, inserted := s.inserted ++ [c.key] }
  | insert (c : Call) (core : State) (n : ℕ) (list : MemorySkipList)
      (hstep : step d.toParams s.core (.insert c.key) = some core) (hn : s.core.skiplist = some n)
      (hlist : (s.lists n).insert c = .ok list) :
      ListMoves d s (.insert c) { s with
        core := core
        lists := Function.update s.lists n list
        inserted := s.inserted ++ [c.key] }
  | insertFault (c : Call) (core : State) (n : ℕ) (e : Fault)
      (hstep : step d.toParams s.core (.insert c.key) = some core) (hn : s.core.skiplist = some n)
      (hlist : (s.lists n).insert c = .error e) :
      ListMoves d s (.insert c) { s with
        core := core
        inserted := s.inserted ++ [c.key]
        fault := some e }
  | copy (w n start : ℕ) (next : Ptr) (st : FlushState) (hw : w < d.workers)
      (hpc : (s.core.workers w).pc = .inRun) (hn : (s.core.workers w).flush.skiplist = some n)
      (hstart : (s.loops w).start = some start)
      (hstep : iterate (s.lists n) (d.junk n) d.env start
        ⟨s.nvm, (s.loops w).last, (s.loops w).reports⟩ = .ok (next, st)) :
      ListMoves d s (.copy w) { s with
        nvm := st.nvm
        loops := Function.update s.loops w ⟨next, st.last, st.reports⟩ }
  | copyFault (w n start : ℕ) (e : Fault) (hw : w < d.workers)
      (hpc : (s.core.workers w).pc = .inRun) (hn : (s.core.workers w).flush.skiplist = some n)
      (hstart : (s.loops w).start = some start)
      (hstep : n ∈ s.core.deleted ∨ iterate (s.lists n) (d.junk n) d.env start
        ⟨s.nvm, (s.loops w).last, (s.loops w).reports⟩ = .error e) :
      ListMoves d s (.copy w) (s.raise e)
  | enter (w n y : ℕ) (core : State) (hstep : step d.toParams s.core (.worker w) = some core)
      (hw : w < d.workers) (hpc : (s.core.workers w).pc = .run)
      (hn : (s.core.workers w).flush.skiplist = some n)
      (hruns : core.runs = s.core.runs ++ [⟨(s.core.workers w).flush, (s.core.workers w).popped⟩])
      (hworkers : core.workers =
        Function.update s.core.workers w { s.core.workers w with pc := .inRun })
      (hnext : (s.lists n).nodes.next 0 (s.lists n).head = some (some y)) :
      ListMoves d s (.core (.worker w)) { s with
        core := core
        loops := Function.update s.loops w ⟨some y, (0, 0), []⟩ }
  | enterFault (w n : ℕ) (e : Fault) (core : State)
      (hstep : step d.toParams s.core (.worker w) = some core) (hpc : (s.core.workers w).pc = .run)
      (hn : (s.core.workers w).flush.skiplist = some n)
      (hnext : ∀ y, (s.lists n).nodes.next 0 (s.lists n).head ≠ some (some y)) :
      ListMoves d s (.core (.worker w)) { s with core := core, fault := some e }
  | leave (w : ℕ) (core : State) (hstep : step d.toParams s.core (.worker w) = some core)
      (hw : w < d.workers) (hpc : (s.core.workers w).pc = .inRun)
      (hstart : (s.loops w).start = none) (hruns : core.runs = s.core.runs)
      (hworkers : core.workers =
        Function.update s.core.workers w { s.core.workers w with pc := .loopTest }) :
      ListMoves d s (.core (.worker w)) { s with core := core }
  | other (a : Action) (core : State) (ha : ∀ key, a ≠ .insert key)
      (hstep : step d.toParams s.core a = some core) (hruns : core.runs = s.core.runs)
      (hworkers : ∀ v, ((core.workers v).pc = .inRun ↔ (s.core.workers v).pc = .inRun) ∧
        ((s.core.workers v).pc = .inRun → core.workers v = s.core.workers v)) :
      ListMoves d s (.core a) { s with core := core }
  | coreFault (a : Action) (core : State) (ha : ∀ key, a ≠ .insert key)
      (hstep : step d.toParams s.core a = some core) (hf : core.fault ≠ none) :
      ListMoves d s (.core a) { s with core := core }

theorem listMoves_insert {c : Call} (h : listInsert d s c = some t) :
    ListMoves d s (.insert c) t := by
  obtain ⟨core, hstep, rfl⟩ := Option.map_eq_some_iff.mp h
  dsimp only
  split
  next hn => exact .insertNull c core hstep ((moves_of_step hstep).insert_null hn)
  next n hn =>
    split
    next list hlist => exact .insert c core n list hstep hn hlist
    next e hlist => exact .insertFault c core n e hstep hn hlist

theorem listMoves_copy (hw : w < d.workers) (hpc : (s.core.workers w).pc = .inRun)
    (h : listCopy d s w = some t) : ListMoves d s (.copy w) t := by
  unfold listCopy at h
  dsimp only at h
  split at h
  next n start hn hstart =>
    split_ifs at h with hd
    · cases h
      exact .copyFault w n start .useAfterFree hw hpc hn hstart (Or.inl hd)
    · split at h <;> cases h
      next next st hstep => exact .copy w n start next st hw hpc hn hstart hstep
      next e hstep => exact .copyFault w n start e hw hpc hn hstart (Or.inr hstep)
  next => cases h

theorem listMoves_worker (hf : s.core.fault = none) (h : listWorker d s w = some t) :
    ListMoves d s (.core (.worker w)) t := by
  obtain ⟨hleave, h⟩ := Option.ite_none_left_eq_some.mp h
  obtain ⟨core, hstep, rfl⟩ := Option.map_eq_some_iff.mp h
  have hm := moves_of_step hstep
  by_cases hcore : core.fault = none
  · cases hm.runMoves hcore with
    | enter v n he hw hpc hn hruns hworkers =>
      cases he
      have hpc' : (core.workers w).pc = .inRun := by rw [hworkers, Function.update_self]
      have hn' : (core.workers w).flush.skiplist = some n := by
        rw [hworkers, Function.update_self]
        exact hn
      unfold workerMoved
      rw [hpc', hn']
      dsimp only
      unfold enterLoop
      dsimp only
      split
      next hnext => exact .enterFault w n _ core hstep hpc hn (by rw [hnext]; nofun)
      next hnext => exact .enterFault w n _ core hstep hpc hn (by rw [hnext]; nofun)
      next y hnext => exact .enter w n y core hstep hw hpc hn hruns hworkers hnext
    | leave v he hw hpc hruns hworkers =>
      cases he
      rw [workerMoved_of_ne (by rw [hworkers, Function.update_self]; simp)]
      refine .leave w core hstep hw hpc ?_ hruns hworkers
      by_contra hne
      exact hleave ⟨hpc, hne⟩
    | other hruns hworkers hself =>
      rw [workerMoved_of_ne (hself w rfl)]
      exact .other _ core nofun hstep hruns hworkers
  · rw [workerMoved_of_ne (hm.not_inRun hf hcore)]
    exact .coreFault _ core nofun hstep hcore

theorem listMoves_of_listStep {a : ListAction} (h : listStep d s a = some t) :
    ListMoves d s a t := by
  obtain ⟨hnone, h⟩ := Option.ite_none_left_eq_some.mp h
  have hf := Option.not_isSome_iff_eq_none.mp (not_or.mp hnone).2
  cases a with
  | insert c => exact listMoves_insert h
  | copy w =>
    obtain ⟨⟨hw, hpc⟩, h⟩ := Option.ite_none_right_eq_some.mp h
    exact listMoves_copy hw hpc h
  | core a =>
    cases a with
    | insert key => cases h
    | worker w => exact listMoves_worker hf h
    | flush | realloc | finish | producer | wake | take | exit =>
      obtain ⟨core, hstep, rfl⟩ := Option.map_eq_some_iff.mp h
      by_cases hcore : core.fault = none
      · cases (moves_of_step hstep).runMoves hcore with
        | enter w n ha | leave w ha => cases ha
        | other hruns hworkers => exact .other _ core nofun hstep hruns hworkers
      · exact .coreFault _ core nofun hstep hcore

theorem ListMoves.core {a : ListAction} (hm : ListMoves d s a t) :
    (a.toCore = none ∧ t.core = s.core) ∨
      ∃ b, a.toCore = some b ∧ step d.toParams s.core b = some t.core := by
  cases hm with
  | copy | copyFault => exact Or.inl ⟨rfl, rfl⟩
  | insertNull _ _ hstep | insert _ _ _ _ hstep | insertFault _ _ _ _ hstep
  | enter _ _ _ _ hstep | enterFault _ _ _ _ hstep | leave _ _ hstep | other _ _ _ hstep
  | coreFault _ _ _ hstep => exact Or.inr ⟨_, rfl, hstep⟩

theorem Sequential.runs_le {p : Params} {s : State} (h : Sequential p s) (hf : s.fault = none)
    {n : ℕ} (hn : s.skiplist = some n) : s.runs.length ≤ n := by
  obtain ⟨-, next, horder⟩ := h
  have hactive : n = next + s.queue.length := by
    rcases horder.active with ⟨hs, -⟩ | ⟨hs, -⟩
    · exact Option.some.inj (hn.symm.trans hs)
    · rw [hn] at hs
      cases hs
  rcases horder.held hf with ⟨-, hnext⟩ | ⟨-, -, -, -, -, hnext⟩ <;> omega

theorem Merged.step {a : ListAction} (h : Merged d s) (hs : Sequential d.toParams s.core)
    (hfault : s.core.fault = none) (hm : ListMoves d s a t) (hf : t.fault = none)
    (hcore : t.core.fault = none) : Merged d t := by
  cases hm with
  | insertFault | copyFault | enterFault => cases hf
  | insertNull _ _ _ hne | coreFault _ _ _ _ hne => exact absurd hcore hne
  | insert c core n list hstep hn hlist =>
    obtain ⟨hworkers, hruns⟩ := (moves_of_step hstep).insert_workers
    refine h.congr hruns (fun v => by rw [hworkers]; simp)
      (fun m hm => Function.update_of_ne ?_ _ _) rfl rfl
    have := hs.runs_le hfault hn
    omega
  | copy w n start next st hw hpc hn hstart hstep => exact h.copy hs hw hpc hn hstart hstep
  | enter w n y core hstep hw hpc hn hruns hworkers hnext =>
    exact h.enter hs hfault hw hpc hn hruns hworkers hnext
  | leave w core hstep hw hpc hstart hruns hworkers =>
    exact h.leave hs hw hpc hstart hruns hworkers
  | other b core hb hstep hruns hworkers =>
    exact h.congr hruns hworkers (fun _ _ => rfl) rfl rfl

theorem Sequential.listStep {a : ListAction} (h : Sequential d.toParams s.core)
    (halone : EnqueuesAlone d s a) (hm : ListMoves d s a t) :
    Sequential d.toParams t.core := by
  rcases hm.core with ⟨-, he⟩ | ⟨b, hb, hstep⟩
  · rwa [he]
  · exact h.preserved (halone b hb) hstep

theorem fault_of_listStep {a : ListAction} (h : listStep d s a = some t) :
    s.fault = none ∧ s.core.fault = none := by
  obtain ⟨hnone, -⟩ := Option.ite_none_left_eq_some.mp h
  obtain ⟨hf, hcore⟩ := not_or.mp hnone
  exact ⟨Option.not_isSome_iff_eq_none.mp hf, Option.not_isSome_iff_eq_none.mp hcore⟩

/-- As long as every `CallThread` is enqueued alone, and whatever else happens in between, the NVM
list is between two runs what the lists flushed so far give one after the other. -/
theorem nvm_of_enqueuesAlone (d : ListParams) (as : List ListAction) (s : ListState)
    (hrun : run (listStep d) (listInit d) as = some s)
    (halone : Guarded (listStep d) (listInit d) as (EnqueuesAlone d))
    (hf : s.fault = none) (hcore : s.core.fault = none)
    (hquiet : ∀ w < d.workers, (s.core.workers w).pc ≠ .inRun) :
    PersistTree.FlushNVM.runAll d.junk d.env 0 (flushed s s.core.runs.length) d.nvm =
      .ok s.nvm := by
  have hI := halone.invariant
    (I := fun s => Sequential d.toParams s.core ∧
      (s.fault = none → s.core.fault = none → Merged d s))
    ⟨init_sequential d.toParams, fun _ _ => listInit_merged d⟩
    (fun s a t hI ha hs => by
      obtain ⟨hf, hcore⟩ := fault_of_listStep hs
      have hm := listMoves_of_listStep hs
      exact ⟨hI.1.listStep ha hm, (hI.2 hf hcore).step hI.1 hcore hm⟩) hrun
  exact (hI.2 hf hcore).quiet hquiet

/-- Two keys in two lists: the second list is made and queued while the first one is flushed. -/
def twoParams : ListParams where
  skiplistMaxNum := 2
  maxMemSkiplistSize := 1
  workers := 2
  dramMaxHeight := 1
  keySize := 1
  nvm := .new 1 1 0 1
  junk := fun _ _ => [0]
  env := fun _ => ⟨1, fun _ => []⟩

def twoKeys : List ListAction :=
  List.flatten [[.insert ⟨⟨1, fun _ => []⟩, [98]⟩], List.replicate 5 (.core .producer),
    [.core (.take 0)], List.replicate 7 (.core (.worker 0)), [.insert ⟨⟨1, fun _ => []⟩, [97]⟩],
    List.replicate 2 (.core .producer), [.copy 0], List.replicate 2 (.core .producer),
    List.replicate 6 (.core (.worker 0)), [.copy 0], List.replicate 3 (.core (.worker 0))]

theorem twoKeys_ends : ∃ s, run (listStep twoParams) (listInit twoParams) twoKeys = some s ∧
    (s.fault = none ∧ s.core.fault = none) ∧ (s.core.skiplist = some 2 ∧ s.core.queue = []) ∧
    (s.core.workers 0).pc = .idle ∧ (s.core.workers 1).pc = .idle := by
  have hrun : (run (listStep twoParams) (listInit twoParams) twoKeys).map (fun s =>
      ((s.fault, s.core.fault), (s.core.skiplist, s.core.queue), (s.core.workers 0).pc,
        (s.core.workers 1).pc)) = some ((none, none), (some 2, []), .idle, .idle) := rfl
  obtain ⟨s, hs, he⟩ := Option.map_eq_some_iff.mp hrun
  simp only [Prod.mk.injEq] at he
  exact ⟨s, hs, he⟩

theorem nvm_of_enqueuesAlone_two :
    ∃ s, PersistTree.FlushNVM.runAll twoParams.junk twoParams.env 0
      (flushed s s.core.runs.length) twoParams.nvm = .ok s.nvm := by
  obtain ⟨s, hs, ⟨hf, hcore⟩, -, h0, h1⟩ := twoKeys_ends
  refine ⟨s, nvm_of_enqueuesAlone twoParams twoKeys s hs (Guarded.of_check (by rfl)) hf hcore ?_⟩
  intro w hw hpc
  obtain rfl | rfl : w = 0 ∨ w = 1 := Nat.le_one_iff_eq_zero_or_eq_one.mp (Nat.le_of_lt_succ hw)
  · rw [h0] at hpc
    cases hpc
  · rw [h1] at hpc
    cases hpc

end PersistTree.Handoff
