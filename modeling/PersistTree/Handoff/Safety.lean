import PersistTree.Handoff.Accounting
import PersistTree.Handoff.Arrival
import PersistTree.Handoff.Loops

/-!
# Runs without a fault

The hand-off asserts that its pointers are not null and that its lists are not empty, and takes for
granted that a list which is flushed has not been deleted. All of this holds in every schedule in
which each `CallThread` is enqueued alone and the producer keeps to its calls: it leaves `Realloc`
to `Flush`, calls `Flush` when the active list has a key, and inserts keys that the lists can take.
-/
namespace PersistTree.Handoff

open Library Transition

section core

variable {p : Params} {s t : State} {a : Action} {n w : ℕ}

/-- The producer is between the push of `Flush` and the end of `Realloc`. -/
def Lent : ProducerPc → Prop
  | .blockTest | .wait | .asleep | .loadTest | .enqueue | .realloc => True
  | .idle | .push | .done => False

/-- The calls of a producer that leaves `Realloc` to `Flush` and flushes no empty list. -/
def CallsGood (s : State) : Action → Prop
  | .realloc => False
  | .flush => ∀ n, s.skiplist = some n → s.keys n ≠ []
  | _ => True

/-- There is an active list whenever the producer may use it, and every list that is handed over
has a key. -/
structure Supplied (s : State) : Prop where
  lent : Lent s.producer ↔ s.skiplist = none
  filled : ∀ n < s.made, s.skiplist ≠ some n → s.keys n ≠ []
  pushed : s.producer = .push → ∀ n, s.skiplist = some n → s.keys n ≠ []

/-- The list that a worker flushes is the last one of `runs`, and only lists that were flushed
before it have been deleted. -/
structure Flushing (p : Params) (s : State) : Prop where
  running : ∀ w < p.workers, (s.workers w).pc = .inRun →
    ∃ k, (s.workers w).flush = holding k ∧ s.runs.length = k + 1
  deleted : ∀ n ∈ s.deleted, n < s.runs.length ∧
    ∀ w < p.workers, (s.workers w).pc = .inRun → (s.workers w).flush ≠ holding n

theorem init_supplied : Supplied init where
  lent := ⟨False.elim, nofun⟩
  filled n hn hne := by
    obtain rfl := Nat.lt_one_iff.mp hn
    exact absurd rfl hne
  pushed := nofun

theorem Supplied.goTo (h : Supplied s) (pc : ProducerPc) (hlent : Lent pc ↔ Lent s.producer)
    (hpush : pc = .push → ∀ n, s.skiplist = some n → s.keys n ≠ []) : Supplied (s.goTo pc) :=
  ⟨hlent.trans h.lent, h.filled, hpush⟩

theorem Supplied.moves (h : Supplied s) (hcalls : CallsGood s a) (hm : Moves p s a t)
    (hf : t.fault = none) : Supplied t := by
  cases hm with
  | insertNull | reallocKept | pushFull | runFault => cases hf
  | insert key n pc hp hl hpc =>
    have hlent : ¬Lent pc := by rcases hpc with rfl | rfl <;> exact id
    refine ⟨⟨fun h' => absurd h' hlent, fun h' => by rw [hl] at h'; cases h'⟩, ?_, ?_⟩
    · intro m hm hne
      have hmn : m ≠ n := fun hmn => hne (hmn ▸ hl)
      dsimp only
      rw [Function.update_of_ne hmn]
      exact h.filled m hm hne
    · intro _ m hm
      obtain rfl : n = m := Option.some.inj (hl.symm.trans hm)
      simp
  | flush hp => exact h.goTo _ (by rw [hp]; exact Iff.rfl) fun _ => hcalls
  | realloc _ hp hl =>
    refine ⟨⟨False.elim, nofun⟩, fun n hn hne => ?_, nofun⟩
    have hlt : n < s.made := Nat.lt_of_le_of_ne (Nat.le_of_lt_succ hn) fun he => hne (he ▸ rfl)
    exact h.filled n hlt (by rw [hl]; nofun)
  | finish hp =>
    have h' := h.goTo .done (by rw [hp]; exact Iff.rfl) nofun
    exact ⟨h'.lent, h'.filled, h'.pushed⟩
  | push hp hq =>
    refine ⟨⟨fun _ => rfl, fun _ => trivial⟩, fun n hn _ => ?_, nofun⟩
    by_cases hactive : s.skiplist = some n
    · exact h.pushed hp n hactive
    · exact h.filled n hn hactive
  | block hp | pass hp | waited hp | sleep hp | loadTrue hp | loadFalse hp | wake hp =>
    exact h.goTo _ (by rw [hp]; exact Iff.rfl) nofun
  | enqueue hp =>
    have h' := h.goTo .realloc (by rw [hp]; exact Iff.rfl) nofun
    exact ⟨h'.lent, h'.filled, h'.pushed⟩
  | notifyWake w hw hpc hp =>
    have h' := h.goTo .wait (by rw [hp]; exact Iff.rfl) nofun
    exact ⟨h'.lent, h'.filled, h'.pushed⟩
  | _ => exact ⟨h.lent, h.filled, h.pushed⟩

theorem init_flushing (p : Params) : Flushing p init := ⟨nofun, nofun⟩

theorem Flushing.moves (h : Flushing p s) (hs : Sequential p s) (hf : s.fault = none)
    (hm : RunMoves p s a t) : Flushing p t := by
  cases hm with
  | enter w n ha hw hpc hn hruns hworkers hdeleted =>
    obtain ⟨hflush, halone⟩ := hs.enter hf hw hpc
    have hin : ∀ v < p.workers, (t.workers v).pc = .inRun →
        (t.workers v).flush = holding s.runs.length := by
      intro v hv hvpc
      rw [hworkers] at hvpc ⊢
      by_cases he : v = w
      · rw [he, Function.update_self]
        exact hflush
      · rw [Function.update_of_ne he] at hvpc
        exact absurd hvpc (halone v hv)
    have hlen : t.runs.length = s.runs.length + 1 := by
      rw [hruns, List.length_append, List.length_singleton]
    refine ⟨fun v hv hvpc => ⟨_, hin v hv hvpc, hlen⟩, fun m hm => ?_⟩
    rw [hdeleted] at hm
    have hlt := (h.deleted m hm).1
    refine ⟨by omega, fun v hv hvpc he => ?_⟩
    rw [hin v hv hvpc] at he
    exact hlt.ne' (Option.some.inj (congrArg FlushNVM.skiplist he))
  | leave w ha hw hpc hruns hworkers hdeleted =>
    have hnone : ∀ v < p.workers, (t.workers v).pc ≠ .inRun := by
      intro v hv hvpc
      rw [hworkers] at hvpc
      by_cases he : v = w
      · rw [he, Function.update_self] at hvpc
        cases hvpc
      · rw [Function.update_of_ne he] at hvpc
        exact he (hs.inRun hw hpc hv hvpc)
    refine ⟨fun v hv hvpc => absurd hvpc (hnone v hv), fun m hm => ?_⟩
    refine ⟨?_, fun v hv hvpc => absurd hvpc (hnone v hv)⟩
    obtain ⟨k, hflush, hlen⟩ := h.running w hw hpc
    rw [hdeleted, hflush] at hm
    rw [hruns]
    rcases List.mem_append.mp hm with hm | hm
    · obtain rfl : m = k := by simpa [holding] using hm
      omega
    · exact (h.deleted m hm).1
  | other hruns hworkers hself hdeleted =>
    refine ⟨fun v hv hvpc => ?_, fun m hm => ?_⟩
    · have hold := (hworkers v).1.mp hvpc
      rw [(hworkers v).2 hold, hruns]
      exact h.running v hv hold
    · rw [hdeleted] at hm
      rw [hruns]
      refine ⟨(h.deleted m hm).1, fun v hv hvpc => ?_⟩
      have hold := (hworkers v).1.mp hvpc
      rw [(hworkers v).2 hold]
      exact (h.deleted m hm).2 v hv hold

theorem step_push (h : step p s .producer = some t) (hp : s.producer = .push) : t = pushList s := by
  obtain ⟨-, h⟩ := Option.ite_none_left_eq_some.mp h
  simp only [producerStep, hp] at h
  exact (Option.some.inj h).symm

theorem step_run (h : step p s (.worker w) = some t) (hpc : (s.workers w).pc = .run) :
    t = enterRun s w := by
  obtain ⟨-, h⟩ := Option.ite_none_left_eq_some.mp h
  obtain ⟨-, h⟩ := Option.ite_none_right_eq_some.mp h
  simp only [workerStep, hpc] at h
  exact (Option.some.inj h).symm

/-- The hand-off in a state without a fault, with what keeps it so. -/
structure Faultless (p : Params) (s : State) : Prop where
  fault : s.fault = none
  sequential : Sequential p s
  accounted : Accounted p.skiplistMaxNum s.queue s.blockSkiplistNum s.producer
  handedOver : HandedOver s
  supplied : Supplied s
  flushing : Flushing p s

theorem init_faultless (p : Params) : Faultless p init where
  fault := rfl
  sequential := init_sequential p
  accounted := init_accounted p
  handedOver := init_handedOver
  supplied := init_supplied
  flushing := init_flushing p

theorem Faultless.enterRun_fault (h : Faultless p s) (hw : w < p.workers)
    (hpc : (s.workers w).pc = .run) : (enterRun s w).fault = none := by
  obtain ⟨hflush, -⟩ := h.sequential.enter h.fault hw hpc
  have hn : (s.workers w).flush.skiplist = some s.runs.length := by
    rw [hflush]
    rfl
  obtain ⟨hmade, hactive⟩ := h.handedOver.held w _ hn
  have hdeleted : s.runs.length ∉ s.deleted := fun hd =>
    lt_irrefl _ (h.flushing.deleted _ hd).1
  have hkeys := h.supplied.filled _ hmade hactive
  unfold enterRun
  simp only [hn, if_neg hdeleted, if_neg hkeys]
  exact h.fault

theorem Faultless.step_fault (h : Faultless p s) (hmax : p.skiplistMaxNum < queueMaxSize)
    (hcalls : CallsGood s a) (hs : step p s a = some t) : t.fault = none := by
  cases moves_of_step hs with
  | insertNull key hp hl =>
    have hlent := h.supplied.lent.mpr hl
    rw [hp] at hlent
    exact hlent.elim
  | reallocKept _ n hp hl =>
    rcases hp with ⟨rfl, -⟩ | ⟨-, hp⟩
    · exact hcalls.elim
    · have hnull := h.supplied.lent.mp (by rw [hp]; trivial)
      rw [hl] at hnull
      cases hnull
  | pushFull hp =>
    have hle := h.accounted.le (by rw [hp]; exact id)
    rw [step_push hs hp]
    unfold pushList
    rw [if_pos (by omega)]
    exact h.fault
  | runFault w e hw hpc =>
    rw [step_run hs hpc]
    exact h.enterRun_fault hw hpc
  | _ => exact h.fault

theorem Faultless.step (h : Faultless p s) (hmax : p.skiplistMaxNum < queueMaxSize)
    (halone : EnqueueAlone p s a) (hcalls : CallsGood s a) (hs : step p s a = some t) :
    Faultless p t := by
  have hm := moves_of_step hs
  have hf := h.step_fault hmax hcalls hs
  exact {
    fault := hf
    sequential := h.sequential.preserved halone hs
    accounted := h.accounted.moves hm
    handedOver := h.handedOver.moves hm
    supplied := h.supplied.moves hcalls hm hf
    flushing := h.flushing.moves h.sequential h.fault (hm.runMoves hf) }

end core

variable {d : ListParams} {s t : ListState} {list : MemorySkipList} {nvm : PersistentSkipList}
  {keys : List Key} {loop : RunLoop}

/-- The NVM list between two calls of `Insert`, with the configuration of its constructor. -/
structure Ready (d : ListParams) (nvm : PersistentSkipList) : Prop where
  sorted : ∃ done A B, nvm.Sorted done A B
  keySize : nvm.keySize = d.keySize
  kMaxHeight : nvm.kMaxHeight = d.nvm.kMaxHeight
  per1gNum : nvm.per1gNum = d.nvm.per1gNum

theorem Ready.insert (h : Ready d nvm) (hper : d.nvm.per1gNum ≠ 0) (c : Call)
    (hkey : d.keySize ≤ c.key.length) (hpos : 1 ≤ c.height) (hle : c.height ≤ d.nvm.kMaxHeight) :
    ∃ nvm', nvm.insert c = .ok nvm' ∧ Ready d nvm' := by
  obtain ⟨⟨done, A, B, hs⟩, hsize, hheight, hwindow⟩ := h
  rcases hs.insert c (by rwa [hsize]) hpos (by rwa [hheight]) with
    ⟨h0, -⟩ | ⟨nvm', A', B', he, hlink, hs'⟩
  · exact absurd (hwindow.symm.trans h0) hper
  · have hcfg := hlink.sameConfig
    exact ⟨nvm', he, ⟨_, _, _, hs'⟩, hcfg.keySize.trans hsize, hcfg.kMaxHeight.trans hheight,
      hcfg.per1gNum.trans hwindow⟩

theorem HoldsKeys.exists_first (h : HoldsKeys d list keys) (hne : keys ≠ []) :
    ∃ y, list.nodes.next 0 list.head = some (some y) := by
  obtain ⟨⟨batch, A, B, hs, rfl⟩, -, -, -⟩ := h
  have hnext := hs.located.base.next_eq
  cases hnodes : A ++ B with
  | cons y L =>
    rw [hnodes] at hnext
    exact ⟨y, hnext⟩
  | nil =>
    have hlen := hs.filled.contents.length_eq
    rw [hnodes, List.map_nil, List.length_nil, List.length_map, eq_comm,
      List.length_eq_zero_iff] at hlen
    exact absurd (by rw [hlen, List.map_nil]) hne

/-- An iteration moves a key that is in the list to the NVM list. -/
theorem HoldsKeys.exists_iterate (h : HoldsKeys d list keys) (hnvm : Ready d nvm)
    (hper : d.nvm.per1gNum ≠ 0)
    (henv : ∀ k, 1 ≤ (d.env k).height ∧ (d.env k).height ≤ d.nvm.kMaxHeight)
    {R : MemorySkipList → RunLoop → List ℕ → Prop} {P Q : List ℕ} {y : ℕ}
    (hpass : Passing R list loop P Q) (hy : loop.start = some y) (junk : ℕ → List UInt8) :
    ∃ next st, iterate list junk d.env y ⟨nvm, loop.last, loop.reports⟩ = .ok (next, st) ∧
      Ready d st.nvm := by
  obtain ⟨Q, rfl, hnext⟩ := hpass.cons hy
  obtain ⟨⟨batch, A, B, hs, rfl⟩, -, -, hfills⟩ := h
  have hmem : y ∈ A ++ B := by
    rw [← hpass.chain.unique hs.located.base]
    simp
  have hkey := hs.intact y (hs.located.allocated y (List.mem_cons_of_mem _ hmem))
  have hfill := hfills _ (hs.filled.keys_perm.subset (List.mem_map_of_mem hmem))
  obtain ⟨-, hlen, -⟩ := hfill.cString (junk y)
  obtain ⟨hpos, hle⟩ := henv nvm.nodes.length
  obtain ⟨nvm', he, hready⟩ := hnvm.insert hper
    ⟨d.env nvm.nodes.length, cString (list.keyOf y ++ junk y)⟩ hlen hpos hle
  have hstep : ∃ last reports, iterate list junk d.env y ⟨nvm, loop.last, loop.reports⟩ =
      .ok (Q.head?, ⟨nvm', last, reports⟩) := by
    simp only [iterate, hkey, hnext, deref_some, ok_bind, he]
    exact ⟨_, _, rfl⟩
  obtain ⟨last, errors, hstep⟩ := hstep
  exact ⟨_, _, hstep, hready⟩

/-- The hand-off with its lists in a state without a fault, with what keeps it so. -/
structure Healthy (d : ListParams) (s : ListState) : Prop where
  fault : s.fault = none
  core : Faultless d.toParams s.core
  recorded : Recorded d s
  ready : Ready d s.nvm
  looping : Looping (fun _ _ _ => True) s

/-- A step of a schedule in which nothing goes wrong. -/
def StepsWell (d : ListParams) (s : ListState) (a : ListAction) : Prop :=
  EnqueuesAlone d s a ∧ InsertsGood d s a ∧ ∀ b, a.toCore = some b → CallsGood s.core b

theorem Healthy.step_core (h : Healthy d s) (hmax : d.skiplistMaxNum < queueMaxSize)
    {a : ListAction} (hwell : StepsWell d s a) (hm : ListMoves d s a t) :
    Faultless d.toParams t.core := by
  obtain ⟨halone, -, hcalls⟩ := hwell
  rcases hm.core with ⟨-, he⟩ | ⟨b, hb, hstep⟩
  · rw [he]
    exact h.core
  · exact h.core.step hmax (halone b hb) (hcalls b hb) hstep

theorem Healthy.step_fault (h : Healthy d s) (hper : d.nvm.per1gNum ≠ 0)
    (henv : ∀ k, 1 ≤ (d.env k).height ∧ (d.env k).height ≤ d.nvm.kMaxHeight)
    {a : ListAction} (hgood : InsertsGood d s a) (hm : ListMoves d s a t) : t.fault = none := by
  cases hm with
  | insertFault c core n e hstep hn hlist =>
    obtain ⟨hfill, hfirst, hpos, hle, hnew⟩ := hgood
    obtain ⟨list, he, -⟩ := (h.recorded.holds n).insert c hfill hfirst hpos hle (hnew n hn)
    rw [hlist] at he
    cases he
  | copyFault w n y e hw hpc hn hy hstep =>
    rcases hstep with hd | hstep
    · refine absurd ?_ ((h.core.flushing.deleted n hd).2 w hw hpc)
      exact congrArg FlushNVM.mk hn
    · obtain ⟨P, Q, hpass⟩ := h.looping w n hpc hn
      obtain ⟨next, st, he, -⟩ :=
        (h.recorded.holds n).exists_iterate h.ready hper henv hpass hy (d.junk n)
      rw [hstep] at he
      cases he
  | enterFault w n e core hstep hpc hn hnext =>
    obtain ⟨hmade, hactive⟩ := h.core.handedOver.held w n hn
    obtain ⟨y, hy⟩ := (h.recorded.holds n).exists_first (h.core.supplied.filled n hmade hactive)
    exact absurd hy (hnext y)
  | _ => exact h.fault

theorem Healthy.step_ready (h : Healthy d s) (hper : d.nvm.per1gNum ≠ 0)
    (henv : ∀ k, 1 ≤ (d.env k).height ∧ (d.env k).height ≤ d.nvm.kMaxHeight)
    {a : ListAction} (hm : ListMoves d s a t) : Ready d t.nvm := by
  cases hm with
  | copy w n y next st hw hpc hn hy hstep =>
    obtain ⟨P, Q, hpass⟩ := h.looping w n hpc hn
    obtain ⟨next', st', he, hready⟩ :=
      (h.recorded.holds n).exists_iterate h.ready hper henv hpass hy (d.junk n)
    obtain ⟨-, rfl⟩ := Prod.mk.inj (Except.ok.inj (hstep.symm.trans he))
    exact hready
  | _ => exact h.ready

theorem Healthy.step (h : Healthy d s) (hmax : d.skiplistMaxNum < queueMaxSize)
    (hper : d.nvm.per1gNum ≠ 0)
    (henv : ∀ k, 1 ≤ (d.env k).height ∧ (d.env k).height ≤ d.nvm.kMaxHeight)
    {a : ListAction} (hwell : StepsWell d s a) (hm : ListMoves d s a t) : Healthy d t := by
  have hf := h.step_fault hper henv hwell.2.1 hm
  have hcore := h.step_core hmax hwell hm
  exact {
    fault := hf
    core := hcore
    recorded := h.recorded.step h.core.sequential hwell.2.1 hm hf hcore.fault
    ready := h.step_ready hper henv hm
    looping := by
      refine h.looping.step h.core.handedOver (fun n => ?_) (fun _ _ => trivial)
        (fun _ _ _ _ _ _ _ _ _ => trivial) hm hf hcore.fault
      obtain ⟨⟨batch, A, B, hs, -⟩, -, -, -⟩ := h.recorded.holds n
      exact ⟨A ++ B, hs.located.base⟩ }

theorem listInit_healthy {nvmMaxHeight optNum per1gNum k : ℕ}
    (hnvm : d.nvm = .new nvmMaxHeight d.keySize optNum per1gNum)
    (hdram : 0 < d.dramMaxHeight % 2 ^ 16)
    (henv : 1 ≤ (d.env k).height ∧ (d.env k).height ≤ nvmMaxHeight % 2 ^ 16) :
    Healthy d (listInit d) where
  fault := rfl
  core := init_faultless d.toParams
  recorded := listInit_recorded hdram
  ready := by
    refine ⟨⟨[], [], [], ?_⟩, ?_, rfl, rfl⟩
    · show d.nvm.Sorted [] [] []
      rw [hnvm]
      exact PersistentSkipList.new_sorted _ _ _ (lt_of_lt_of_le henv.1 henv.2)
    · show d.nvm.keySize = d.keySize
      rw [hnvm]
      rfl
  looping := nofun

/-- In such a schedule nothing ever faults, neither in the hand-off nor in a list: no assertion
fails, no null or deleted list is used, and every insertion returns. -/
theorem fault_eq_none (d : ListParams) (nvmMaxHeight optNum per1gNum : ℕ)
    (hnvm : d.nvm = .new nvmMaxHeight d.keySize optNum per1gNum) (hper : per1gNum ≠ 0)
    (hdram : 0 < d.dramMaxHeight % 2 ^ 16) (hmax : d.skiplistMaxNum < queueMaxSize)
    (henv : ∀ k, 1 ≤ (d.env k).height ∧ (d.env k).height ≤ nvmMaxHeight % 2 ^ 16)
    (as : List ListAction) (s : ListState) (hrun : run (listStep d) (listInit d) as = some s)
    (hguard : Guarded (listStep d) (listInit d) as (StepsWell d)) :
    s.fault = none ∧ s.core.fault = none := by
  have hheight : d.nvm.kMaxHeight = nvmMaxHeight % 2 ^ 16 := by rw [hnvm]; rfl
  have hwindow : d.nvm.per1gNum = per1gNum := by rw [hnvm]; rfl
  have hI := hguard.invariant (listInit_healthy hnvm hdram (henv 0)) (fun s a t h hwell hs =>
    h.step hmax (by rwa [hwindow]) (by rwa [hheight]) hwell (listMoves_of_listStep hs)) hrun
  exact ⟨hI.fault, hI.core.fault⟩

instance (s : State) (a : Action) : Decidable (CallsGood s a) := by
  cases a <;> unfold CallsGood <;> infer_instance

instance (d : ListParams) (s : ListState) (a : ListAction) : Decidable (StepsWell d s a) := by
  unfold StepsWell
  infer_instance

end PersistTree.Handoff
