import PersistTree.Handoff.Safety
import PersistTree.Handoff.Settling

/-!
# Every key gets there

Between two calls of the producer each step uses up some of what is left to do: a step of the
hand-off some of its work, an iteration of a `Run` one of the nodes in front of its loop. Whatever
the schedule, the system therefore comes to rest. If in addition no list has been left to a
`CallThread` that was not going to pop again, then every list but the active one has been flushed by
then, and its keys are in the NVM list.
-/
namespace PersistTree.Handoff

open Library Transition

/-- The steps that neither the producer's calls nor a spurious wake-up bring about. -/
def ListInternal : ListAction → Prop
  | .insert _ => False
  | .copy _ => True
  | .core a => Internal a

/-- `Flush` relies on a `CallThread` only if it is still going to pop. -/
def LoadsSound (d : ListParams) (s : ListState) (a : ListAction) : Prop :=
  ∀ b, a.toCore = some b → LoadSound d.toParams s.core b

/-- The nodes of a list from `start` on, as far as `fuel` goes. -/
def nodesFrom (list : MemorySkipList) : ℕ → Ptr → ℕ
  | 0, _ | _ + 1, none => 0
  | fuel + 1, some y => nodesFrom list fuel ((list.nodes.next 0 y).getD none) + 1

/-- The nodes in front of the loop of worker `w`. -/
def nodesLeft (s : ListState) (w : ℕ) : ℕ :=
  match (s.core.workers w).pc, (s.core.workers w).flush.skiplist with
  | .inRun, some n => nodesFrom (s.lists n) (s.core.keys n).length (s.loops w).start
  | _, _ => 0

/-- A bound on the internal steps to come while no more than `N` keys are inserted: every step of
the hand-off may send a worker along as many nodes as there are keys. -/
def listWorkLeft (d : ListParams) (N : ℕ) (s : ListState) : ℕ :=
  workLeft d.toParams s.core * (N + 1) + sumOver d.workers id (nodesLeft s)

variable {d : ListParams} {s t : ListState} {a : ListAction} {list : MemorySkipList} {w n y N : ℕ}

theorem nodesFrom_le (list : MemorySkipList) (fuel : ℕ) (start : Ptr) :
    nodesFrom list fuel start ≤ fuel := by
  induction fuel generalizing start with
  | zero => exact le_rfl
  | succ fuel ih =>
    cases start with
    | none => exact Nat.zero_le _
    | some y => exact Nat.succ_le_succ (ih _)

theorem nodesFrom_eq {x : ℕ} {Q : List ℕ} (h : Chain (list.nodes.next 0) x Q) {fuel : ℕ}
    (hfuel : Q.length ≤ fuel) : nodesFrom list fuel Q.head? = Q.length := by
  induction h generalizing fuel with
  | nil => cases fuel <;> rfl
  | @cons x y Q hx ht ih =>
    obtain ⟨fuel, rfl⟩ : ∃ k, fuel = k + 1 := ⟨fuel - 1, by simp at hfuel; omega⟩
    rw [List.head?_cons, nodesFrom, ht.next_eq, Option.getD_some, List.length_cons,
      ih (by simpa using hfuel)]

theorem nodesLeft_of_ne (h : (s.core.workers w).pc ≠ .inRun) : nodesLeft s w = 0 := by
  unfold nodesLeft
  split
  next hpc _ => exact absurd hpc h
  next => rfl

theorem nodesLeft_of_inRun (hpc : (s.core.workers w).pc = .inRun)
    (hn : (s.core.workers w).flush.skiplist = some n) :
    nodesLeft s w = nodesFrom (s.lists n) (s.core.keys n).length (s.loops w).start := by
  simp only [nodesLeft, hpc, hn]

theorem nodesLeft_congr (hw : t.core.workers w = s.core.workers w)
    (hkeys : t.core.keys = s.core.keys) (hlists : t.lists = s.lists)
    (hloop : t.loops w = s.loops w) : nodesLeft t w = nodesLeft s w := by
  unfold nodesLeft
  rw [hw, hkeys, hlists, hloop]

theorem HoldsKeys.nodesFrom_succ {keys : List Key} (h : HoldsKeys d list keys)
    {R : MemorySkipList → RunLoop → List ℕ → Prop} {loop : RunLoop} {P Q : List ℕ}
    (hpass : Passing R list loop P (y :: Q)) :
    nodesFrom list keys.length (some y) = nodesFrom list keys.length Q.head? + 1 := by
  obtain ⟨⟨batch, A, B, hs, rfl⟩, -, -, -⟩ := h
  have hsuffix := hpass.chain.suffix
  have hlen : (P ++ y :: Q).length = batch.length := by
    rw [hpass.chain.unique hs.located.base]
    have hlen := hs.filled.contents.length_eq
    rwa [List.length_map, List.length_map] at hlen
  rw [List.length_append, List.length_cons] at hlen
  rw [List.length_map]
  cases hsuffix with
  | cons hx ht =>
    have hall : nodesFrom list batch.length (some y) = Q.length + 1 :=
      nodesFrom_eq (.cons hx ht) (by rw [List.length_cons]; omega)
    rw [hall, nodesFrom_eq ht (by omega)]

theorem Healthy.nodesLeft_le (h : Healthy d s) (w : ℕ) : nodesLeft s w ≤ s.inserted.length := by
  unfold nodesLeft
  split
  next n hpc hn =>
    have hmade := (h.core.handedOver.held w n hn).1
    exact (nodesFrom_le _ _ _).trans (h.recorded.length_keys_le hmade)
  next => exact Nat.zero_le _

theorem Healthy.listWorkLeft_le (h : Healthy d s) :
    listWorkLeft d s.inserted.length s ≤
      (workLeft d.toParams s.core + d.workers) * (s.inserted.length + 1) := by
  have hsum : sumOver d.workers id (nodesLeft s) ≤ d.workers * (s.inserted.length + 1) :=
    sumOver_le_mul fun w _ => (h.nodesLeft_le w).trans (Nat.le_succ _)
  rw [listWorkLeft, Nat.add_mul]
  exact Nat.add_le_add_left hsum _

theorem sum_nodesLeft (hw : w < d.workers) (h : ∀ v, v ≠ w → nodesLeft t v = nodesLeft s v) :
    sumOver d.workers id (nodesLeft t) + nodesLeft s w =
      sumOver d.workers id (nodesLeft s) + nodesLeft t w := by
  have hupdate : Function.update (nodesLeft s) w (nodesLeft t w) = nodesLeft t := by
    funext v
    by_cases hv : v = w
    · rw [hv, Function.update_self]
    · rw [Function.update_of_ne hv, h v hv]
  have hsum := sumOver_update hw id (nodesLeft s) (nodesLeft t w)
  rwa [hupdate] at hsum

/-- A step of the hand-off pays for a loop along all keys. -/
theorem work_lt {W W' N a b : ℕ} (hW : W' < W) (hb : b ≤ a + N) :
    W' * (N + 1) + b < W * (N + 1) + a := by
  have hle : (W' + 1) * (N + 1) ≤ W * (N + 1) := Nat.mul_le_mul_right _ hW
  rw [Nat.succ_mul] at hle
  omega

/-- An internal step inserts nothing and uses up some of the work. -/
theorem ListMoves.listWorkLeft_lt (h : Healthy d s) (ht : Healthy d t)
    (hstale : ∀ v, Stale s.core.deleted (s.core.workers v)) (hN : s.inserted.length ≤ N)
    (ha : ListInternal a) (hm : ListMoves d s a t) :
    listWorkLeft d N t < listWorkLeft d N s ∧ t.inserted = s.inserted := by
  have hlt : ∀ b core, Internal b → step d.toParams s.core b = some core →
      workLeft d.toParams core < workLeft d.toParams s.core := fun b core hb hs =>
    workLeft_lt hstale h.core.fault hb (moves_of_step hs)
  have hbound := ht.nodesLeft_le
  cases hm with
  | insertNull | insert | insertFault => exact ha.elim
  | copyFault | enterFault => cases ht.fault
  | coreFault _ _ _ _ hne => exact absurd ht.core.fault hne
  | copy w n y next st hw hpc hn hy hstep =>
    obtain ⟨P, Q, hpass⟩ := h.looping w n hpc hn
    obtain ⟨Q, rfl, hnext⟩ := hpass.cons hy
    obtain rfl : next = Q.head? := Option.some.inj ((iterate_next hstep).symm.trans hnext)
    have hsum := sum_nodesLeft (d := d) hw fun v hv => show nodesLeft { s with
      nvm := st.nvm
      loops := Function.update s.loops w ⟨Q.head?, st.last, st.reports⟩ } v = nodesLeft s v from
        nodesLeft_congr rfl rfl rfl (Function.update_of_ne hv _ _)
    have hone : nodesLeft s w = nodesLeft { s with
        nvm := st.nvm
        loops := Function.update s.loops w ⟨Q.head?, st.last, st.reports⟩ } w + 1 := by
      rw [nodesLeft_of_inRun hpc hn, hy, (h.recorded.holds n).nodesFrom_succ hpass,
        nodesLeft_of_inRun (by exact hpc) (by exact hn)]
      dsimp only
      rw [Function.update_self]
    exact ⟨Nat.add_lt_add_left (by omega) _, rfl⟩
  | enter w n y core hstep hw hpc hn hruns hworkers hnext =>
    have hkeys := ((moves_of_step hstep).keys_eq nofun).1
    have hsum := sum_nodesLeft (d := d) hw fun v hv => show nodesLeft { s with
      core := core
      loops := Function.update s.loops w ⟨some y, (0, 0), []⟩ } v = nodesLeft s v from
        nodesLeft_congr (by rw [hworkers, Function.update_of_ne hv]) hkeys rfl
          (Function.update_of_ne hv _ _)
    have hle := (hbound w).trans hN
    exact ⟨work_lt (hlt (.worker w) core trivial hstep) (by omega), rfl⟩
  | leave w core hstep hw hpc hstart hruns hworkers =>
    have hkeys := ((moves_of_step hstep).keys_eq nofun).1
    refine ⟨work_lt (hlt (.worker w) core trivial hstep)
      (Nat.le_add_right_of_le (sumOver_le fun v _ => ?_)), rfl⟩
    by_cases hv : v = w
    · rw [hv, nodesLeft_of_ne (by rw [hworkers, Function.update_self]; nofun)]
      exact Nat.zero_le _
    · exact le_of_eq (nodesLeft_congr (by rw [hworkers, Function.update_of_ne hv]) hkeys rfl rfl)
  | other b core hb hstep hruns hworkers =>
    have hkeys := ((moves_of_step hstep).keys_eq hb).1
    refine ⟨work_lt (hlt _ _ ha hstep)
      (Nat.le_add_right_of_le (sumOver_le fun v _ => ?_)), rfl⟩
    by_cases hv : (core.workers v).pc = .inRun
    · exact le_of_eq (nodesLeft_congr ((hworkers v).2 ((hworkers v).1.mp hv)) hkeys rfl rfl)
    · rw [nodesLeft_of_ne hv]
      exact Nat.zero_le _

theorem workLeft_le_of_call {b : Action} {core : State} (hb : ¬Internal b)
    (hf : s.core.fault = none) (hm : Moves d.toParams s.core b core) :
    workLeft d.toParams core ≤ workLeft d.toParams s.core + 22 := by
  have hs : workLeft d.toParams s.core = 7 * s.core.queue.length + 10 * s.core.pending +
      sumOver d.workers Worker.work s.core.workers + s.core.producer.work + 1 := by
    rw [workLeft, if_neg (by simp [hf])]
  refine (workLeft_le _ _).trans ?_
  cases hm with
  | insertNull | reallocKept => exact hs ▸ Nat.le_add_right _ _
  | insert key n pc _ _ hpc =>
    have hpush : pc.work ≤ 22 := by rcases hpc with rfl | rfl <;> decide
    dsimp only
    omega
  | flush | wake | finish | realloc =>
    dsimp only [State.goTo, ProducerPc.work]
    omega
  | _ => exact absurd trivial hb

theorem ListMoves.listWorkLeft_le (h : Healthy d s) (ht : Healthy d t) (ha : ¬ListInternal a)
    (hm : ListMoves d s a t) : listWorkLeft d N t ≤ listWorkLeft d N s + 22 * (N + 1) := by
  have hsum : workLeft d.toParams t.core ≤ workLeft d.toParams s.core + 22 →
      (∀ w < d.workers, nodesLeft t w = nodesLeft s w) →
      listWorkLeft d N t ≤ listWorkLeft d N s + 22 * (N + 1) := by
    intro hwork hnodes
    have hle := Nat.mul_le_mul_right (N + 1) hwork
    have hrest : sumOver d.workers id (nodesLeft t) ≤ sumOver d.workers id (nodesLeft s) :=
      sumOver_le fun w hw => le_of_eq (hnodes w hw)
    rw [Nat.add_mul] at hle
    unfold listWorkLeft
    omega
  cases hm with
  | insertNull _ _ _ hne => exact absurd ht.core.fault hne
  | coreFault _ _ _ _ hne => exact absurd ht.core.fault hne
  | insertFault => cases ht.fault
  | insert c core n list hstep hn hlist =>
    refine hsum (workLeft_le_of_call id h.core.fault (moves_of_step hstep)) fun w _ => ?_
    cases moves_of_step hstep with
    | insertNull _ _ hl => rw [hn] at hl; cases hl
    | reallocKept _ _ hp | realloc _ hp => obtain ⟨he, -⟩ | ⟨he, -⟩ := hp <;> cases he
    | insert _ m pc _ hl =>
      obtain rfl : n = m := Option.some.inj (hn.symm.trans hl)
      unfold nodesLeft
      dsimp only
      split
      next k hpc hk =>
        have hne : k ≠ n := fun he => (h.core.handedOver.held w k hk).2 (he ▸ hn)
        rw [Function.update_of_ne hne, Function.update_of_ne hne]
      next => rfl
  | copyFault | copy | enterFault | enter | leave => exact absurd trivial ha
  | other b core hb hstep hruns hworkers =>
    have hkeys := ((moves_of_step hstep).keys_eq hb).1
    refine hsum (workLeft_le_of_call ha h.core.fault (moves_of_step hstep)) fun w _ => ?_
    by_cases hv : (core.workers w).pc = .inRun
    · exact nodesLeft_congr ((hworkers w).2 ((hworkers w).1.mp hv)) hkeys rfl rfl
    · rw [nodesLeft_of_ne hv, nodesLeft_of_ne fun hw => hv ((hworkers w).1.mpr hw)]

theorem Healthy.copy_ne_none (h : Healthy d s) (hw : w < d.workers)
    (hpc : (s.core.workers w).pc = .inRun) (hloop : (s.loops w).start ≠ none) :
    listStep d s (.copy w) ≠ none := by
  obtain ⟨k, hflush, -⟩ := h.core.flushing.running w hw hpc
  obtain ⟨y, hy⟩ := Option.ne_none_iff_exists'.mp hloop
  rw [listStep, if_neg (by simp [h.fault, h.core.fault]), if_pos ⟨hw, hpc⟩]
  unfold listCopy
  simp only [hflush, hy, holding]
  split_ifs
  · exact Option.some_ne_none _
  · split <;> exact Option.some_ne_none _

/-- Where the hand-off with its lists can go no further, the hand-off cannot either. -/
theorem Healthy.stuck_core (h : Healthy d s)
    (hstuck : ∀ b, ListInternal b → listStep d s b = none) :
    ∀ b, Internal b → Handoff.step d.toParams s.core b = none := by
  intro b hb
  have hb' := hstuck (.core b) hb
  rw [listStep.eq_def, if_neg (by simp [h.fault, h.core.fault])] at hb'
  cases b with
  | insert | flush | realloc | finish | wake => exact hb.elim
  | producer | take | exit => exact Option.map_eq_none_iff.mp hb'
  | worker w =>
    by_cases hloop : (s.core.workers w).pc = .inRun ∧ (s.loops w).start ≠ none
    · by_cases hw : w < d.workers
      · exact absurd (hstuck (.copy w) trivial) (h.copy_ne_none hw hloop.1 hloop.2)
      · rw [Handoff.step, if_neg (by simp [h.core.fault])]
        exact if_neg hw
    · dsimp only [listWorker] at hb'
      rw [if_neg hloop] at hb'
      exact Option.map_eq_none_iff.mp hb'

/-- What holds between two steps of a schedule in which nothing goes wrong and no list is
stranded. -/
structure Thriving (d : ListParams) (s : ListState) : Prop where
  healthy : Healthy d s
  merged : Merged d s
  served : Served d.toParams s.core.queue s.core.producer s.core.pending s.core.stop s.core.workers
  reachable : Reachable (step d.toParams) init s.core

theorem Thriving.step (h : Thriving d s) (hmax : d.skiplistMaxNum < queueMaxSize)
    (hone : 1 ≤ d.skiplistMaxNum) (hper : d.nvm.per1gNum ≠ 0)
    (henv : ∀ k, 1 ≤ (d.env k).height ∧ (d.env k).height ≤ d.nvm.kMaxHeight)
    (hwell : StepsWell d s a) (hload : LoadsSound d s a) (hm : ListMoves d s a t) :
    Thriving d t := by
  have ht := h.healthy.step hmax hper henv hwell hm
  refine ⟨ht, h.merged.step h.healthy.core.sequential h.healthy.core.fault hm ht.fault
    ht.core.fault, ?_, ?_⟩
  · rcases hm.core with ⟨-, he⟩ | ⟨b, hb, hstep⟩
    · rw [he]
      exact h.served
    · exact h.served.moves hone h.healthy.core.accounted (hload b hb) (moves_of_step hstep)
  · rcases hm.core with ⟨-, he⟩ | ⟨b, -, hstep⟩
    · rw [he]
      exact h.reachable
    · exact h.reachable.concat hstep

theorem Thriving.arrived (h : Thriving d s) {nvmMaxHeight optNum per1gNum : ℕ}
    (hnvm : d.nvm = .new nvmMaxHeight d.keySize optNum per1gNum)
    (henv : ∀ k, 1 ≤ (d.env k).height ∧ (d.env k).height ≤ nvmMaxHeight % 2 ^ 16)
    (hsettled : Settled d.toParams s.core) :
    ∃ n keys P, s.core.skiplist = some n ∧ s.inserted = keys ++ s.core.keys n ∧
      s.nvm.HoldsWindows P ∧ P.Perm (keys.map (List.take d.keySize)) ∧ P.Pairwise WindowOrder := by
  have hactive : s.core.skiplist ≠ none := by
    intro hnull
    have hlent := h.healthy.core.supplied.lent.mpr hnull
    rcases hsettled.parties with ⟨hp, -⟩ | ⟨hp, -⟩ <;> rw [hp] at hlent <;> exact hlent
  obtain ⟨n, hn⟩ := Option.ne_none_iff_exists'.mp hactive
  have hworkers : ¬SomeWorker d.toParams s.core.workers Alive := by
    rintro ⟨w, hw, halive⟩
    rcases hsettled.parties with ⟨-, hpc⟩ | ⟨-, hpc⟩ <;> rw [hpc w hw] at halive <;> exact halive
  obtain ⟨keys, P, hkeys, hP, hperm, hsorted, -⟩ := h.healthy.recorded.arrived h.merged
    h.healthy.core.sequential hnvm henv h.healthy.core.fault hn hsettled.queue hworkers
  exact ⟨n, keys, P, hn, hkeys, hP, hperm, hsorted⟩

/-- However the producer's calls and the threads are interleaved, the system comes to rest within a
bounded number of steps after the last call, with every key of every flushed list in the NVM
list. -/
theorem settles_with_keys (d : ListParams) (nvmMaxHeight optNum per1gNum : ℕ)
    (hnvm : d.nvm = .new nvmMaxHeight d.keySize optNum per1gNum) (hper : per1gNum ≠ 0)
    (hdram : 0 < d.dramMaxHeight % 2 ^ 16) (hone : 1 ≤ d.skiplistMaxNum)
    (hmax : d.skiplistMaxNum < queueMaxSize) (hworkers : 0 < d.workers)
    (henv : ∀ k, 1 ≤ (d.env k).height ∧ (d.env k).height ≤ nvmMaxHeight % 2 ^ 16)
    (as bs : List ListAction) (s t : ListState)
    (hs : run (listStep d) (listInit d) as = some s) (ht : run (listStep d) s bs = some t)
    (hbs : ∀ b ∈ bs, ListInternal b)
    (hguard : Guarded (listStep d) (listInit d) (as ++ bs) fun s a =>
      StepsWell d s a ∧ LoadsSound d s a) :
    bs.length ≤ (workLeft d.toParams s.core + d.workers) * (s.inserted.length + 1) ∧
      ((∀ b, ListInternal b → listStep d t b = none) → Settled d.toParams t.core ∧
        ∃ n keys P, t.core.skiplist = some n ∧ t.inserted = keys ++ t.core.keys n ∧
          t.nvm.HoldsWindows P ∧ P.Perm (keys.map (List.take d.keySize)) ∧
          P.Pairwise WindowOrder) := by
  have hheight : d.nvm.kMaxHeight = nvmMaxHeight % 2 ^ 16 := by rw [hnvm]; rfl
  have hwindow : d.nvm.per1gNum = per1gNum := by rw [hnvm]; rfl
  have hstep : ∀ s a t, Thriving d s → StepsWell d s a ∧ LoadsSound d s a →
      listStep d s a = some t → Thriving d t := fun s a t h hok hs =>
    h.step hmax hone (by rwa [hwindow]) (by rwa [hheight]) hok.1 hok.2 (listMoves_of_listStep hs)
  have hinit : Thriving d (listInit d) :=
    ⟨listInit_healthy hnvm hdram (henv 0), listInit_merged d, init_served d.toParams, [], rfl⟩
  have hthrives := (hguard.of_prefix (List.prefix_append as bs)).invariant hinit hstep hs
  have hrest := hguard.of_append hs
  constructor
  · have hkept : ∀ u a v, Thriving d u ∧ u.inserted = s.inserted →
        (StepsWell d u a ∧ LoadsSound d u a) ∧ ListInternal a → listStep d u a = some v →
        (Thriving d v ∧ v.inserted = s.inserted) ∧
          listWorkLeft d s.inserted.length v < listWorkLeft d s.inserted.length u := by
      intro u a v ⟨h, hkeys⟩ ⟨hok, ha⟩ hs
      have hv := hstep u a v h hok hs
      obtain ⟨hlt, hsame⟩ := (listMoves_of_listStep hs).listWorkLeft_lt h.healthy hv.healthy
        (stale_of_reachable h.reachable) (le_of_eq (congrArg List.length hkeys)) ha
      exact ⟨⟨hv, hsame.trans hkeys⟩, hlt⟩
    have hle := (hrest.and (Guarded.of_forall hbs)).length_le
      (fun u a v h hok hs => (hkept u a v h hok hs).1)
      (fun u a v h hok hs => (hkept u a v h hok hs).2) ⟨hthrives, rfl⟩ ht
    have hbound := hthrives.healthy.listWorkLeft_le
    omega
  · intro hstuck
    have hthrives := hrest.invariant hthrives hstep ht
    have hsettled := settled_of_stuck hworkers hthrives.reachable hthrives.served
      hthrives.healthy.core.fault (hthrives.healthy.stuck_core hstuck)
    exact ⟨hsettled, hthrives.arrived hnvm henv hsettled⟩

instance (d : ListParams) (s : ListState) (a : ListAction) : Decidable (LoadsSound d s a) :=
  inferInstanceAs (Decidable (∀ b, a.toCore = some b → LoadSound d.toParams s.core b))

instance : DecidablePred ListInternal := fun a =>
  match a with
  | .copy _ | .core .producer | .core (.worker _) | .core (.take _) | .core (.exit _) =>
    isTrue trivial
  | .insert _ | .core (.insert _) | .core .flush | .core .realloc | .core .finish | .core .wake =>
    isFalse id

theorem Settled.listStuck (h : Settled d.toParams s.core)
    (hstop : s.core.producer = .idle → s.core.stop = false) (ha : ListInternal a) :
    listStep d s a = none := by
  unfold listStep
  by_cases hf : s.fault.isSome ∨ s.core.fault.isSome
  · exact if_pos hf
  rw [if_neg hf]
  cases a with
  | insert => exact ha.elim
  | copy w =>
    refine if_neg fun ⟨hw, hpc⟩ => ?_
    rcases h.parties with ⟨-, hall⟩ | ⟨-, hall⟩ <;> rw [hall w hw] at hpc <;> cases hpc
  | core b =>
    cases b with
    | insert | flush | realloc | finish | wake => exact ha.elim
    | producer | take | exit => exact Option.map_eq_none_iff.mpr (h.stuck hstop ha)
    | worker w =>
      dsimp only [listWorker]
      split_ifs
      · rfl
      · exact Option.map_eq_none_iff.mpr (h.stuck hstop ha)

end PersistTree.Handoff
