import PersistTree.Log.AllocateFile

/-!
# The capacity of a log

`Allocate` checks nothing: a log stays inside its file because `Flush` replaces it once its keys
reach `max_mem_skiplist_size_` bytes, and `AllocateFile` adds 1 MiB for the last key. `Init` opens
the first log before it stores `one_log_size`, so that log has the default size whatever the
threshold is. It is the only one that can overflow.
-/
namespace PersistTree.Log

open Library Handoff Transition

def bytes (keys : List Key) : ℕ := (keys.map List.length).sum

/-- The capacity of the first log. -/
def firstCapacity : ℕ := k64MB + 1048576

/-- `Allocate` for a key of `Insert` does not pass the end of the log. -/
def WithinCapacity (s : State) (a : Action) : Prop :=
  ∀ key al, a = .insert key → s.allocator = some al → al.curIndex + key.length ≤ al.capacity

def inserted (as : List Action) : List Key :=
  as.filterMap fun a => match a with
    | .insert key => some key
    | _ => none

/-- The keys up to the one that reaches the threshold fit into a log of the default size. -/
def FirstFits (max : ℕ) (keys : List Key) : Prop :=
  ∀ ks key, ks ++ [key] <+: keys → bytes ks < max → bytes ks + key.length ≤ firstCapacity

/-- What the program runs into by itself: keys of at most 1 MiB, and no `Flush` or `Realloc` from
outside. -/
def Automatic (a : Action) : Prop :=
  a ≠ .flush ∧ a ≠ .realloc ∧ ∀ key, a = .insert key → key.length ≤ 1048576

def Flushing (pc : ProducerPc) : Prop := pc ≠ .idle ∧ pc ≠ .done

variable {p : Params} {s t : State} {a : Action} {n made cur : ℕ} {core : Handoff.State}
  {skiplist : Option ℕ} {keys : ℕ → List Key} {pc : ProducerPc}
  {allocator : Option PersistentAllocator} {al : PersistentAllocator} {key : Key}

theorem bytes_concat (keys : List Key) (key : Key) :
    bytes (keys ++ [key]) = bytes keys + key.length := by
  simp [bytes]

/-- The counters of the active list and its log agree with its keys. -/
structure Counted (max : ℕ) (skiplist : Option ℕ) (made : ℕ) (keys : ℕ → List Key) (cur : ℕ)
    (pc : ProducerPc) (allocator : Option PersistentAllocator) : Prop where
  made_pos : 1 ≤ made
  idle : pc = .idle → skiplist ≠ none
  newest : ∀ n, skiplist = some n → n + 1 = made
  fresh : ∀ n, made ≤ n → keys n = []
  count : ∀ n, skiplist = some n → cur = bytes (keys n) % 2 ^ 64
  active : ∀ n, skiplist = some n → ∃ al, allocator = some al ∧ al.curIndex = bytes (keys n) ∧
    al.capacity = if made = 1 then firstCapacity else (max + 1048576) % 2 ^ 64

/-- The invariant, as long as no fault has ended the process. -/
def CountedState (p : Params) (s : State) : Prop :=
  s.core.fault = none → Counted p.maxMemSkiplistSize s.core.skiplist s.core.made s.core.keys
    s.core.curMemSkiplistSize s.core.producer s.allocator

theorem Counted.goTo {max : ℕ} (h : Counted max skiplist made keys cur pc allocator)
    {pc' : ProducerPc} (hidle : pc' ≠ .idle) :
    Counted max skiplist made keys cur pc' allocator :=
  ⟨h.made_pos, fun he => absurd he hidle, h.newest, h.fresh, h.count, h.active⟩

theorem Counted.insert {max : ℕ} (h : Counted max (some n) made keys cur pc (some al))
    (pc' : ProducerPc) :
    Counted max (some n) made (Function.update keys n (keys n ++ [key]))
      ((cur + key.length) % 2 ^ 64) pc'
      (some { al with curIndex := al.curIndex + key.length }) where
  made_pos := h.made_pos
  idle _ := Option.some_ne_none n
  newest := h.newest
  fresh := by
    intro m hm
    have hne : m ≠ n := by
      have := h.newest n rfl
      omega
    rw [Function.update_of_ne hne]
    exact h.fresh m hm
  count := by
    rintro m ⟨⟩
    rw [Function.update_self, bytes_concat, h.count n rfl, Nat.mod_add_mod]
  active := by
    rintro m ⟨⟩
    obtain ⟨al', ⟨⟩, hindex, hcap⟩ := h.active n rfl
    refine ⟨_, rfl, ?_, hcap⟩
    rw [Function.update_self, bytes_concat, ← hindex]

theorem Counted.realloc {max : ℕ} (h : Counted max none made keys cur pc allocator)
    (name : List UInt8) (pc' : ProducerPc) :
    Counted max (some made) (made + 1) keys 0 pc' (some ⟨name, (max + 1048576) % 2 ^ 64, 0⟩) where
  made_pos := Nat.le_add_left 1 made
  idle _ := Option.some_ne_none made
  newest := by
    rintro m ⟨⟩
    rfl
  fresh := by
    intro m hm
    exact h.fresh m (by omega)
  count := by
    rintro m ⟨⟩
    rw [h.fresh made le_rfl]
    rfl
  active := by
    rintro m ⟨⟩
    refine ⟨_, rfl, ?_, ?_⟩
    · rw [h.fresh made le_rfl]
      rfl
    · have := h.made_pos
      rw [if_neg (by omega)]

theorem Counted.handOver {max : ℕ} (h : Counted max skiplist made keys cur pc allocator)
    {pc' : ProducerPc} (hidle : pc' ≠ .idle) : Counted max none made keys cur pc' none :=
  ⟨h.made_pos, fun he => absurd he hidle, nofun, h.fresh, nofun, nofun⟩

/-- What a step does to the active list and its log. -/
inductive Effect (p : Params) (s : State) : Action → State → Prop
  | fault (a : Action) (t : State) (hf : t.core.fault ≠ none) : Effect p s a t
  | insert (key : Key) (n : ℕ) (al : PersistentAllocator) (t : State)
      (hp : s.core.producer = .idle) (hl : s.core.skiplist = some n)
      (hal : s.allocator = some al) (hcore : t.core = insertKey p.toParams s.core key)
      (hal' : t.allocator = some { al with curIndex := al.curIndex + key.length }) :
      Effect p s (.insert key) t
  | handOver (t : State) (hp : s.core.producer = .push) (hl' : t.core.skiplist = none)
      (hmade : t.core.made = s.core.made) (hkeys : t.core.keys = s.core.keys)
      (hcur : t.core.curMemSkiplistSize = s.core.curMemSkiplistSize)
      (hp' : t.core.producer = .blockTest) (hal' : t.allocator = none) :
      Effect p s .producer t
  | realloc (a : Action) (t : State) (name : List UInt8) (hp : InRealloc s.core a)
      (hl : s.core.skiplist = none) (hl' : t.core.skiplist = some s.core.made)
      (hmade : t.core.made = s.core.made + 1) (hkeys : t.core.keys = s.core.keys)
      (hcur : t.core.curMemSkiplistSize = 0) (hp' : t.core.producer = .idle)
      (hal' : t.allocator = some ⟨name, (p.maxMemSkiplistSize + 1048576) % 2 ^ 64, 0⟩) :
      Effect p s a t
  | quiet (a : Action) (t : State) (ha : inserted [a] = []) (hl : t.core.skiplist = s.core.skiplist)
      (hmade : t.core.made = s.core.made) (hkeys : t.core.keys = s.core.keys)
      (hcur : t.core.curMemSkiplistSize = s.core.curMemSkiplistSize)
      (hal : t.allocator = s.allocator)
      (hp : t.core.producer = s.core.producer ∨ t.core.producer = .done ∨ a = .flush ∧
        t.core.producer = .push ∨ Flushing s.core.producer ∧ Flushing t.core.producer) :
      Effect p s a t

theorem effect_insert (hp : s.core.producer = .idle) :
    Effect p s (.insert key) (logEffect p s (insertKey p.toParams s.core key) (.insert key)) := by
  rcases appendLog_cases s key with he | ⟨n, al, hn, hal, -, he⟩
  · simp only [logEffect, he]
    exact .fault _ _ (Option.some_ne_none _)
  · simp only [logEffect, he]
    exact .insert key n al _ hp hn hal rfl rfl

theorem effect_reallocLog (hf : core.fault = none) (hp : InRealloc s.core a)
    (hl : s.core.skiplist = none) (hl' : core.skiplist = some s.core.made)
    (hmade : core.made = s.core.made + 1) (hkeys : core.keys = s.core.keys)
    (hcur : core.curMemSkiplistSize = 0) (hp' : core.producer = .idle) :
    Effect p s a (reallocLog p { s with core := core }) := by
  rw [reallocLog, if_neg (by rw [hf]; simp)]
  exact .realloc a _ _ hp hl hl' hmade hkeys hcur hp' rfl

theorem effect_assertLog {f : FlushNVM} (ht : Effect p s a t) : Effect p s a (assertLog t f) := by
  unfold assertLog
  split_ifs
  · exact .fault _ _ (Option.some_ne_none _)
  · exact ht

theorem step_insert {q : Handoff.Params} {s t : Handoff.State}
    (h : Handoff.step q s (.insert key) = some t) :
    s.producer = .idle ∧ t = insertKey q s key := by
  have hf := fault_of_step h
  simp only [Handoff.step, hf, Option.isSome_none, Bool.false_eq_true, if_false] at h
  obtain ⟨hp, ⟨⟩⟩ := Option.ite_none_right_eq_some.mp h
  exact ⟨hp, rfl⟩

theorem effect_of_step (hs : step p s a = some t) : Effect p s a t := by
  obtain ⟨core, hcore, rfl⟩ := Option.map_eq_some_iff.mp hs
  have hf := fault_of_step hcore
  have hm := moves_of_step hcore
  cases hm with
  | insertNull | insert =>
    obtain ⟨hp, he⟩ := step_insert hcore
    rw [he]
    exact effect_insert hp
  | flush hp => exact .quiet _ _ rfl rfl rfl rfl rfl rfl (Or.inr (Or.inr (Or.inl ⟨rfl, rfl⟩)))
  | finish hp => exact .quiet _ _ rfl rfl rfl rfl rfl rfl (Or.inr (Or.inl rfl))
  | reallocKept a n hp hl =>
    rcases hp with ⟨rfl, hp⟩ | ⟨rfl, hp⟩
    · exact .fault _ _ (Option.some_ne_none _)
    · simp only [logEffect, hp]
      exact .fault _ _ (Option.some_ne_none _)
  | realloc a hp hl =>
    have hp' := hp
    rcases hp with ⟨rfl, hp⟩ | ⟨rfl, hp⟩
    · exact effect_reallocLog hf hp' hl rfl rfl rfl rfl rfl
    · simp only [logEffect, hp]
      exact effect_reallocLog hf hp' hl rfl rfl rfl rfl rfl
  | push hp hq =>
    cases hn : s.core.skiplist with
    | none =>
      simp only [logEffect, hp, hn]
      refine .quiet _ _ rfl hn.symm rfl rfl rfl rfl (Or.inr (Or.inr (Or.inr ?_)))
      rw [hp]
      exact ⟨⟨nofun, nofun⟩, nofun, nofun⟩
    | some n =>
      simp only [logEffect, hp, hn, handOver, hf]
      exact .handOver _ hp rfl rfl rfl rfl rfl rfl
  | pushFull hp =>
    cases hn : s.core.skiplist with
    | none =>
      simp only [logEffect, hp, hn]
      exact .fault _ _ (Option.some_ne_none _)
    | some n =>
      simp only [logEffect, hp, hn, handOver]
      exact .fault _ _ (Option.some_ne_none _)
  | block hp hb | pass hp hb | waited hp hq | sleep hp hq | loadTrue hp hr | loadFalse hp hr
  | enqueue hp =>
    simp only [logEffect, hp]
    refine .quiet _ _ rfl rfl rfl rfl rfl rfl (Or.inr (Or.inr (Or.inr ?_)))
    rw [hp]
    exact ⟨⟨nofun, nofun⟩, nofun, nofun⟩
  | wake hp =>
    refine .quiet _ _ rfl rfl rfl rfl rfl rfl (Or.inr (Or.inr (Or.inr ?_)))
    rw [hp]
    exact ⟨⟨nofun, nofun⟩, nofun, nofun⟩
  | notifyWake w hw hpc hp =>
    simp only [logEffect, hpc]
    refine .quiet _ _ rfl rfl rfl rfl rfl rfl (Or.inr (Or.inr (Or.inr ?_)))
    rw [hp]
    exact ⟨⟨nofun, nofun⟩, nofun, nofun⟩
  | start w hw hpc | testLeave w hw hpc | testStay w hw hpc | loopLeave w hw hpc
  | loopStay w hw hpc | popNone w hw hpc | pop w f queue hw hpc | sizeNotify w hw hpc
  | sizeSkip w hw hpc | notify w hw hpc | clear w hw hpc =>
    simp only [logEffect, hpc]
    exact .quiet _ _ rfl rfl rfl rfl rfl rfl (Or.inl rfl)
  | runFault w e hw hpc =>
    simp only [logEffect, hpc]
    exact effect_assertLog (.fault _ _ (Option.some_ne_none _))
  | run w n hw hpc =>
    simp only [logEffect, hpc]
    exact effect_assertLog (.quiet _ _ rfl rfl rfl rfl rfl rfl (Or.inl rfl))
  | endRun w hw hpc =>
    simp only [logEffect, hpc, deleteLog]
    cases (s.core.workers w).flush.skiplist with
    | none => exact .quiet _ _ rfl rfl rfl rfl rfl rfl (Or.inl rfl)
    | some n => exact .quiet _ _ rfl rfl rfl rfl rfl rfl (Or.inl rfl)
  | take | exit => exact .quiet _ _ rfl rfl rfl rfl rfl rfl (Or.inl rfl)

theorem fault_of_logStep (hs : step p s a = some t) : s.core.fault = none := by
  obtain ⟨core, hcore, -⟩ := Option.map_eq_some_iff.mp hs
  exact fault_of_step hcore

theorem insertKey_eq {q : Handoff.Params} {s : Handoff.State} (hl : s.skiplist = some n)
    (hp : s.producer = .idle) (key : Key) : insertKey q s key = { s with
      keys := Function.update s.keys n (s.keys n ++ [key])
      curMemSkiplistSize := (s.curMemSkiplistSize + key.length) % 2 ^ 64
      producer := if q.maxMemSkiplistSize ≤ (s.curMemSkiplistSize + key.length) % 2 ^ 64 then .push
        else .idle } := by
  unfold insertKey
  rw [hl]
  dsimp only
  split_ifs with hfull
  · rfl
  · rw [← hp]

theorem CountedState.step (h : CountedState p s) (hs : Log.step p s a = some t) :
    CountedState p t := by
  intro hf
  have hc := h (fault_of_logStep hs)
  cases effect_of_step hs with
  | fault a t hf' => exact absurd hf hf'
  | insert key n al t hp hl hal hcore hal' =>
    rw [hcore, insertKey_eq hl hp, hal']
    rw [hl, hal] at hc
    dsimp only
    rw [hl]
    exact hc.insert _
  | handOver t hp hl' hmade hkeys hcur hp' hal' =>
    rw [hl', hmade, hkeys, hcur, hp', hal']
    exact hc.handOver nofun
  | realloc a t name hp hl hl' hmade hkeys hcur hp' hal' =>
    rw [hl] at hc
    rw [hl', hmade, hkeys, hcur, hp', hal']
    exact hc.realloc name _
  | quiet a t ha hl hmade hkeys hcur hal hp =>
    rw [hl, hmade, hkeys, hcur, hal]
    rcases hp with hp | hp | ⟨-, hp⟩ | ⟨-, hp⟩
    · rw [hp]
      exact hc
    · exact hc.goTo (by rw [hp]; nofun)
    · exact hc.goTo (by rw [hp]; nofun)
    · exact hc.goTo hp.1

theorem init_counted (p : Params) (seq : ℕ) (files : List UInt8 → LogFile) :
    CountedState p (init p seq files) := by
  intro _
  constructor
  · exact le_rfl
  · nofun
  · rintro n ⟨⟩
    rfl
  · intro n _
    rfl
  · intro n _
    rfl
  · intro n _
    have hsize : (k64MB + 1048576) % 2 ^ 64 = firstCapacity := Nat.mod_eq_of_lt (by decide)
    exact ⟨_, rfl, rfl, hsize.trans (if_pos rfl).symm⟩

/-- Between two calls of `Insert` the active list is below the threshold. -/
def BelowState (p : Params) (s : State) : Prop :=
  s.core.fault = none → s.core.producer = .idle → ∀ n, s.core.skiplist = some n →
    bytes (s.core.keys n) = 0 ∨ bytes (s.core.keys n) < p.maxMemSkiplistSize

/-- A threshold that leaves room for one more key in 64 bits is never jumped over. -/
theorem BelowState.step (h : BelowState p s) (hc : CountedState p s)
    (hmax : p.maxMemSkiplistSize + 1048576 ≤ 2 ^ 64) (ha : Automatic a)
    (hs : Log.step p s a = some t) : BelowState p t := by
  intro hf hidle n hn
  have hb := h (fault_of_logStep hs)
  have hc' := hc (fault_of_logStep hs)
  cases effect_of_step hs with
  | fault a t hf' => exact absurd hf hf'
  | insert key m al t hp hl hal hcore hal' =>
    have hlen := ha.2.2 key rfl
    have hcount := hc'.count m hl
    have hbelow := hb hp m hl
    rw [hcore, insertKey_eq hl hp] at hidle hn ⊢
    dsimp only at hidle hn ⊢
    obtain rfl : m = n := Option.some.inj (hl.symm.trans hn)
    rw [Function.update_self, bytes_concat]
    right
    split_ifs at hidle with hfull
    rw [hcount, Nat.mod_add_mod] at hfull
    omega
  | handOver t hp hl' =>
    rw [hl'] at hn
    cases hn
  | realloc a t name hp hl hl' hmade hkeys hcur hp' hal' =>
    rw [hl'] at hn
    obtain rfl := Option.some.inj hn
    rw [hkeys, hc'.fresh _ le_rfl]
    exact Or.inl rfl
  | quiet a t ha hl hmade hkeys hcur hal hp =>
    rw [hl] at hn
    rw [hkeys]
    apply hb _ n hn
    rcases hp with hp | hp | ⟨-, hp⟩ | ⟨-, hp⟩
    · exact hp.symm.trans hidle
    · cases hp.symm.trans hidle
    · cases hp.symm.trans hidle
    · exact absurd hidle hp.1

/-- While the first log is the active one it takes all keys, and it is replaced when they reach the
threshold. -/
structure History (p : Params) (ks : List Key) (s : State) : Prop where
  first : s.core.made = 1 → s.core.keys 0 = ks
  reached : s.core.made ≠ 1 ∨ Flushing s.core.producer → p.maxMemSkiplistSize ≤ bytes ks

theorem inserted_of_inRealloc (h : InRealloc core a) : inserted [a] = [] := by
  rcases h with ⟨rfl, -⟩ | ⟨rfl, -⟩
  · rfl
  · rfl

theorem History.insert {ks : List Key} (h : History p ks s)
    (hc : Counted p.maxMemSkiplistSize s.core.skiplist s.core.made s.core.keys
      s.core.curMemSkiplistSize s.core.producer s.allocator)
    (hp : s.core.producer = .idle) (hl : s.core.skiplist = some n)
    (hcore : t.core = insertKey p.toParams s.core key) : History p (ks ++ [key]) t := by
  have hn := hc.newest n hl
  have hcount := hc.count n hl
  have hcore' := hcore.trans (insertKey_eq hl hp key)
  constructor
  · rw [hcore']
    intro hone
    obtain rfl : n = 0 := by
      dsimp only at hone
      omega
    rw [← h.first hone]
    exact Function.update_self 0 _ s.core.keys
  · rw [hcore', bytes_concat]
    rintro (hmade | hflush)
    · exact (h.reached (Or.inl hmade)).trans (Nat.le_add_right _ _)
    · by_cases hone : s.core.made = 1
      · obtain rfl : n = 0 := by omega
        rw [h.first hone] at hcount
        dsimp only at hflush
        split_ifs at hflush with hfull
        · exact hfull.trans ((Nat.mod_le _ _).trans
            (Nat.add_le_add_right (hcount ▸ Nat.mod_le _ _) _))
        · exact absurd rfl hflush.1
      · exact (h.reached (Or.inl hone)).trans (Nat.le_add_right _ _)

theorem History.step {ks : List Key} (h : History p ks s) (hc : CountedState p s)
    (ha : Automatic a) (hs : Log.step p s a = some t) (hf : t.core.fault = none) :
    History p (ks ++ inserted [a]) t := by
  have hc' := hc (fault_of_logStep hs)
  cases effect_of_step hs with
  | fault a t hf' => exact absurd hf hf'
  | insert key n al t hp hl hal hcore hal' => exact h.insert hc' hp hl hcore
  | handOver t hp hl' hmade hkeys hcur hp' hal' =>
    have hreached := h.reached (Or.inr (by rw [hp]; exact ⟨nofun, nofun⟩))
    constructor
    · rw [hmade, hkeys]
      intro hone
      exact (h.first hone).trans (List.append_nil ks).symm
    · intro _
      exact hreached.trans_eq (congrArg bytes (List.append_nil ks).symm)
  | realloc a t name hp hl hl' hmade hkeys hcur hp' hal' =>
    rw [inserted_of_inRealloc hp, List.append_nil]
    have hreached : p.maxMemSkiplistSize ≤ bytes ks := by
      apply h.reached
      right
      rcases hp with ⟨rfl, -⟩ | ⟨-, hp⟩
      · exact absurd rfl ha.2.1
      · rw [hp]
        exact ⟨nofun, nofun⟩
    constructor
    · intro hone
      have := hc'.made_pos
      omega
    · exact fun _ => hreached
  | quiet a t hnone hl hmade hkeys hcur hal hp =>
    rw [hnone, List.append_nil]
    constructor
    · rw [hmade, hkeys]
      exact h.first
    · rw [hmade]
      rintro (hone | hflush)
      · exact h.reached (Or.inl hone)
      · rcases hp with hp | hp | ⟨rfl, -⟩ | ⟨hp, -⟩
        · rw [hp] at hflush
          exact h.reached (Or.inr hflush)
        · rw [hp] at hflush
          exact absurd rfl hflush.2
        · exact absurd rfl ha.1
        · exact h.reached (Or.inr hp)

theorem inserted_concat (as : List Action) (a : Action) :
    inserted (as ++ [a]) = inserted as ++ inserted [a] := List.filterMap_append

theorem run_counted {seq : ℕ} {files : List UInt8 → LogFile} {as : List Action}
    (hr : run (step p) (init p seq files) as = some s) : CountedState p s :=
  (Reachable.of_run hr).invariant (init_counted p seq files) fun _ _ _ => CountedState.step

theorem run_history {seq : ℕ} {files : List UInt8 → LogFile} {as : List Action}
    (hr : run (step p) (init p seq files) as = some s) (ha : ∀ a ∈ as, Automatic a)
    (hf : s.core.fault = none) : History p (inserted as) s := by
  induction as using List.reverseRecOn generalizing s with
  | nil =>
    cases hr
    constructor
    · intro _
      rfl
    · rintro (hone | hflush)
      · exact absurd rfl hone
      · exact absurd rfl hflush.1
  | append_singleton as a ih =>
    obtain ⟨u, hu, hs⟩ := (run_concat _).mp hr
    rw [inserted_concat]
    refine (ih hu ?_ (fault_of_logStep hs)).step (run_counted hu) ?_ hs hf
    · exact fun b hb => ha b (List.mem_append_left _ hb)
    · exact ha a (by simp)

theorem run_below {seq : ℕ} {files : List UInt8 → LogFile} {as : List Action}
    (hmax : p.maxMemSkiplistSize + 1048576 ≤ 2 ^ 64)
    (hr : run (step p) (init p seq files) as = some s) (ha : ∀ a ∈ as, Automatic a) :
    BelowState p s := by
  have hg : Guarded (step p) (init p seq files) as fun _ a => Automatic a := .of_forall ha
  have hboth : BelowState p s ∧ CountedState p s := by
    refine hg.invariant (I := fun s => BelowState p s ∧ CountedState p s) ?_ ?_ hr
    · refine ⟨?_, init_counted p seq files⟩
      rintro _ _ n ⟨⟩
      exact Or.inl rfl
    · intro s a t h ha hs
      exact ⟨h.1.step h.2 hmax ha hs, h.2.step hs⟩
  exact hboth.1

/-- Below a threshold that is not reached all keys fit into the first log. -/
theorem FirstFits.bytes_le {max : ℕ} {ks : List Key} (h : FirstFits max ks)
    (hmax : firstCapacity < max) : bytes ks ≤ firstCapacity := by
  induction ks using List.reverseRecOn with
  | nil => exact Nat.zero_le _
  | append_singleton ks key ih =>
    have hks : bytes ks ≤ firstCapacity := by
      apply ih
      intro ks' key' hpre
      exact h ks' key' (hpre.trans (List.prefix_append ks [key]))
    rw [bytes_concat]
    exact h ks key (List.prefix_refl _) (lt_of_le_of_lt hks hmax)

/-- A threshold of at most the default size is safe whatever the keys are. -/
theorem firstFits_of_le {max : ℕ} {keys : List Key} (hmax : max ≤ k64MB + 1)
    (hlen : ∀ key ∈ keys, key.length ≤ 1048576) : FirstFits max keys := by
  intro ks key hpre hks
  have := hlen key (hpre.subset (by simp))
  unfold firstCapacity
  omega

theorem exists_insert_of_prefix {as : List Action} {ks : List Key}
    (h : ks ++ [key] <+: inserted as) : ∃ bs, bs ++ [.insert key] <+: as ∧ inserted bs = ks := by
  obtain ⟨bs, a, hbs, hks, ha⟩ := exists_prefix_of_filterMap h
  cases a with
  | insert key' =>
    obtain rfl := Option.some.inj ha
    exact ⟨bs, hbs, hks⟩
  | _ => cases ha

theorem before_insert {seq : ℕ} {files : List UInt8 → LogFile} {as bs : List Action}
    (hrun : run (step p) (init p seq files) as = some s)
    (hbs : bs ++ [.insert key] <+: as) :
    ∃ u n al, run (step p) (init p seq files) bs = some u ∧ u.core.fault = none ∧
      u.core.producer = .idle ∧ u.core.skiplist = some n ∧ u.allocator = some al := by
  obtain ⟨v, hv⟩ := run_prefix _ hbs hrun
  obtain ⟨u, hu, hstep⟩ := (run_concat _).mp hv
  have hf := fault_of_logStep hstep
  have hc := run_counted hu hf
  obtain ⟨core, hcore, -⟩ := Option.map_eq_some_iff.mp hstep
  have hidle := (step_insert hcore).1
  obtain ⟨n, hl⟩ := Option.ne_none_iff_exists'.mp (hc.idle hidle)
  obtain ⟨al, hal, -⟩ := hc.active n hl
  exact ⟨u, n, al, hu, hf, hidle, hl, hal⟩

/-- What is left of the first log depends on all keys so far. -/
theorem fits_first_iff {ks : List Key} (hh : History p ks s) (hc : CountedState p s)
    (hf : s.core.fault = none) (hone : s.core.made = 1) (hl : s.core.skiplist = some n)
    (hal : s.allocator = some al) :
    al.curIndex + key.length ≤ al.capacity ↔ bytes ks + key.length ≤ firstCapacity := by
  obtain rfl : n = 0 := by
    have := (hc hf).newest n hl
    omega
  obtain ⟨al', hal', hindex, hcap⟩ := (hc hf).active 0 hl
  obtain rfl := Option.some.inj (hal.symm.trans hal')
  rw [hindex, hcap, if_pos hone, hh.first hone]

theorem capacity_later {max : ℕ} (hc : Counted max skiplist made keys cur pc allocator)
    (hone : made ≠ 1) (hmax : max ≤ firstCapacity) (hl : skiplist = some n)
    (hal : allocator = some al) (hbelow : bytes (keys n) = 0 ∨ bytes (keys n) < max)
    (hlen : key.length ≤ 1048576) : al.curIndex + key.length ≤ al.capacity := by
  obtain ⟨al', hal', hindex, hcap⟩ := hc.active n hl
  obtain rfl := Option.some.inj (hal.symm.trans hal')
  have hsmall : firstCapacity + 1048576 < 2 ^ 64 := by decide
  rw [hcap, if_neg hone, Nat.mod_eq_of_lt (by omega), hindex]
  omega

theorem firstFits_of_guarded {seq : ℕ} {files : List UInt8 → LogFile} {as : List Action}
    (hrun : run (step p) (init p seq files) as = some s) (hauto : ∀ a ∈ as, Automatic a)
    (h : Guarded (step p) (init p seq files) as WithinCapacity) :
    FirstFits p.maxMemSkiplistSize (inserted as) := by
  intro ks key hpre hks
  obtain ⟨bs, hbs, rfl⟩ := exists_insert_of_prefix hpre
  obtain ⟨u, n, al, hu, hf, -, hl, hal⟩ := before_insert hrun hbs
  have hh := run_history hu (fun a ha => hauto a (hbs.subset (List.mem_append_left _ ha))) hf
  have hone : u.core.made = 1 := by
    by_contra hmade
    exact absurd (hh.reached (Or.inl hmade)) (Nat.not_le.mpr hks)
  have hfits := h bs (.insert key) hbs u hu key al rfl hal
  exact (fits_first_iff hh (run_counted hu) hf hone hl hal).mp hfits

theorem guarded_of_firstFits {seq : ℕ} {files : List UInt8 → LogFile} {as : List Action}
    (hrun : run (step p) (init p seq files) as = some s) (hauto : ∀ a ∈ as, Automatic a)
    (h : FirstFits p.maxMemSkiplistSize (inserted as)) :
    Guarded (step p) (init p seq files) as WithinCapacity := by
  rintro bs a hbs u hu key al rfl hal
  obtain ⟨u', n, al', hu', hf, hidle, hl, -⟩ := before_insert hrun hbs
  obtain rfl := Option.some.inj (hu.symm.trans hu')
  have hauto' : ∀ a ∈ bs, Automatic a := fun a ha =>
    hauto a (hbs.subset (List.mem_append_left _ ha))
  have hlen := (hauto _ (hbs.subset (List.mem_append_right _ (by simp)))).2.2 key rfl
  have hpre : inserted bs ++ [key] <+: inserted as := by
    obtain ⟨cs, rfl⟩ := hbs
    exact ⟨inserted cs, by simp [inserted]⟩
  have hh := run_history hu hauto' hf
  have hc := run_counted hu
  rcases Nat.lt_or_ge firstCapacity p.maxMemSkiplistSize with hmax | hmax
  · have hfits : FirstFits p.maxMemSkiplistSize (inserted bs) := fun ks key' hks =>
      h ks key' (hks.trans ((List.prefix_append _ _).trans hpre))
    have hbytes := hfits.bytes_le hmax
    have hone : u.core.made = 1 := by
      by_contra hmade
      have := hh.reached (Or.inl hmade)
      omega
    rw [fits_first_iff hh hc hf hone hl hal]
    exact h _ key hpre (lt_of_le_of_lt hbytes hmax)
  · have hsmall : firstCapacity + 1048576 ≤ 2 ^ 64 := by decide
    have hbelow := run_below (by omega) hu hauto' hf hidle n hl
    by_cases hone : u.core.made = 1
    · rw [fits_first_iff hh hc hf hone hl hal]
      obtain rfl : n = 0 := by
        have := (hc hf).newest n hl
        omega
      rw [hh.first hone] at hbelow
      rcases hbelow with hzero | hlt
      · have : 1048576 ≤ firstCapacity := by decide
        omega
      · exact h _ key hpre hlt
    · exact capacity_later (hc hf) hone hmax hl hal hbelow hlen

/-- No `Allocate` passes the end of its log exactly if the keys up to the one that reaches the
threshold fit into a log of the default size. -/
theorem guarded_iff_firstFits {seq : ℕ} {files : List UInt8 → LogFile} {as : List Action}
    (hrun : run (step p) (init p seq files) as = some s) (hauto : ∀ a ∈ as, Automatic a) :
    Guarded (step p) (init p seq files) as WithinCapacity ↔
      FirstFits p.maxMemSkiplistSize (inserted as) :=
  ⟨firstFits_of_guarded hrun hauto, guarded_of_firstFits hrun hauto⟩

end PersistTree.Log
