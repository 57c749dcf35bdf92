import PersistTree.Buffer.EmptyFlush
import PersistTree.Handoff.WithLists

/-!
# The arrival of the keys

Every key that `Insert` takes is in one DRAM list, and the keys of all lists but the active one have
reached the NVM list once nothing is queued and no worker is busy. What the NVM list holds then does
not depend on the schedule: it is what inserting these keys directly would have given.
-/
namespace PersistTree.Handoff

open Library Transition

variable {p : Params} {d : ListParams} {a : Action} {n : ℕ}

section keys

variable {s t : State}

theorem Moves.insert_keys {key : Key} (hm : Moves p s (.insert key) t) (hn : s.skiplist = some n) :
    t.keys = Function.update s.keys n (s.keys n ++ [key]) ∧ t.made = s.made := by
  cases hm with
  | insertNull _ hp hl =>
    rw [hn] at hl
    cases hl
  | insert _ m pc hp hl hpc =>
    rw [hn] at hl
    cases hl
    exact ⟨rfl, rfl⟩
  | reallocKept _ m hp hl | realloc _ hp hl => obtain ⟨he, -⟩ | ⟨he, -⟩ := hp <;> cases he

theorem Moves.keys_eq (hm : Moves p s a t) (ha : ∀ key, a ≠ .insert key) :
    t.keys = s.keys ∧ (t.made = s.made ∨ t.made = s.made + 1) := by
  cases hm with
  | insertNull key | insert key => exact absurd rfl (ha key)
  | realloc a hp hl => exact ⟨rfl, Or.inr rfl⟩
  | _ => exact ⟨rfl, Or.inl rfl⟩

theorem Sequential.made_eq (h : Sequential p s) (hn : s.skiplist = some n) : s.made = n + 1 := by
  obtain ⟨-, next, horder⟩ := h
  rcases horder.active with ⟨hs, hm⟩ | ⟨hs, -⟩
  · rw [hn] at hs
    obtain rfl := Option.some.inj hs
    exact hm
  · rw [hn] at hs
    cases hs

/-- With nothing queued and nobody busy, all lists but the active one have been flushed. -/
theorem Sequential.runs_eq (h : Sequential p s) (hf : s.fault = none) (hn : s.skiplist = some n)
    (hqueue : s.queue = []) (hworkers : ¬SomeWorker p s.workers Alive) : s.runs.length = n := by
  obtain ⟨-, next, horder⟩ := h
  have hnext : next = s.runs.length := by
    rcases horder.held hf with ⟨-, hnext⟩ | ⟨w, hw, hold, -⟩
    · exact hnext
    · exact absurd ⟨w, hw, hold.alive⟩ hworkers
  rcases horder.active with ⟨hs, -⟩ | ⟨hs, -⟩
  · rw [hqueue, List.length_nil, Nat.add_zero, hnext, hn] at hs
    exact (Option.some.inj hs).symm
  · rw [hn] at hs
    cases hs

end keys

variable {s t : ListState}

/-- The keys that a run may insert: they fill the window of the comparisons, start above the blank
and are not in the active list yet, and the height drawn for them is one that `RandomHeight` may
return. -/
def InsertsGood (d : ListParams) (s : ListState) : ListAction → Prop
  | .insert c => FillsWindow d.keySize c.key ∧ MemorySkipList.Printable d.keySize c.key ∧
      1 ≤ c.height ∧ c.height ≤ d.dramMaxHeight % 2 ^ 16 ∧
      ∀ n, s.core.skiplist = some n → ∀ key ∈ s.core.keys n, strncmp key c.key d.keySize ≠ 0
  | _ => True

/-- List `n` holds the keys that the hand-off records for it, in order. -/
structure HoldsKeys (d : ListParams) (list : MemorySkipList) (keys : List Key) : Prop where
  sorted : ∃ batch A B, MemorySkipList.Sorted list batch A B ∧ batch.map Call.key = keys
  keySize : list.keySize = d.keySize
  kMaxHeight : list.kMaxHeight = d.dramMaxHeight % 2 ^ 16
  fills : ∀ key ∈ keys, FillsWindow d.keySize key

/-- The DRAM lists hold what the hand-off records, and every key is in one of them. -/
structure Recorded (d : ListParams) (s : ListState) : Prop where
  holds : ∀ n, HoldsKeys d (s.lists n) (s.core.keys n)
  fresh : ∀ n, s.core.made ≤ n → s.core.keys n = []
  inserted : s.inserted = (List.range s.core.made).flatMap s.core.keys

theorem listInit_recorded (hdram : 0 < d.dramMaxHeight % 2 ^ 16) : Recorded d (listInit d) where
  holds _ :=
    { sorted := ⟨[], [], [], MemorySkipList.new_sorted d.keySize hdram, rfl⟩
      keySize := rfl
      kMaxHeight := rfl
      fills := by simp [listInit, init] }
  fresh _ _ := rfl
  inserted := rfl

theorem HoldsKeys.insert {list : MemorySkipList} {keys : List Key} (h : HoldsKeys d list keys)
    (c : Call) (hfill : FillsWindow d.keySize c.key)
    (hfirst : MemorySkipList.Printable d.keySize c.key)
    (hpos : 1 ≤ c.height) (hle : c.height ≤ d.dramMaxHeight % 2 ^ 16)
    (hnew : ∀ key ∈ keys, strncmp key c.key d.keySize ≠ 0) :
    ∃ list', list.insert c = .ok list' ∧ HoldsKeys d list' (keys ++ [c.key]) := by
  obtain ⟨⟨batch, A, B, hs, rfl⟩, hsize, hheight, hfills⟩ := h
  obtain ⟨list', A', B', he, hsize', hheight', hs'⟩ := hs.insert c (by rw [hsize]; exact hfill.1)
    (by rw [hsize]; exact fun e he => hnew _ (List.mem_map_of_mem he)) (by rwa [hsize]) hpos
    (by rwa [hheight])
  refine ⟨list', he, ⟨_, A', B', hs', ?_⟩, hsize'.trans hsize, hheight'.trans hheight, ?_⟩
  · rw [List.map_append, List.map_singleton]
  · intro key hkey
    rcases List.mem_append.mp hkey with hkey | hkey
    · exact hfills key hkey
    · rw [List.mem_singleton.mp hkey]
      exact hfill

theorem flatMap_update (keys : ℕ → List Key) (n : ℕ) (key : Key) :
    (List.range (n + 1)).flatMap (Function.update keys n (keys n ++ [key])) =
      (List.range (n + 1)).flatMap keys ++ [key] := by
  have hrest : (List.range n).flatMap (Function.update keys n (keys n ++ [key])) =
      (List.range n).flatMap keys :=
    List.flatMap_congr fun m hm => Function.update_of_ne (List.mem_range.mp hm).ne _ _
  simp only [List.range_succ, List.flatMap_append, hrest, List.flatMap_cons, List.flatMap_nil,
    Function.update_self, List.append_nil, List.append_assoc]

theorem Recorded.congr (h : Recorded d s) (hkeys : t.core.keys = s.core.keys)
    (hmade : t.core.made = s.core.made ∨ t.core.made = s.core.made + 1)
    (hlists : t.lists = s.lists) (hinserted : t.inserted = s.inserted) : Recorded d t where
  holds n := by
    rw [hlists, hkeys]
    exact h.holds n
  fresh n hn := by
    rw [hkeys]
    exact h.fresh n (by omega)
  inserted := by
    rw [hinserted, hkeys, h.inserted]
    rcases hmade with hmade | hmade
    · rw [hmade]
    · rw [hmade, List.range_succ, List.flatMap_append, List.flatMap_singleton,
        h.fresh _ le_rfl, List.append_nil]

theorem Recorded.insert (h : Recorded d s) (hseq : Sequential d.toParams s.core) {c : Call}
    (hgood : InsertsGood d s (.insert c)) {core : State} {list : MemorySkipList}
    (hm : Moves d.toParams s.core (.insert c.key) core) (hn : s.core.skiplist = some n)
    (hlist : (s.lists n).insert c = .ok list) :
    Recorded d { s with
      core := core
      lists := Function.update s.lists n list
      inserted := s.inserted ++ [c.key] } := by
  obtain ⟨hfill, hfirst, hpos, hle, hnew⟩ := hgood
  obtain ⟨list', he, hholds⟩ := (h.holds n).insert c hfill hfirst hpos hle (hnew n hn)
  obtain rfl : list = list' := Except.ok.inj (hlist.symm.trans he)
  obtain ⟨hkeys, hmade⟩ := hm.insert_keys hn
  refine ⟨fun m => ?_, fun m hm => ?_, ?_⟩
  · dsimp only
    rw [hkeys]
    by_cases hmn : m = n
    · subst m
      rw [Function.update_self, Function.update_self]
      exact hholds
    · rw [Function.update_of_ne hmn, Function.update_of_ne hmn]
      exact h.holds m
  · have hm : core.made ≤ m := hm
    rw [hmade, hseq.made_eq hn] at hm
    show core.keys m = []
    rw [hkeys, Function.update_of_ne (by omega)]
    exact h.fresh m (by rw [hseq.made_eq hn]; omega)
  · show s.inserted ++ [c.key] = (List.range core.made).flatMap core.keys
    rw [hmade, hkeys, h.inserted, hseq.made_eq hn, flatMap_update]

theorem Recorded.step {b : ListAction} (h : Recorded d s) (hseq : Sequential d.toParams s.core)
    (hgood : InsertsGood d s b) (hm : ListMoves d s b t) (hf : t.fault = none)
    (hcore : t.core.fault = none) : Recorded d t := by
  cases hm with
  | insertFault | copyFault | enterFault => cases hf
  | insertNull _ _ _ hne | coreFault _ _ _ _ hne => exact absurd hcore hne
  | insert c core n list hstep hn hlist => exact h.insert hseq hgood (moves_of_step hstep) hn hlist
  | copy => exact h.congr rfl (Or.inl rfl) rfl rfl
  | enter w n y core hstep | leave w core hstep =>
    obtain ⟨hkeys, hmade⟩ := (moves_of_step hstep).keys_eq nofun
    exact h.congr hkeys hmade rfl rfl
  | other a core ha hstep =>
    obtain ⟨hkeys, hmade⟩ := (moves_of_step hstep).keys_eq ha
    exact h.congr hkeys hmade rfl rfl

theorem Recorded.length_keys_le (h : Recorded d s) (hn : n < s.core.made) :
    (s.core.keys n).length ≤ s.inserted.length := by
  have hsub : (s.core.keys n).Sublist s.inserted := by
    rw [h.inserted]
    exact List.sublist_flatten_of_mem (List.mem_map_of_mem (List.mem_range.mpr hn))
  exact hsub.length_le

theorem exists_run_of_runAll {junk : ℕ → ℕ → List UInt8} {env : ℕ → Env} {k : ℕ}
    {queue : List PersistTree.FlushNVM} {nvm nvm' : PersistentSkipList}
    (h : PersistTree.FlushNVM.runAll junk env k queue nvm = .ok nvm') :
    ∀ f ∈ queue, ∃ j nvm nvm', PersistTree.FlushNVM.run f (junk j) env nvm = .ok nvm' := by
  induction queue generalizing k nvm with
  | nil => simp
  | cons g queue ih =>
    obtain ⟨nvm₁, hrun, h⟩ := bind_eq_ok.mp h
    intro f hf
    rcases List.mem_cons.mp hf with rfl | hf
    · exact ⟨k, nvm, nvm₁, hrun⟩
    · exact ih h f hf

theorem HoldsKeys.ne_nil {list : MemorySkipList} {keys : List Key} (h : HoldsKeys d list keys)
    {junk : ℕ → List UInt8} {env : ℕ → Env} {nvm nvm' : PersistentSkipList}
    (hrun : (PersistTree.FlushNVM.mk (some list)).run junk env nvm = .ok nvm') : keys ≠ [] := by
  obtain ⟨⟨batch, A, B, hs, rfl⟩, -, -, -⟩ := h
  intro hnil
  have hlen := hs.filled.contents.length_eq
  rw [List.map_eq_nil_iff.mp hnil, List.length_map, List.map_nil, List.length_nil,
    List.length_eq_zero_iff] at hlen
  have hnext := hs.located.base.next_eq
  rw [hlen] at hnext
  rw [PersistTree.FlushNVM.run_of_empty rfl hnext] at hrun
  cases hrun

/-- The flushed lists hold batches of the recorded keys. -/
theorem Recorded.exists_batches (h : Recorded d s) (r : ℕ) (hne : ∀ n < r, s.core.keys n ≠ []) :
    ∃ batches, List.Forall₂ (PersistTree.FlushNVM.Holds d.keySize) (flushed s r) batches ∧
      batches.flatten.map Call.key = (List.range r).flatMap s.core.keys := by
  induction r with
  | zero => exact ⟨[], .nil, rfl⟩
  | succ r ih =>
    obtain ⟨batches, hall, hkeys⟩ := ih fun n hn => hne n (by omega)
    obtain ⟨⟨batch, A, B, hs, hbatch⟩, hsize, -, -⟩ := h.holds r
    have hne' : batch ≠ [] := by
      rintro rfl
      exact hne r (Nat.lt_succ_self r) hbatch.symm
    refine ⟨batches ++ [batch], ?_, ?_⟩
    · rw [flushed, List.range_succ, List.map_append]
      exact List.rel_append hall (.cons ⟨_, A, B, rfl, hs, hsize, hne'⟩ .nil)
    · rw [List.flatten_append, List.map_append, hkeys, List.range_succ, List.flatMap_append,
        List.flatten_singleton, List.flatMap_singleton, hbatch]

/-- Windows in order are known from their multiset. -/
theorem eq_of_perm_windowOrder {P Q : List Key} (hperm : P.Perm Q) (hP : P.Pairwise WindowOrder)
    (hQ : Q.Pairwise WindowOrder) : P = Q :=
  hperm.eq_of_pairwise (fun _ _ _ _ => WindowOrder.antisymm) hP hQ

theorem holdsWindows_of_insertAll {nvmMaxHeight keySize optNum per1gNum : ℕ} {keys P : List Key}
    (hfill : ∀ key ∈ keys, FillsWindow keySize key)
    (hperm : P.Perm (keys.map (List.take keySize))) (hP : P.Pairwise WindowOrder)
    {direct : ℕ → Env} {t : PersistentSkipList}
    (hdirect : ∀ i, 1 ≤ (direct i).height ∧ (direct i).height ≤ nvmMaxHeight % 2 ^ 16)
    (ht : (PersistentSkipList.new nvmMaxHeight keySize optNum per1gNum).insertAll
      (withEnv direct keys) = .ok t) : t.HoldsWindows P := by
  have hempty := PersistentSkipList.new_sorted keySize optNum per1gNum
    (lt_of_lt_of_le (hdirect 0).1 (hdirect 0).2)
  rcases hempty.insertAll (forall_withEnv (fun key hkey => (hfill key hkey).1) hdirect) with
    ⟨-, he⟩ | ⟨t', A, B, he, hcfg, hs⟩
  · rw [ht] at he
    cases he
  · rw [ht] at he
    obtain rfl := Except.ok.inj he
    have hwindows : windows keySize (withEnv direct keys) = keys.map (List.take keySize) := by
      rw [← congrArg (List.map (List.take keySize)) (map_key_withEnv direct keys), List.map_map]
      rfl
    rw [List.nil_append] at hs
    obtain ⟨Q, hQ, hQperm, hQsorted⟩ :=
      hs.holdsWindows hcfg.keySize (.of_eq hwindows) hfill
    rwa [eq_of_perm_windowOrder (hperm.trans hQperm.symm) hP hQsorted]

/-- What the NVM list holds when nothing is queued and no worker is busy. -/
theorem Recorded.arrived (hrecorded : Recorded d s) (hmerged : Merged d s)
    (hseq : Sequential d.toParams s.core) {nvmMaxHeight optNum per1gNum : ℕ}
    (hnvm : d.nvm = .new nvmMaxHeight d.keySize optNum per1gNum)
    (henv : ∀ k, 1 ≤ (d.env k).height ∧ (d.env k).height ≤ nvmMaxHeight % 2 ^ 16)
    (hcore : s.core.fault = none) (hactive : s.core.skiplist = some n)
    (hqueue : s.core.queue = []) (hworkers : ¬SomeWorker d.toParams s.core.workers Alive) :
    ∃ keys P, s.inserted = keys ++ s.core.keys n ∧ s.nvm.HoldsWindows P ∧
      P.Perm (keys.map (List.take d.keySize)) ∧ P.Pairwise WindowOrder ∧
      ∀ (direct : ℕ → Env) (t : PersistentSkipList),
        (∀ i, 1 ≤ (direct i).height ∧ (direct i).height ≤ nvmMaxHeight % 2 ^ 16) →
        d.nvm.insertAll (withEnv direct keys) = .ok t → t.HoldsWindows P := by
  have hruns := hseq.runs_eq hcore hactive hqueue hworkers
  -- what has been flushed
  have hto := hmerged.quiet fun w hw hpc => hworkers ⟨w, hw, by rw [hpc]; trivial⟩
  rw [hruns] at hto
  have hne : ∀ m < n, s.core.keys m ≠ [] := fun m hm => by
    obtain ⟨j, nvm, nvm', hj⟩ := exists_run_of_runAll hto ⟨some (s.lists m)⟩
      (List.mem_map.mpr ⟨m, List.mem_range.mpr hm, rfl⟩)
    exact (hrecorded.holds m).ne_nil hj
  obtain ⟨batches, hall, hkeys⟩ := hrecorded.exists_batches n hne
  have hfill : ∀ key ∈ (List.range n).flatMap s.core.keys, FillsWindow d.keySize key := by
    intro key hkey
    obtain ⟨m, -, hkey⟩ := List.mem_flatMap.mp hkey
    exact (hrecorded.holds m).fills key hkey
  -- where it has gone
  have hempty : PersistentSkipList.Sorted d.nvm [] [] [] := by
    rw [hnvm]
    exact PersistentSkipList.new_sorted _ _ _ (lt_of_lt_of_le (henv 0).1 (henv 0).2)
  have hsize : d.nvm.keySize = d.keySize := by rw [hnvm]; rfl
  have hheight : d.nvm.kMaxHeight = nvmMaxHeight % 2 ^ 16 := by rw [hnvm]; rfl
  have hwindows : windows d.keySize batches.flatten =
      ((List.range n).flatMap s.core.keys).map (List.take d.keySize) := by
    rw [← hkeys, windows, List.map_map]
    rfl
  rcases PersistTree.FlushNVM.runAll_spec d.junk (k := 0) hall (fun c hc => hfill c.key (by
      rw [← hkeys]
      exact List.mem_map_of_mem hc)) hempty hsize (by rwa [hheight]) with
    ⟨-, he⟩ | ⟨nvm, calls, A, B, he, hperm, hcfg, hs⟩
  · rw [show _ = _ from hto] at he
    cases he
  · rw [show _ = _ from hto] at he
    obtain rfl := Except.ok.inj he
    rw [List.nil_append] at hs
    rw [hwindows] at hperm
    obtain ⟨P, hP, hPperm, hPsorted⟩ := hs.holdsWindows (hcfg.keySize.trans hsize) hperm hfill
    refine ⟨_, P, ?_, hP, hPperm, hPsorted, fun direct t hdirect ht => ?_⟩
    · rw [hrecorded.inserted, hseq.made_eq hactive, List.range_succ, List.flatMap_append,
        List.flatMap_singleton]
    · rw [hnvm] at ht
      exact holdsWindows_of_insertAll hfill hPperm hPsorted hdirect ht

/-- When nothing is queued and no worker is busy, the NVM list holds the keys of all calls of
`Insert` but those of the active list, in order; inserting them directly, with any heights, gives
the same. -/
theorem keys_arrive (d : ListParams) (nvmMaxHeight optNum per1gNum n : ℕ)
    (hnvm : d.nvm = .new nvmMaxHeight d.keySize optNum per1gNum)
    (hdram : 0 < d.dramMaxHeight % 2 ^ 16)
    (henv : ∀ k, 1 ≤ (d.env k).height ∧ (d.env k).height ≤ nvmMaxHeight % 2 ^ 16)
    (as : List ListAction) (s : ListState) (hrun : run (listStep d) (listInit d) as = some s)
    (hguard : Guarded (listStep d) (listInit d) as fun s a =>
      EnqueuesAlone d s a ∧ InsertsGood d s a)
    (hf : s.fault = none) (hcore : s.core.fault = none) (hactive : s.core.skiplist = some n)
    (hqueue : s.core.queue = []) (hworkers : ¬SomeWorker d.toParams s.core.workers Alive) :
    ∃ keys P, s.inserted = keys ++ s.core.keys n ∧ s.nvm.HoldsWindows P ∧
      P.Perm (keys.map (List.take d.keySize)) ∧ P.Pairwise WindowOrder ∧
      ∀ (direct : ℕ → Env) (t : PersistentSkipList),
        (∀ i, 1 ≤ (direct i).height ∧ (direct i).height ≤ nvmMaxHeight % 2 ^ 16) →
        d.nvm.insertAll (withEnv direct keys) = .ok t → t.HoldsWindows P := by
  obtain ⟨hseq, hboth⟩ := hguard.invariant
    (I := fun s => Sequential d.toParams s.core ∧
      (s.fault = none → s.core.fault = none → Merged d s ∧ Recorded d s))
    ⟨init_sequential d.toParams, fun _ _ => ⟨listInit_merged d, listInit_recorded hdram⟩⟩
    (fun s a t ⟨hseq, hboth⟩ ha hs => by
      obtain ⟨hf, hcore⟩ := fault_of_listStep hs
      obtain ⟨hmerged, hrecorded⟩ := hboth hf hcore
      have hm := listMoves_of_listStep hs
      exact ⟨hseq.listStep ha.1 hm, fun hf' hcore' => ⟨hmerged.step hseq hcore hm hf' hcore',
        hrecorded.step hseq ha.2 hm hf' hcore'⟩⟩) hrun
  obtain ⟨hmerged, hrecorded⟩ := hboth hf hcore
  exact hrecorded.arrived hmerged hseq hnvm henv hcore hactive hqueue hworkers

instance (keySize : ℕ) (key : Key) : Decidable (MemorySkipList.Printable keySize key) :=
  decidable_of_iff (((key.take keySize).head?.any fun b => decide (32 < b)) = true)
    (by simp [MemorySkipList.Printable, Option.any_eq_true])

instance (d : ListParams) (s : ListState) (a : ListAction) : Decidable (InsertsGood d s a) :=
  match a with
  | .insert c => inferInstanceAs (Decidable ((d.keySize ≤ c.key.length ∧ (0 : UInt8) ∉ _) ∧ _))
  | .copy _ | .core _ => isTrue trivial

/-- Both keys have arrived, in order, and the active list is empty. -/
theorem keys_arrive_two : ∃ (s : ListState) (n : ℕ) (keys P : List Key),
    s.inserted = keys ++ s.core.keys n ∧
    s.nvm.HoldsWindows P ∧ P.Perm (keys.map (List.take 1)) ∧ P.Pairwise WindowOrder ∧
    ∀ (direct : ℕ → Env) (t : PersistentSkipList),
      (∀ i, 1 ≤ (direct i).height ∧ (direct i).height ≤ 1) →
      twoParams.nvm.insertAll (withEnv direct keys) = .ok t → t.HoldsWindows P := by
  obtain ⟨s, hs, ⟨hf, hcore⟩, ⟨hactive, hqueue⟩, h0, h1⟩ := twoKeys_ends
  refine ⟨s, 2, keys_arrive twoParams 1 0 1 2 rfl (by decide) (fun _ => by simp [twoParams])
    twoKeys s hs (Guarded.of_check (by rfl)) hf hcore hactive hqueue ?_⟩
  rintro ⟨w, hw, halive⟩
  obtain rfl | rfl : w = 0 ∨ w = 1 := Nat.le_one_iff_eq_zero_or_eq_one.mp (Nat.le_of_lt_succ hw)
  · rw [h0] at halive
    exact halive
  · rw [h1] at halive
    exact halive

end PersistTree.Handoff
