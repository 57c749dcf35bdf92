import PersistTree.Handoff.Arrival
import PersistTree.Log.Capacity

/-!
# The logs and their lists

The hand-off with its lists and its logs in one system. `Insert` copies the key to the log of the
active list before it inserts it there, and an insertion that fails ends the process, so not every
sequence of keys reaches the logs. What can overflow is still the first log, for keys that the list
takes just as well.
-/
namespace PersistTree.Log

open Library Handoff Transition

structure LoggedParams extends ListParams where
  path : List UInt8

def LoggedParams.log (p : LoggedParams) : Params := ⟨p.toParams, p.path⟩

structure LoggedState extends State, ListState

def loggedInit (p : LoggedParams) (seq : ℕ) (files : List UInt8 → LogFile) : LoggedState :=
  { toState := init p.log seq files
    lists := (listInit p.toListParams).lists
    nvm := (listInit p.toListParams).nvm
    loops := (listInit p.toListParams).loops
    inserted := (listInit p.toListParams).inserted
    fault := (listInit p.toListParams).fault }

/-- What the step `a` does to the logs after it has led the hand-off to `core`. -/
def logOf (p : LoggedParams) (s : LoggedState) (core : Handoff.State) (a : ListAction) : State :=
  match a.toCore with
  | some b => logEffect p.log s.toState core b
  | none => { s.toState with core := core }

/-- The logs come first: a fault there leaves the lists alone. -/
def withLog (s : LoggedState) (log : State) (t : ListState) : LoggedState :=
  if log.core.fault.isSome then { s with toState := log }
  else
    { toState := log
      lists := t.lists
      nvm := t.nvm
      loops := t.loops
      inserted := t.inserted
      fault := t.fault }

/-- A step of the hand-off, with what it does to the logs and to the lists. -/
def loggedStep (p : LoggedParams) (s : LoggedState) (a : ListAction) : Option LoggedState :=
  (listStep p.toListParams s.toListState a).map fun t => withLog s (logOf p s t.core a) t

theorem withLog_toState (s : LoggedState) (log : State) (t : ListState) :
    (withLog s log t).toState = log := by
  unfold withLog
  split_ifs
  · rfl
  · rfl

/-- Every step is one of the hand-off with its logs, or an iteration of a `Run`. -/
theorem loggedStep_projects (p : LoggedParams) :
    Projects (step p.log) (loggedStep p) LoggedState.toState ListAction.toCore := by
  intro s a t h
  obtain ⟨u, hu, rfl⟩ := Option.map_eq_some_iff.mp h
  rw [withLog_toState]
  rcases (listMoves_of_listStep hu).core with ⟨ha, he⟩ | ⟨b, hb, hstep⟩
  · refine Or.inl ⟨ha, ?_⟩
    rw [logOf, ha, he]
  · refine Or.inr ⟨b, hb, ?_⟩
    rw [logOf, hb]
    exact Option.map_eq_some_iff.mpr ⟨u.core, hstep, rfl⟩

/-- `Allocate` for a key of `Insert` does not pass the end of the log. -/
def LogWithin (s : LoggedState) (a : ListAction) : Prop :=
  ∀ b, a.toCore = some b → WithinCapacity s.toState b

def insertedKeys (as : List ListAction) : List Key := inserted (as.filterMap ListAction.toCore)

/-- With the lists and the logs together: no `Allocate` passes the end of its log exactly if the
keys up to the one that reaches the threshold fit into a log of the default size. -/
theorem withinCapacity_iff (p : LoggedParams) (seq : ℕ) (files : List UInt8 → LogFile)
    (as : List ListAction) (s : LoggedState)
    (hrun : run (loggedStep p) (loggedInit p seq files) as = some s)
    (hauto : ∀ a ∈ as, ∀ b, a.toCore = some b → Automatic b) :
    Guarded (loggedStep p) (loggedInit p seq files) as LogWithin ↔
      FirstFits p.maxMemSkiplistSize (insertedKeys as) := by
  have hproj := loggedStep_projects p
  have hauto' : ∀ b ∈ as.filterMap ListAction.toCore, Automatic b := by
    intro b hb
    obtain ⟨a, ha, he⟩ := List.mem_filterMap.mp hb
    exact hauto a ha b he
  exact (hproj.guarded_iff hrun).trans (guarded_iff_firstFits (hproj.run hrun) hauto')

/-- Two lists, DRAM lists with keys of one byte, and a threshold of one byte. -/
def smallParams : LoggedParams where
  skiplistMaxNum := 2
  maxMemSkiplistSize := 1
  workers := 2
  dramMaxHeight := 1
  keySize := 1
  nvm := PersistentSkipList.new 1 1 1 1
  junk := fun _ _ => []
  env := fun _ => ⟨1, fun _ => []⟩
  path := [108]

/-- The first list is flushed and its log replaced, and the next key goes to the second log while
the first list is on its way to the NVM list. -/
def throughRealloc : List ListAction :=
  [.insert ⟨⟨1, fun _ => []⟩, [97]⟩] ++ List.replicate 5 (.core .producer) ++ [.core (.take 0)] ++
    List.replicate 7 (.core (.worker 0)) ++ [.insert ⟨⟨1, fun _ => []⟩, [98]⟩, .copy 0]

theorem withinCapacity_iff_two :
    Guarded (loggedStep smallParams) (loggedInit smallParams 8 fun _ => ⟨0, fun _ => 0⟩)
      throughRealloc LogWithin := by
  have hauto : ∀ a ∈ throughRealloc, ∀ b, a.toCore = some b → Automatic b := by
    have hcore : throughRealloc.filterMap ListAction.toCore = [.insert [97]] ++
        List.replicate 5 .producer ++ [.take 0] ++ List.replicate 7 (.worker 0) ++
          [.insert [98]] := rfl
    intro a ha b hb
    have hmem : b ∈ throughRealloc.filterMap ListAction.toCore :=
      List.mem_filterMap.mpr ⟨a, ha, hb⟩
    rw [hcore] at hmem
    have hcases : b = .insert [97] ∨ b = .producer ∨ b = .take 0 ∨ b = .worker 0 ∨
        b = .insert [98] := by
      simpa [or_assoc] using hmem
    rcases hcases with rfl | rfl | rfl | rfl | rfl
    all_goals simp [Automatic]
  have hrun : (run (loggedStep smallParams)
      (loggedInit smallParams 8 fun _ => ⟨0, fun _ => 0⟩) throughRealloc).map
        (fun s => (s.core.keys 0, s.core.keys 1, s.core.made, s.nvm.nodes.length)) =
          some ([[97]], [[98]], 2, 2) := by
    decide +kernel
  obtain ⟨s, hs, -⟩ := Option.map_eq_some_iff.mp hrun
  apply (withinCapacity_iff smallParams 8 _ throughRealloc s hs hauto).mpr
  apply firstFits_of_le (by decide)
  intro key hkey
  have hinserted : insertedKeys throughRealloc = [[97], [98]] := rfl
  rw [hinserted] at hkey
  rcases List.mem_pair.mp hkey with rfl | rfl
  · decide
  · decide

variable {p : LoggedParams} {s : LoggedState} {n : ℕ}

theorem exists_loggedStep_insert (hfault : s.fault = none) (hf : s.core.fault = none)
    (hp : s.core.producer = .idle) (c : Call) : ∃ t, loggedStep p s (.insert c) = some t := by
  have hstep : Handoff.step p.toParams s.core (.insert c.key) =
      some (insertKey p.toParams s.core c.key) := by
    unfold Handoff.step
    simp only [hf, hp, Option.isSome_none, Bool.false_eq_true, if_false, if_true]
  unfold loggedStep listStep
  rw [if_neg (by simp [hfault, hf])]
  simp only [listInsert, hstep, Option.map_some]
  exact ⟨_, rfl⟩

theorem loggedStep_insert {c : Call} {log : State} {list : MemorySkipList}
    (hfault : s.fault = none) (hf : s.core.fault = none) (hl : s.core.skiplist = some n)
    (hlog : step p.log s.toState (.insert c.key) = some log) (hlog' : log.core.fault = none)
    (hlist : (s.lists n).insert c = .ok list) :
    loggedStep p s (.insert c) = some { s with
      toState := log
      lists := Function.update s.lists n list
      inserted := s.inserted ++ [c.key] } := by
  obtain ⟨core, hcore, rfl⟩ := Option.map_eq_some_iff.mp hlog
  have hstep : listStep p.toListParams s.toListState (.insert c) = some { s.toListState with
      core := core
      lists := Function.update s.lists n list
      inserted := s.inserted ++ [c.key] } := by
    unfold listStep
    rw [if_neg (by simp [hfault, hf])]
    have hcore' : Handoff.step p.toParams s.core (.insert c.key) = some core := hcore
    simp only [listInsert, hcore', Option.map_some, hl, hlist]
  have hf' : (logEffect p.log s.toState core (.insert c.key)).core.fault.isSome = false := by
    rw [hlog']
    rfl
  unfold loggedStep
  rw [hstep, Option.map_some]
  simp only [withLog, logOf, ListAction.toCore, hf', Bool.false_eq_true, if_false]

/-- The active list is the first one and takes keys, with `used` bytes of its log gone. -/
structure Filling (u : State) (used : ℕ) : Prop where
  fault : u.core.fault = none
  idle : u.core.producer = .idle
  skiplist : u.core.skiplist = some 0
  cur : u.core.curMemSkiplistSize = used
  log : ∃ name, u.allocator = some ⟨name, firstCapacity, used⟩ ∧
    (u.files name).length = firstCapacity

section Filling

variable {q : Params} {u : State} {key : Key} {used : ℕ}

theorem step_insert_of_idle (hf : u.core.fault = none) (hp : u.core.producer = .idle) :
    step q u (.insert key) =
      some (logEffect q u (insertKey q.toParams u.core key) (.insert key)) := by
  unfold step Handoff.step
  simp only [hf, hp, Option.isSome_none, Bool.false_eq_true, if_false, if_true, Option.map_some]

theorem Filling.insert (h : Filling u used) (hlog : used + key.length ≤ firstCapacity)
    (hmax : firstCapacity < q.maxMemSkiplistSize) :
    ∃ v, step q u (.insert key) = some v ∧ Filling v (used + key.length) := by
  refine ⟨_, step_insert_of_idle h.fault h.idle, ?_⟩
  obtain ⟨name, hal, hfile⟩ := h.log
  have hfits : used + key.length ≤ min firstCapacity (u.files name).length := by
    rw [hfile, min_self]
    exact hlog
  have hsmall : firstCapacity < 2 ^ 64 := by decide
  have hcur : (u.core.curMemSkiplistSize + key.length) % 2 ^ 64 = used + key.length := by
    rw [h.cur]
    exact Nat.mod_eq_of_lt (by omega)
  have hcore : insertKey q.toParams u.core key = { u.core with
      keys := Function.update u.core.keys 0 (u.core.keys 0 ++ [key])
      curMemSkiplistSize := used + key.length
      producer := .idle } := by
    rw [insertKey_eq h.skiplist h.idle, hcur, if_neg (by omega)]
  simp only [logEffect, appendLog, h.skiplist, hal, if_pos hfits, hcore]
  constructor
  · exact h.fault
  · rfl
  · rfl
  · rfl
  · refine ⟨name, rfl, ?_⟩
    dsimp only
    rw [Function.update_self]
    exact hfile

end Filling

/-- The insertion of a key of `n + 1` bytes that starts with `b`. -/
def longCall (n : ℕ) (b : UInt8) : Call := ⟨⟨1, fun _ => []⟩, b :: List.replicate n 97⟩

/-- The first bytes are those behind the blank. -/
def longCalls (n k : ℕ) : List ListAction :=
  (List.range k).map fun i => .insert (longCall n (UInt8.ofNat (33 + i)))

theorem length_longCall (n : ℕ) (b : UInt8) : (longCall n b).key.length = n + 1 :=
  (List.length_cons ..).trans (congrArg (· + 1) List.length_replicate)

theorem longCall_ne {b c : UInt8} (h : b ≠ c) :
    strncmp (longCall n b).key (longCall n c).key 16 ≠ 0 := by
  have hne : b.toNat ≠ c.toNat := fun he => h (UInt8.toNat_inj.mp he)
  have hfirst : strncmp (longCall n b).key (longCall n c).key 16 = (b.toNat : ℤ) - c.toNat :=
    if_pos h
  rw [hfirst]
  omega

theorem longCall_good (hn : 15 ≤ n) {b : UInt8} (hb : 32 < b) :
    FillsWindow 16 (longCall n b).key ∧ MemorySkipList.Printable 16 (longCall n b).key := by
  have hlen := length_longCall n b
  refine ⟨⟨by omega, fun h0 => ?_⟩, b, rfl, hb⟩
  rcases List.mem_cons.mp (List.mem_of_mem_take h0) with rfl | h0
  · exact absurd hb (by decide)
  · exact absurd (List.eq_of_mem_replicate h0) (by decide)

/-- The state after the first `k` of the keys. -/
structure Stuffed (p : LoggedParams) (n : ℕ) (s : LoggedState) (k : ℕ) : Prop extends
    Filling s.toState (k * (n + 1)) where
  listFault : s.fault = none
  holds : HoldsKeys p.toListParams (s.lists 0)
    ((List.range k).map fun i => (longCall n (UInt8.ofNat (33 + i))).key)

theorem toNat_ofNat_of_lt {i : ℕ} (hi : i < 66) : (UInt8.ofNat (33 + i)).toNat = 33 + i := by
  rw [UInt8.toNat_ofNat']
  omega

theorem Stuffed.insert {k : ℕ} (h : Stuffed p n s k) (hn : 15 ≤ n) (hk : k < 66)
    (hsize : p.keySize = 16) (hheight : 1 ≤ p.dramMaxHeight % 2 ^ 16)
    (hlog : (k + 1) * (n + 1) ≤ firstCapacity) (hmax : firstCapacity < p.maxMemSkiplistSize) :
    ∃ t, loggedStep p s (.insert (longCall n (UInt8.ofNat (33 + k)))) = some t ∧
      Stuffed p n t (k + 1) := by
  have hbyte := toNat_ofNat_of_lt hk
  have hprint : 32 < UInt8.ofNat (33 + k) := UInt8.lt_iff_toNat_lt.mpr (by
    rw [hbyte]
    exact Nat.lt_add_right k (by decide))
  obtain ⟨hfills, hfirst⟩ := longCall_good hn hprint
  have hused : k * (n + 1) + (longCall n (UInt8.ofNat (33 + k))).key.length =
      (k + 1) * (n + 1) := by
    rw [length_longCall, Nat.succ_mul]
  obtain ⟨log, hstep, hfill⟩ := h.toFilling.insert (q := p.log) (hused.trans_le hlog) hmax
  obtain ⟨list, hlist, hholds⟩ := h.holds.insert (longCall n (UInt8.ofNat (33 + k)))
    (by rwa [hsize]) (by rwa [hsize]) le_rfl hheight (by
      intro key hkey
      obtain ⟨i, hi, rfl⟩ := List.mem_map.mp hkey
      have hi' := List.mem_range.mp hi
      rw [hsize]
      refine longCall_ne fun he => ?_
      have hnat := congrArg UInt8.toNat he
      rw [hbyte, toNat_ofNat_of_lt (by omega)] at hnat
      omega)
  refine ⟨_, loggedStep_insert h.listFault h.fault h.skiplist hstep hfill.fault hlist, ?_⟩
  rw [hused] at hfill
  refine ⟨hfill, h.listFault, ?_⟩
  dsimp only
  rw [Function.update_self, List.range_succ, List.map_append, List.map_singleton]
  exact hholds

/-- Different keys fill the first log as long as its default size allows, whatever larger threshold
`Init` was called with. -/
theorem run_longCalls (p : LoggedParams) (n seq : ℕ) (files : List UInt8 → LogFile) {k : ℕ}
    (hn : 15 ≤ n) (hk : k ≤ 66) (hsize : p.keySize = 16) (hheight : 1 ≤ p.dramMaxHeight % 2 ^ 16)
    (hlog : k * (n + 1) ≤ firstCapacity) (hmax : firstCapacity < p.maxMemSkiplistSize) :
    ∃ s, run (loggedStep p) (loggedInit p seq files) (longCalls n k) = some s ∧
      Stuffed p n s k := by
  induction k with
  | zero =>
    refine ⟨_, rfl, ⟨?_, rfl, (listInit_recorded hheight).holds 0⟩⟩
    rw [Nat.zero_mul]
    refine ⟨rfl, rfl, rfl, rfl, _, rfl, ?_⟩
    simp only [loggedInit, init, allocateFile, Function.update_self]
    rfl
  | succ k ih =>
    obtain ⟨t, ht, hfill⟩ := ih (by omega) ((Nat.mul_le_mul_right _ (Nat.le_succ k)).trans hlog)
    obtain ⟨u, hu, hfill'⟩ := hfill.insert hn hk hsize hheight hlog hmax
    refine ⟨u, ?_, hfill'⟩
    rw [longCalls, List.range_succ, List.map_append, List.map_singleton]
    exact (run_concat _).mpr ⟨t, ht, hu⟩

/-- The parameters of the driver's lists, with a threshold of 1 GiB. -/
def gibParams : LoggedParams where
  skiplistMaxNum := 2
  maxMemSkiplistSize := 2 ^ 30
  workers := 2
  dramMaxHeight := 12
  keySize := 16
  nvm := PersistentSkipList.new 12 16 1 1
  junk := fun _ _ => []
  env := fun _ => ⟨1, fun _ => []⟩
  path := [108]

/-- With a threshold of 1 GiB the 66th key of 1 MiB does not fit into the first log. -/
theorem withinCapacity_fails :
    ∃ s, run (loggedStep gibParams) (loggedInit gibParams 0 fun _ => ⟨0, fun _ => 0⟩)
        (longCalls 1048575 66) = some s ∧
      (∀ a ∈ longCalls 1048575 66, ∀ b, a.toCore = some b → Automatic b) ∧
      ¬Guarded (loggedStep gibParams) (loggedInit gibParams 0 fun _ => ⟨0, fun _ => 0⟩)
        (longCalls 1048575 66) LogWithin := by
  obtain ⟨t, ht, hfill⟩ := run_longCalls gibParams 1048575 0 (fun _ => ⟨0, fun _ => 0⟩)
    (by decide) (by decide : 65 ≤ 66) rfl (by decide) (by decide) (by decide)
  obtain ⟨u, hu⟩ := exists_loggedStep_insert (p := gibParams) hfill.listFault hfill.fault
    hfill.idle (longCall 1048575 (UInt8.ofNat (33 + 65)))
  have hcalls : longCalls 1048575 66 =
      longCalls 1048575 65 ++ [.insert (longCall 1048575 (UInt8.ofNat (33 + 65)))] := by
    rw [longCalls, List.range_succ, List.map_append, List.map_singleton]
    rfl
  refine ⟨u, ?_, ?_, ?_⟩
  · rw [hcalls]
    exact (run_concat _).mpr ⟨t, ht, hu⟩
  · intro a ha b hb
    obtain ⟨i, -, rfl⟩ := List.mem_map.mp ha
    obtain rfl := Option.some.inj hb
    refine ⟨nofun, nofun, ?_⟩
    rintro key ⟨⟩
    exact (length_longCall 1048575 _).le
  · intro h
    rw [hcalls] at h
    obtain ⟨name, hal, -⟩ := hfill.log
    have hfits := h _ _ (List.prefix_refl _) t ht _ rfl _ _ rfl hal
    rw [length_longCall] at hfits
    have hfull : ¬65 * (1048575 + 1) + (1048575 + 1) ≤ firstCapacity := by decide
    exact hfull hfits

end PersistTree.Log
