import PersistTree.Buffer.KeyCopies
import PersistTree.Library.Batches

/-!
# Empty lists in the queue

`Insert` flushes the active list with the key that makes it reach `max_mem_skiplist_size_` bytes,
and the driver flushes once more after the last key, whether the list holds a node or not. `Run`
asserts that it does. So a run is saved from the assertion only by the keys that are left over when
the whole sequence is cut into full batches.
-/
namespace PersistTree

open Library

namespace MemorySkipList

/-- `head_->Next(0)` is a node. -/
def HasNode (s : MemorySkipList) : Prop := ∃ y, s.nodes.next 0 s.head = some (some y)

variable {s s' t : MemorySkipList} {env : Env} {key : Key} {height maxHeight keySize : ℕ}
  {active : List Call} {c : Call}

theorem linkNode_hasNode (hpos : 1 ≤ height) (hmax : 0 < s.maxHeight)
    (hlt : s.head < s.nodes.length) (h : s.linkNode key height = .ok t)
    (hs : HasNode s ∨ s.prev[0]? = some s.head) : HasNode t := by
  unfold linkNode at h
  obtain ⟨⟨m, prev, log⟩, hr, h⟩ := bind_eq_ok.mp h
  cases h
  have hsome := deref_eq_ok.mp hr
  rcases hs with ⟨y, hy⟩ | hp
  · apply spliceFrom_links hlt.ne hsome (z := y)
    rw [Arena.next_alloc]
    exact hy
  · obtain ⟨n, rfl⟩ : ∃ n, height = n + 1 := ⟨height - 1, by omega⟩
    apply spliceFrom_first _ hlt.ne hsome
    rw [raiseFingers_below _ _ _ _ 0 hmax]
    exact hp

/-- What the active list is after the calls `active` of its batch. It has a node unless the first
key met the sentinel; then the finger has never left the sentinel, which is of no more use. -/
structure Fed (maxHeight keySize : ℕ) (s : MemorySkipList) (active : List Call) : Prop where
  begun : Begun s
  keySize_eq : s.keySize = keySize
  maxHeight_pos : 0 < s.maxHeight
  fresh : active = [] → s = new maxHeight keySize
  hasNode_iff : HasNode s ↔ active ≠ [] ∧ FirstNotSentinel keySize active
  apart : HasNode s → s.prev[0]? ≠ some s.head
  stuck : active ≠ [] → ¬HasNode s →
    s.prev[0]? = some s.head ∧ (s.keyAt s.head = none ∨ keySize = 0)

theorem new_fed (maxHeight keySize : ℕ) : Fed maxHeight keySize (new maxHeight keySize) [] where
  begun := new_begun maxHeight keySize
  keySize_eq := rfl
  maxHeight_pos := Nat.one_pos
  fresh _ := rfl
  hasNode_iff := by
    constructor
    · rintro ⟨y, hy⟩
      exact absurd hy (new_next_ne _ _ _ _ y)
    · rintro ⟨hne, -⟩
      exact absurd rfl hne
  apart := by
    rintro ⟨y, hy⟩
    exact absurd hy (new_next_ne _ _ _ _ y)
  stuck hne := absurd rfl hne

theorem insert_steps (h : s.insert c = .ok t) :
    ∃ s' same, s.locate c.toEnv c.key = .ok (s', same) ∧
      (same = true → s.overwriteFinger c.key = .ok t) ∧
      (same = false → s'.linkNode c.key c.height = .ok t) := by
  obtain ⟨⟨s', same⟩, hloc, hrest⟩ := bind_eq_ok.mp h
  refine ⟨s', same, hloc, ?_, ?_⟩
  · rintro rfl
    obtain ⟨-, -, -, -, -, hsame, -⟩ := locate_ok hloc
    rw [← hsame rfl]
    exact hrest
  · rintro rfl
    exact hrest

theorem overwriteFinger_hasNode (hp : s.prev[0]? = some s.head)
    (h : s.overwriteFinger key = .ok t) (hs : ¬HasNode s) :
    ¬HasNode t ∧ t.prev[0]? = some t.head ∧ (key ≠ [] → t.keyAt t.head = none) := by
  obtain ⟨⟨n, rfl⟩, hnone, hlinks⟩ := overwriteFinger_ok hp h
  refine ⟨?_, hp, hnone⟩
  rintro ⟨y, hy⟩
  exact hs ⟨y, hlinks _ _ _ hy⟩

theorem insert_maxHeight (h : s.insert c = .ok t) (hs : 0 < s.maxHeight) : 0 < t.maxHeight := by
  obtain ⟨s', same, hloc, hover, hlink⟩ := insert_steps h
  cases same with
  | true =>
    obtain ⟨p, hp, h⟩ := bind_eq_ok.mp (hover rfl)
    obtain ⟨n, -, h⟩ := bind_eq_ok.mp h
    obtain ⟨n', -, h⟩ := bind_eq_ok.mp h
    cases h
    exact hs
  | false =>
    obtain ⟨-, -, -, -, ⟨prev', rfl⟩, -, -⟩ := locate_ok hloc
    obtain ⟨r, -, h⟩ := bind_eq_ok.mp (hlink rfl)
    cases h
    exact lt_of_lt_of_le hs (le_max_left _ _)

theorem Fed.insert_hasNode (hf : Fed maxHeight keySize s active) (hs : HasNode s)
    (hpos : 1 ≤ c.height) (h : s.insert c = .ok t) :
    HasNode t ∧ t.prev[0]? ≠ some t.head := by
  have hlt : s.head < s.nodes.length := by
    rw [hf.begun.head]
    exact List.length_pos_iff.mpr hf.begun.nonempty
  obtain ⟨s', same, hloc, hover, hlink⟩ := insert_steps h
  obtain ⟨p, k, hp, hk, ⟨prev', rfl⟩, -, -⟩ := locate_ok hloc
  cases same with
  | true =>
    obtain ⟨⟨n, rfl⟩, -, -⟩ := overwriteFinger_ok hp (hover rfl)
    refine ⟨?_, hf.apart hs⟩
    have hne : p ≠ s.head := by
      rintro rfl
      exact hf.apart hs hp
    obtain ⟨y, hy⟩ := hs
    refine ⟨y, ?_⟩
    simpa only [Arena.next, List.getElem?_set_ne hne] using hy
  | false =>
    have hlink := hlink rfl
    refine ⟨linkNode_hasNode (s := { s with prev := prev' }) hpos hf.maxHeight_pos hlt hlink
      (Or.inl hs), ?_⟩
    obtain ⟨-, hprev, hhead, -⟩ := linkNode_ok hpos hlink
    rw [hprev, hhead]
    intro he
    exact hlt.ne (Option.some.inj he).symm

/-- The first key of a list makes its first node, unless it is that of the sentinel. -/
theorem insert_new (hpos : 1 ≤ c.height) (hle : c.height ≤ maxHeight % 2 ^ 16)
    (h : (new maxHeight keySize).insert c = .ok t) :
    (HasNode t ↔ strncmp c.key ([32] ++ c.junk 0) keySize ≠ 0) ∧
      (HasNode t → t.prev[0]? ≠ some t.head) ∧
      (¬HasNode t → t.prev[0]? = some t.head ∧ (t.keyAt t.head = none ∨ keySize = 0)) := by
  have hs := new_sorted keySize (lt_of_lt_of_le hpos hle)
  have hfinger := hs.located.finger_zero
  have hempty : ¬HasNode (new maxHeight keySize) := by
    rintro ⟨y, hy⟩
    exact new_next_ne _ _ _ _ y hy
  obtain ⟨s', same, hloc, hover, hlink⟩ := insert_steps h
  by_cases heq : strncmp c.key ([32] ++ c.junk 0) keySize = 0
  · -- the key is copied over the sentinel
    have hon : (new maxHeight keySize).locate c.toEnv c.key = .ok (new maxHeight keySize, true) :=
      locate_onFinger hfinger rfl heq
    obtain ⟨rfl, rfl⟩ := Prod.mk.inj (Except.ok.inj (hloc.symm.trans hon))
    obtain ⟨hnode, hprev, hnone⟩ := overwriteFinger_hasNode hfinger (hover rfl) hempty
    refine ⟨⟨fun hn => absurd hn hnode, fun hne => absurd heq hne⟩, fun hn => absurd hn hnode, ?_⟩
    intro _
    refine ⟨hprev, ?_⟩
    by_cases hkey : c.key = []
    · right
      by_contra hsize
      obtain ⟨n, rfl⟩ : ∃ n, keySize = n + 1 := ⟨keySize - 1, by omega⟩
      rw [hkey] at heq
      simp [strncmp] at heq
    · exact Or.inl (hnone hkey)
  · -- the key is linked behind the sentinel
    have hdiff : ∀ y ∈ ([] : List ℕ) ++ [], (new maxHeight keySize).view c.toEnv y ≠
        strnview (new maxHeight keySize).keySize c.key := by simp
    rcases locate_cases hs.located hs.started hs.intact hdiff (hs.filled.sorted_view c.toEnv) with
      ⟨-, hview, -⟩ | ⟨prev', A', B', hloc', hsame, hl, -⟩
    · exact absurd (strncmp_eq_zero_iff.mpr hview.symm) heq
    · obtain ⟨rfl, rfl⟩ := Prod.mk.inj (Except.ok.inj (hloc.symm.trans hloc'))
      obtain ⟨rfl, rfl⟩ := List.append_eq_nil_iff.mp hsame.symm
      have hlink := hlink rfl
      have hnode : HasNode t := linkNode_hasNode (s := { new maxHeight keySize with prev := prev' })
        hpos Nat.one_pos Nat.one_pos hlink (Or.inr hl.finger_zero)
      obtain ⟨-, hprev, hhead, -⟩ := linkNode_ok hpos hlink
      refine ⟨⟨fun _ => heq, fun _ => hnode⟩, ?_, fun hn => absurd hnode hn⟩
      intro _
      rw [hprev, hhead]
      exact fun hnew => absurd (Option.some.inj hnew) Nat.one_ne_zero

theorem Fed.insert (hf : Fed maxHeight keySize s active) (hpos : 1 ≤ c.height)
    (hle : c.height ≤ maxHeight % 2 ^ 16) (h : s.insert c = .ok t) :
    Fed maxHeight keySize t (active ++ [c]) := by
  obtain ⟨hbegun, hsize⟩ := hf.begun.insert hpos h
  have hne : active ++ [c] ≠ [] := by simp
  have hmax := insert_maxHeight h hf.maxHeight_pos
  by_cases hactive : active = []
  · subst hactive
    obtain rfl := hf.fresh rfl
    obtain ⟨hiff, hapart, hstuck⟩ := insert_new hpos hle h
    refine ⟨hbegun, hsize, hmax, fun hnil => absurd hnil hne, ?_, hapart, fun _ => hstuck⟩
    rw [hiff]
    constructor
    · intro hfirst
      refine ⟨hne, ?_⟩
      intro d hd
      obtain rfl : c = d := Option.some.inj hd
      exact hfirst
    · rintro ⟨-, hfirst⟩
      exact hfirst c rfl
  · have hhead : (active ++ [c]).head? = active.head? := List.head?_append_of_ne_nil _ hactive
    have hfirst : FirstNotSentinel keySize (active ++ [c]) ↔ FirstNotSentinel keySize active := by
      unfold FirstNotSentinel
      rw [hhead]
    by_cases hs : HasNode s
    · obtain ⟨hnode, hapart⟩ := hf.insert_hasNode hs hpos h
      refine ⟨hbegun, hsize.trans hf.keySize_eq, hmax, fun hnil => absurd hnil hne, ?_,
        fun _ => hapart, fun _ hn => absurd hnode hn⟩
      exact ⟨fun _ => ⟨hne, hfirst.mpr (hf.hasNode_iff.mp hs).2⟩, fun _ => hnode⟩
    · -- the comparison with the sentinel only returns when it sees nothing
      obtain ⟨hprev, hkey⟩ := hf.stuck hactive hs
      obtain ⟨s', same, hloc, hover, -⟩ := insert_steps h
      obtain ⟨p, k, hp, hk, -, -, hblind⟩ := locate_ok hloc
      obtain rfl : p = s.head := Option.some.inj (hp.symm.trans hprev)
      have hzero : keySize = 0 := hkey.resolve_left (by rw [hk]; nofun)
      have hsame : same = true := hblind (hf.keySize_eq.trans hzero)
      obtain ⟨hnode, hprev', -⟩ := overwriteFinger_hasNode hprev (hover hsame) hs
      refine ⟨hbegun, hsize.trans hf.keySize_eq, hmax, fun hnil => absurd hnil hne, ?_,
        fun hn => absurd hn hnode, fun _ _ => ⟨hprev', Or.inr hzero⟩⟩
      constructor
      · intro hn
        exact absurd hn hnode
      · rintro ⟨-, hfirst'⟩
        exact absurd (hf.hasNode_iff.mpr ⟨hactive, hfirst.mp hfirst'⟩) hs

end MemorySkipList

/-- The queued list has a node for `start` in `Run`. -/
def FlushNVM.HasNode (f : FlushNVM) : Prop := ∃ list, f.skiplist = some list ∧ list.HasNode

theorem FlushNVM.run_of_empty {f : FlushNVM} {list : MemorySkipList} (hf : f.skiplist = some list)
    (hempty : list.nodes.next 0 list.head = some none) (junk : ℕ → List UInt8) (env : ℕ → Env)
    (nvm : PersistentSkipList) : f.run junk env nvm = .error .assertion := by
  rw [run, hf]
  simp only [hempty, deref_some, ok_bind]

/-- The bytes that a batch adds to `cur_mem_skiplist_size_`. -/
def batchSize (batch : List Call) : ℕ := (batch.map fun c => c.key.length).sum

/-- The test at the end of `Insert`, for the keys since the last `Flush`. -/
def reaches (maxMemSkiplistSize : ℕ) (batch : List Call) : Bool :=
  decide (maxMemSkiplistSize ≤ batchSize batch % 2 ^ 64)

theorem batchSize_concat (batch : List Call) (c : Call) :
    batchSize (batch ++ [c]) = batchSize batch + c.key.length := by
  simp [batchSize]

namespace SkiplistWriteNVM

variable {w w' : SkiplistWriteNVM} {maxHeight oneLogSize keySize : ℕ}
  {batches : List (List Call)} {active calls : List Call} {c : Call}

/-- A queued list has a node exactly if its batch is not empty and does not start with the
sentinel's key. -/
def Queued (keySize : ℕ) (f : FlushNVM) (batch : List Call) : Prop :=
  f.HasNode ↔ batch ≠ [] ∧ FirstNotSentinel keySize batch

/-- Between two calls of `Insert`: the queue holds the batches cut off so far and the active list
the calls since then. -/
structure Filling (maxHeight oneLogSize keySize : ℕ) (w : SkiplistWriteNVM)
    (batches : List (List Call)) (active : List Call) : Prop where
  skiplist : ∃ list, w.skiplist = some list ∧ MemorySkipList.Fed maxHeight keySize list active
  count : w.curMemSkiplistSize = batchSize active % 2 ^ 64
  maxHeight_eq : w.maxHeight = maxHeight
  maxMem_eq : w.maxMemSkiplistSize = oneLogSize
  keySize_eq : w.keySize = keySize
  queue : List.Forall₂ (Queued keySize) w.queue batches

theorem init_filling (maxHeight oneLogSize keySize : ℕ) :
    Filling maxHeight oneLogSize keySize (init maxHeight oneLogSize keySize) [] [] :=
  ⟨⟨_, rfl, MemorySkipList.new_fed maxHeight keySize⟩, rfl, rfl, rfl, rfl, List.Forall₂.nil⟩

theorem Filling.flush (hf : Filling maxHeight oneLogSize keySize w batches active)
    (h : w.flush = .ok w') : Filling maxHeight oneLogSize keySize w' (batches ++ [active]) [] := by
  cases h
  obtain ⟨list, hlist, hfed⟩ := hf.skiplist
  have hlast : Queued keySize ⟨w.skiplist⟩ active := by
    rw [Queued, ← hfed.hasNode_iff]
    constructor
    · rintro ⟨list', hlist', hn⟩
      obtain rfl : list = list' := Option.some.inj (hlist.symm.trans hlist')
      exact hn
    · intro hn
      exact ⟨list, hlist, hn⟩
  refine ⟨⟨_, rfl, ?_⟩, rfl, hf.maxHeight_eq, hf.maxMem_eq, hf.keySize_eq, ?_⟩
  · rw [hf.maxHeight_eq, hf.keySize_eq]
    exact MemorySkipList.new_fed maxHeight keySize
  · exact List.rel_append hf.queue (List.Forall₂.cons hlast List.Forall₂.nil)

theorem Filling.insert (hf : Filling maxHeight oneLogSize keySize w batches active)
    (hpos : 1 ≤ c.height) (hle : c.height ≤ maxHeight % 2 ^ 16) (h : w.insert c = .ok w') :
    if reaches oneLogSize (active ++ [c]) then
      Filling maxHeight oneLogSize keySize w' (batches ++ [active ++ [c]]) []
    else Filling maxHeight oneLogSize keySize w' batches (active ++ [c]) := by
  obtain ⟨list, hlist, hfed⟩ := hf.skiplist
  rw [SkiplistWriteNVM.insert, hlist, deref_some, ok_bind] at h
  obtain ⟨list', hins, h⟩ := bind_eq_ok.mp h
  have hcount : (w.curMemSkiplistSize + c.key.length) % 2 ^ 64 =
      batchSize (active ++ [c]) % 2 ^ 64 := by
    rw [hf.count, batchSize_concat, Nat.mod_add_mod]
  have htest : reaches oneLogSize (active ++ [c]) = true ↔
      w.maxMemSkiplistSize ≤ (w.curMemSkiplistSize + c.key.length) % 2 ^ 64 := by
    rw [reaches, decide_eq_true_iff, hf.maxMem_eq, hcount]
  have hf' : Filling maxHeight oneLogSize keySize { w with
      skiplist := some list'
      curMemSkiplistSize := (w.curMemSkiplistSize + c.key.length) % 2 ^ 64 }
      batches (active ++ [c]) :=
    ⟨⟨list', rfl, hfed.insert hpos hle hins⟩, hcount, hf.maxHeight_eq, hf.maxMem_eq,
      hf.keySize_eq, hf.queue⟩
  dsimp only at h
  by_cases hfull : reaches oneLogSize (active ++ [c]) = true
  · rw [if_pos (htest.mp hfull)] at h
    rw [if_pos hfull]
    exact hf'.flush h
  · rw [if_neg fun hle => hfull (htest.mpr hle)] at h
    rw [if_neg hfull]
    obtain rfl := Except.ok.inj h
    exact hf'

/-- The loop of the driver cuts the keys into batches. -/
theorem Filling.insertAll (hf : Filling maxHeight oneLogSize keySize w batches active)
    (hheights : ∀ c ∈ calls, 1 ≤ c.height ∧ c.height ≤ maxHeight % 2 ^ 16)
    (h : w.insertAll calls = .ok w') :
    Filling maxHeight oneLogSize keySize w' (batches ++ (cut (reaches oneLogSize) active calls).1)
      (cut (reaches oneLogSize) active calls).2 := by
  induction calls generalizing w batches active with
  | nil =>
    obtain rfl : w = w' := Except.ok.inj h
    rw [cut, List.append_nil]
    exact hf
  | cons c calls ih =>
    obtain ⟨u, hu, h⟩ := bind_eq_ok.mp h
    obtain ⟨hpos, hle⟩ := hheights c (by simp)
    have hrest : ∀ c ∈ calls, 1 ≤ c.height ∧ c.height ≤ maxHeight % 2 ^ 16 := fun c' hc' =>
      hheights c' (List.mem_cons_of_mem _ hc')
    have hf' := hf.insert hpos hle hu
    rw [cut]
    by_cases hfull : reaches oneLogSize (active ++ [c]) = true
    · rw [if_pos hfull] at hf' ⊢
      rw [List.append_cons]
      exact ih hf' hrest h
    · rw [if_neg hfull] at hf' ⊢
      exact ih hf' hrest h

end SkiplistWriteNVM

theorem forall_mem_iff {α β : Type} {P : α → Prop} {Q : β → Prop} {l : List α} {l' : List β}
    (h : List.Forall₂ (fun a b => P a ↔ Q b) l l') : (∀ a ∈ l, P a) ↔ ∀ b ∈ l', Q b := by
  induction h with
  | nil => simp
  | cons hab _ ih => rw [List.forall_mem_cons, List.forall_mem_cons, hab, ih]

/-- A run of the driver's loop and its final `Flush` pushes only lists with a node if and only if
keys are left over when the sequence is cut into full batches, and no batch starts with the
sentinel's key. -/
theorem pushesNodes_iff (maxHeight oneLogSize keySize : ℕ) (calls : List Call)
    (hheights : ∀ c ∈ calls, 1 ≤ c.height ∧ c.height ≤ maxHeight % 2 ^ 16)
    (w w' : SkiplistWriteNVM)
    (hloop : (SkiplistWriteNVM.init maxHeight oneLogSize keySize).insertAll calls = .ok w)
    (hflush : w.flush = .ok w') (batches : List (List Call)) (rest : List Call)
    (hcut : IsCut (reaches oneLogSize) calls batches rest) :
    (∀ f ∈ w'.queue, f.HasNode) ↔
      rest ≠ [] ∧ ∀ batch ∈ batches ++ [rest], FirstNotSentinel keySize batch := by
  have hf := (SkiplistWriteNVM.init_filling maxHeight oneLogSize keySize).insertAll hheights hloop
  rw [hcut.cut_eq, List.nil_append] at hf
  have hqueue := (hf.flush hflush).queue
  have hnode : (∀ f ∈ w'.queue, f.HasNode) ↔
      ∀ batch ∈ batches ++ [rest], batch ≠ [] ∧ FirstNotSentinel keySize batch :=
    forall_mem_iff hqueue
  have hne : ∀ batch ∈ batches, batch ≠ [] := by
    intro batch hbatch
    obtain ⟨init, a, rfl, -, -⟩ := hcut.complete batch hbatch
    simp
  rw [hnode]
  constructor
  · intro h
    exact ⟨(h rest (by simp)).1, fun batch hbatch => (h batch hbatch).2⟩
  · rintro ⟨hrest, hfirst⟩ batch hbatch
    refine ⟨?_, hfirst batch hbatch⟩
    rcases List.mem_append.mp hbatch with hb | hb
    · exact hne batch hb
    · rw [List.mem_singleton.mp hb]
      exact hrest

/-- Two keys of two bytes under a threshold of three bytes, and one key that is left over. -/
def threeCalls : List Call :=
  [⟨⟨1, fun _ => []⟩, [98, 1]⟩, ⟨⟨1, fun _ => []⟩, [97, 1]⟩, ⟨⟨1, fun _ => []⟩, [99, 1]⟩]

theorem pushesNodes_iff_three :
    ∃ w w', (SkiplistWriteNVM.init 1 3 1).insertAll threeCalls = .ok w ∧ w.flush = .ok w' ∧
      ((∀ f ∈ w'.queue, f.HasNode) ↔ threeCalls.drop 2 ≠ [] ∧
        ∀ batch ∈ [threeCalls.take 2] ++ [threeCalls.drop 2], FirstNotSentinel 1 batch) := by
  have hloop : ((SkiplistWriteNVM.init 1 3 1).insertAll threeCalls).map
      (fun w => w.queue.length) = .ok 1 := rfl
  obtain ⟨w, hw, -⟩ := map_eq_ok.mp hloop
  refine ⟨w, _, hw, rfl, ?_⟩
  apply pushesNodes_iff 1 3 1 threeCalls _ w _ hw rfl
  · exact isCut_cut (reaches 3) threeCalls
  · simp [threeCalls]

/-- A single key that fills its batch: the final `Flush` pushes an empty list, and its `Run` fails
the assertion. -/
theorem pushesNodes_fails :
    ∃ w w' f, (SkiplistWriteNVM.init 1 2 1).insertAll [⟨⟨1, fun _ => []⟩, [97, 1]⟩] = .ok w ∧
      w.flush = .ok w' ∧ f ∈ w'.queue ∧ ¬f.HasNode ∧
      f.run (fun _ => []) (fun _ => ⟨1, fun _ => []⟩) (.new 1 1 0 1) = .error .assertion := by
  refine ⟨_, _, ⟨some (MemorySkipList.new 1 1)⟩, rfl, rfl, ?_, ?_, ?_⟩
  · exact List.mem_append_right _ (List.mem_singleton.mpr rfl)
  · rintro ⟨list, hlist, y, hy⟩
    obtain rfl := Option.some.inj hlist
    exact MemorySkipList.new_next_ne _ _ _ _ y hy
  · exact FlushNVM.run_of_empty rfl rfl _ _ _

end PersistTree
