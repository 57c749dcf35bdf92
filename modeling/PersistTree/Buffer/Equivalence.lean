import PersistTree.Buffer.SkiplistWriteNVM
import PersistTree.SkipLists.MemoryInvariant
import PersistTree.SkipLists.PersistentOrder

/-!
# The buffered path and the direct path

Buffering cuts the keys into batches, sorts each batch in a DRAM list and merges the batches into
the NVM list one by one. Whatever the batches and the heights are, the NVM list ends up with the
`key_size_` first bytes of every key once, in increasing order; so it does when the keys are
inserted directly, and there is only one such sequence.
-/
namespace PersistTree

open Library

variable {n : ℕ} {key : Key} {keys : List Key} {calls batch active : List Call} {A B : List ℕ}

/-- A key that fills the window of the comparisons without a zero byte. -/
def FillsWindow (n : ℕ) (key : Key) : Prop := n ≤ key.length ∧ (0 : UInt8) ∉ key.take n

def windows (n : ℕ) (calls : List Call) : List Key := calls.map fun c => c.key.take n

theorem FillsWindow.view_eq (h : FillsWindow n key) :
    strnview n key = (key.take n).map UInt8.toNat := strnview_of_nul_free h.1 h.2

/-- Copying a key up to the first zero byte keeps its window, whatever follows the buffer. -/
theorem FillsWindow.cString (h : FillsWindow n key) (junk : List UInt8) :
    (cString (key ++ junk)).take n = key.take n ∧ FillsWindow n (cString (key ++ junk)) := by
  have htake : (key ++ junk).take n = key.take n := List.take_append_of_le_length h.1
  have hcut : (Library.cString (key ++ junk)).take n = key.take n := by
    rw [take_cString (by rw [htake]; exact h.2), htake]
  refine ⟨hcut, ?_, by rw [hcut]; exact h.2⟩
  have hlen := congrArg List.length hcut
  rw [List.length_take, List.length_take] at hlen
  have := h.1
  omega

namespace FlushNVM

variable {list : MemorySkipList} {junk : ℕ → List UInt8} {env : ℕ → Env} {done : List Call}

theorem runFrom_spec {x : ℕ} {l : List ℕ} (hc : Chain (list.nodes.next 0) x l)
    (hi : ∀ y ∈ l, list.keyAt y = some (list.keyOf y)) {s : FlushState}
    (hs : PersistentSkipList.Sorted s.nvm done A B)
    (hlen : ∀ y ∈ l, s.nvm.keySize ≤ (cString (list.keyOf y ++ junk y)).length)
    (henv : ∀ k, 1 ≤ (env k).height ∧ (env k).height ≤ s.nvm.kMaxHeight) {fuel : ℕ}
    (hf : l.length < fuel) :
    (s.nvm.per1gNum = 0 ∧ runFrom list junk env fuel l.head? s = .error .divByZero) ∨
      ∃ s' calls A' B', runFrom list junk env fuel l.head? s = .ok s' ∧
        calls.map Call.key = l.map (fun y => cString (list.keyOf y ++ junk y)) ∧
        PersistentSkipList.SameConfig s.nvm s'.nvm ∧
        PersistentSkipList.Sorted s'.nvm (done ++ calls) A' B' := by
  induction hc generalizing s done A B fuel with
  | nil h =>
    obtain ⟨fuel, rfl⟩ : ∃ k, fuel = k + 1 := ⟨fuel - 1, by omega⟩
    refine Or.inr ⟨s, [], A, B, rfl, rfl, PersistentSkipList.SameConfig.refl _, ?_⟩
    rw [List.append_nil]
    exact hs
  | @cons x y l h ht ih =>
    obtain ⟨fuel, rfl⟩ : ∃ k, fuel = k + 1 := ⟨fuel - 1, by omega⟩
    obtain ⟨hpos, hle⟩ := henv s.nvm.nodes.length
    simp only [List.head?_cons, runFrom, hi y (by simp), deref_some, ok_bind, ht.next_eq]
    rcases hs.insert ⟨env s.nvm.nodes.length, cString (list.keyOf y ++ junk y)⟩
      (hlen y (by simp)) hpos hle with ⟨hz, he⟩ | ⟨nvm, A', B', he, hlink, hs'⟩
    · exact Or.inl ⟨hz, by rw [he, error_bind]⟩
    · simp only [he, ok_bind]
      generalize hst : FlushState.mk nvm _ _ = t
      obtain rfl : t.nvm = nvm := by rw [← hst]
      have hcfg := hlink.sameConfig
      have hlen' : ∀ z ∈ l, t.nvm.keySize ≤ (cString (list.keyOf z ++ junk z)).length :=
        fun z hz => by
          rw [hcfg.keySize]
          exact hlen z (by simp [hz])
      have hf' : l.length < fuel := by
        simp only [List.length_cons] at hf
        omega
      rcases ih (fun z hz => hi z (by simp [hz])) hs' hlen' (by rw [hcfg.kMaxHeight]; exact henv)
        hf' with ⟨hz, he'⟩ | ⟨s', calls, A'', B'', he', hkeys, hcfg', hs''⟩
      · exact Or.inl ⟨hcfg.per1gNum.symm.trans hz, he'⟩
      · rw [← List.append_cons] at hs''
        exact Or.inr ⟨s', _ :: calls, A'', B'', he', by rw [List.map_cons, hkeys, List.map_cons],
          hcfg.trans hcfg', hs''⟩

theorem windows_perm {keySize : ℕ} {keyOf : ℕ → Key} {height : ℕ → ℕ}
    (hf : Filled keySize keyOf height done A B) (n : ℕ) :
    ((A ++ B).map fun y => (keyOf y).take n).Perm (windows n done) := by
  have h := hf.keys_perm.map (List.take n)
  rwa [List.map_map, List.map_map] at h

/-- One run flushes one batch: its windows reach the NVM list, in some order. -/
theorem run_spec {f : FlushNVM} (hf : f.skiplist = some list)
    (hl : MemorySkipList.Sorted list batch A B) (hne : batch ≠ [])
    (hfill : ∀ c ∈ batch, FillsWindow n c.key) {nvm : PersistentSkipList} {A₁ B₁ : List ℕ}
    (hs : PersistentSkipList.Sorted nvm done A₁ B₁) (hn : nvm.keySize = n)
    (henv : ∀ k, 1 ≤ (env k).height ∧ (env k).height ≤ nvm.kMaxHeight) :
    (nvm.per1gNum = 0 ∧ f.run junk env nvm = .error .divByZero) ∨
      ∃ nvm' calls A' B', f.run junk env nvm = .ok nvm' ∧
        (windows n calls).Perm (windows n batch) ∧ PersistentSkipList.SameConfig nvm nvm' ∧
        PersistentSkipList.Sorted nvm' (done ++ calls) A' B' := by
  have hfill' : ∀ y ∈ A ++ B, FillsWindow n (list.keyOf y) := fun y hy => by
    obtain ⟨c, hc, he⟩ := List.mem_map.mp (hl.filled.keys_perm.subset (List.mem_map_of_mem hy))
    rw [← he]
    exact hfill c hc
  have hcopy := fun y hy => (hfill' y hy).cString (junk y)
  have hi : ∀ y ∈ A ++ B, list.keyAt y = some (list.keyOf y) := fun y hy =>
    hl.intact y (hl.located.allocated y (List.mem_cons_of_mem _ hy))
  have hbase := hl.located.base
  obtain ⟨start, rest, hstart⟩ := List.exists_cons_of_ne_nil (hl.filled.ne_nil hne)
  have hrun : f.run junk env nvm = do
      let st ← runFrom list junk env (list.nodes.length + 1) (A ++ B).head? ⟨nvm, (0, 0), []⟩
      return st.nvm := by
    rw [run, hf]
    simp only [hbase.next_eq, hstart, List.head?_cons, deref_some, ok_bind]
  rw [hrun]
  rcases runFrom_spec (s := ⟨nvm, (0, 0), []⟩) hbase hi hs
    (fun y hy => by rw [hn]; exact (hcopy y hy).2.1) henv hl.located.length_lt with
    ⟨hz, he⟩ | ⟨st, calls, A', B', he, hkeys, hcfg, hs'⟩
  · exact Or.inl ⟨hz, by rw [he, error_bind]⟩
  · refine Or.inr ⟨st.nvm, calls, A', B', by rw [he, ok_bind]; rfl, ?_, hcfg, hs'⟩
    have hwindows : windows n calls = (A ++ B).map fun y => (list.keyOf y).take n := by
      have h := congrArg (List.map (List.take n)) hkeys
      rw [List.map_map, List.map_map] at h
      exact h.trans (List.map_congr_left fun y hy => (hcopy y hy).1)
    rw [hwindows]
    exact windows_perm hl.filled n

/-- What a queued object holds: a sorted DRAM list with the calls of one batch. -/
def Holds (keySize : ℕ) (f : FlushNVM) (batch : List Call) : Prop :=
  ∃ list A B, f.skiplist = some list ∧ MemorySkipList.Sorted list batch A B ∧
    list.keySize = keySize ∧ batch ≠ []

theorem runAll_spec (junk : ℕ → ℕ → List UInt8) {queue : List FlushNVM}
    {batches : List (List Call)} (hq : List.Forall₂ (Holds n) queue batches)
    (hfill : ∀ c ∈ batches.flatten, FillsWindow n c.key) {k : ℕ} {nvm : PersistentSkipList}
    (hs : PersistentSkipList.Sorted nvm done A B) (hn : nvm.keySize = n)
    (henv : ∀ k, 1 ≤ (env k).height ∧ (env k).height ≤ nvm.kMaxHeight) :
    (nvm.per1gNum = 0 ∧ runAll junk env k queue nvm = .error .divByZero) ∨
      ∃ nvm' calls A' B', runAll junk env k queue nvm = .ok nvm' ∧
        (windows n calls).Perm (windows n batches.flatten) ∧
        PersistentSkipList.SameConfig nvm nvm' ∧
        PersistentSkipList.Sorted nvm' (done ++ calls) A' B' := by
  induction hq generalizing k nvm done A B with
  | nil =>
    refine Or.inr ⟨nvm, [], A, B, rfl, List.Perm.refl _, PersistentSkipList.SameConfig.refl _, ?_⟩
    rw [List.append_nil]
    exact hs
  | @cons f batch queue batches hf _ ih =>
    obtain ⟨list, A₀, B₀, hlist, hl, -, hne⟩ := hf
    have hfill₀ : ∀ c ∈ batch, FillsWindow n c.key := fun c hc => hfill c (by simp [hc])
    simp only [runAll]
    rcases run_spec hlist hl hne hfill₀ hs hn henv with
      ⟨hz, he⟩ | ⟨nvm', calls, A', B', he, hperm, hcfg, hs'⟩
    · exact Or.inl ⟨hz, by rw [he, error_bind]⟩
    · rw [he, ok_bind]
      refine (ih (fun c hc => hfill c (by simp [List.mem_flatten.mp hc])) hs'
        (hcfg.keySize.trans hn) (by rw [hcfg.kMaxHeight]; exact henv)).imp
        (fun h => ⟨hcfg.per1gNum.symm.trans h.1, h.2⟩) ?_
      rintro ⟨nvm'', calls', A'', B'', he', hperm', hcfg', hs''⟩
      refine ⟨nvm'', calls ++ calls', A'', B'', he', ?_, hcfg.trans hcfg', ?_⟩
      · rw [List.flatten_cons]
        simp only [windows, List.map_append]
        exact hperm.append hperm'
      · rwa [← List.append_assoc]

end FlushNVM

namespace SkiplistWriteNVM

variable {w : SkiplistWriteNVM} {batches : List (List Call)} {list : MemorySkipList} {c : Call}

/-- Between two calls of `Insert`: the queue holds the full batches and the active list the rest. -/
structure Buffering (w : SkiplistWriteNVM) (batches : List (List Call)) (active : List Call)
    (list : MemorySkipList) (A B : List ℕ) : Prop where
  skiplist : w.skiplist = some list
  sorted : MemorySkipList.Sorted list active A B
  keySize : list.keySize = w.keySize
  kMaxHeight : list.kMaxHeight = w.maxHeight % 2 ^ 16
  queue : List.Forall₂ (FlushNVM.Holds w.keySize) w.queue batches

theorem init_buffering (maxHeight oneLogSize keySize : ℕ) (h : 0 < maxHeight % 2 ^ 16) :
    Buffering (init maxHeight oneLogSize keySize) [] [] (MemorySkipList.new maxHeight keySize)
      [] [] where
  skiplist := rfl
  sorted := MemorySkipList.new_sorted keySize h
  keySize := rfl
  kMaxHeight := rfl
  queue := List.Forall₂.nil

theorem Buffering.flush (hb : Buffering w batches active list A B) (hne : active ≠ [])
    (h : 0 < w.maxHeight % 2 ^ 16) :
    ∃ w' list', w.flush = .ok w' ∧ w'.keySize = w.keySize ∧ w'.maxHeight = w.maxHeight ∧
      Buffering w' (batches ++ [active]) [] list' [] [] := by
  refine ⟨_, _, rfl, rfl, rfl, rfl, MemorySkipList.new_sorted _ h, rfl, rfl, ?_⟩
  have hlast : FlushNVM.Holds w.keySize ⟨w.skiplist⟩ active :=
    ⟨list, A, B, hb.skiplist, hb.sorted, hb.keySize, hne⟩
  exact List.rel_append hb.queue (List.Forall₂.cons hlast List.Forall₂.nil)

theorem Buffering.insert (hb : Buffering w batches active list A B)
    (hkey : w.keySize ≤ c.key.length)
    (hdiff : ∀ d ∈ active, strncmp d.key c.key w.keySize ≠ 0)
    (hfirst : MemorySkipList.Printable w.keySize c.key)
    (hpos : 1 ≤ c.height) (hle : c.height ≤ w.maxHeight % 2 ^ 16) :
    ∃ w' batches' active' list' A' B', w.insert c = .ok w' ∧ w'.keySize = w.keySize ∧
      w'.maxHeight = w.maxHeight ∧ Buffering w' batches' active' list' A' B' ∧
      batches'.flatten ++ active' = batches.flatten ++ active ++ [c] := by
  obtain ⟨list', A', B', he, hsize, hk, hs⟩ := hb.sorted.insert c (by rwa [hb.keySize])
    (by rwa [hb.keySize]) (by rwa [hb.keySize]) hpos (by rwa [hb.kMaxHeight])
  simp only [SkiplistWriteNVM.insert, hb.skiplist, deref_some, ok_bind, he, pure_eq_ok]
  have hb' : Buffering { w with
      skiplist := some list'
      curMemSkiplistSize := (w.curMemSkiplistSize + c.key.length) % 2 ^ 64 }
      batches (active ++ [c]) list' A' B' :=
    ⟨rfl, hs, hsize.trans hb.keySize, hk.trans hb.kMaxHeight, hb.queue⟩
  split_ifs
  · obtain ⟨w', list'', he', hk', hm', hb''⟩ := hb'.flush (by simp) (lt_of_lt_of_le hpos hle)
    refine ⟨w', _, [], list'', [], [], he', hk', hm', hb'', ?_⟩
    rw [List.flatten_append, List.flatten_singleton, List.append_nil, List.append_assoc]
  · exact ⟨_, batches, _, list', A', B', rfl, rfl, rfl, hb', (List.append_assoc _ _ _).symm⟩

/-- A run of `Insert` calls on keys that are pairwise different. -/
theorem Buffering.insertAll (hb : Buffering w batches active list A B)
    (hdiff : (batches.flatten ++ active ++ calls).Pairwise fun c d =>
      strncmp c.key d.key w.keySize ≠ 0)
    (hcalls : ∀ c ∈ calls, w.keySize ≤ c.key.length ∧ MemorySkipList.Printable w.keySize c.key ∧
      1 ≤ c.height ∧ c.height ≤ w.maxHeight % 2 ^ 16) :
    ∃ w' batches' active' list' A' B', w.insertAll calls = .ok w' ∧ w'.keySize = w.keySize ∧
      w'.maxHeight = w.maxHeight ∧ Buffering w' batches' active' list' A' B' ∧
      batches'.flatten ++ active' = batches.flatten ++ active ++ calls := by
  induction calls generalizing w batches active list A B with
  | nil => exact ⟨w, batches, active, list, A, B, rfl, rfl, rfl, hb, by rw [List.append_nil]⟩
  | cons c calls ih =>
    obtain ⟨hkey, hfirst, hpos, hle⟩ := hcalls c (by simp)
    have hnew : ∀ d ∈ active, strncmp d.key c.key w.keySize ≠ 0 := fun d hd =>
      (List.pairwise_append.mp hdiff).2.2 d (List.mem_append_right _ hd) c (by simp)
    obtain ⟨t, batches', active', list', A', B', he, hk, hm, hb', hflat⟩ :=
      hb.insert hkey hnew hfirst hpos hle
    rw [List.append_cons, ← hflat, ← hk] at hdiff
    obtain ⟨w', batches'', active'', list'', A'', B'', he', hk', hm', hb'', hflat'⟩ :=
      ih hb' hdiff (by
        rw [hk, hm]
        exact fun c' hc' => hcalls c' (List.mem_cons_of_mem _ hc'))
    refine ⟨w', batches'', active'', list'', A'', B'', ?_, hk'.trans hk, hm'.trans hm, hb'', ?_⟩
    · rw [SkiplistWriteNVM.insertAll, List.foldlM_cons, he, ok_bind]
      exact he'
    · rw [hflat', hflat, ← List.append_cons]

theorem Buffering.flushNonEmpty (hb : Buffering w batches active list A B)
    (h : 0 < w.maxHeight % 2 ^ 16) :
    ∃ w' batches', w.flushNonEmpty = .ok w' ∧
      List.Forall₂ (FlushNVM.Holds w.keySize) w'.queue batches' ∧
      batches'.flatten = batches.flatten ++ active := by
  simp only [SkiplistWriteNVM.flushNonEmpty, hb.skiplist, deref_some, ok_bind,
    hb.sorted.located.base.next_eq]
  cases hhead : (A ++ B).head? with
  | none =>
    have hnil : active = [] := by
      by_contra hne
      exact hb.sorted.filled.ne_nil hne (List.head?_eq_none_iff.mp hhead)
    exact ⟨w, batches, rfl, hb.queue, by rw [hnil, List.append_nil]⟩
  | some y =>
    have hne : active ≠ [] := by
      rintro rfl
      have hlen := hb.sorted.filled.contents.length_eq
      rw [List.length_map, List.map_nil, List.length_nil, List.length_eq_zero_iff] at hlen
      rw [hlen] at hhead
      cases hhead
    obtain ⟨w', list', he, hk, -, hb'⟩ := hb.flush hne h
    refine ⟨w', _, he, hk ▸ hb'.queue, ?_⟩
    rw [List.flatten_append, List.flatten_singleton]

/-- The producer's part of the buffered path: every call ends up in one queued batch. -/
theorem init_insertAll (oneLogSize : ℕ) {maxHeight keySize : ℕ} (h : 0 < maxHeight % 2 ^ 16)
    (hdiff : calls.Pairwise fun c d => strncmp c.key d.key keySize ≠ 0)
    (hcalls : ∀ c ∈ calls, keySize ≤ c.key.length ∧ MemorySkipList.Printable keySize c.key ∧
      1 ≤ c.height ∧ c.height ≤ maxHeight % 2 ^ 16) :
    ∃ w w' batches, (init maxHeight oneLogSize keySize).insertAll calls = .ok w ∧
      w.flushNonEmpty = .ok w' ∧ List.Forall₂ (FlushNVM.Holds keySize) w'.queue batches ∧
      batches.flatten = calls := by
  obtain ⟨w, batches, active, list, A, B, hw, hk, hm, hb, hflat⟩ :=
    (init_buffering maxHeight oneLogSize keySize h).insertAll hdiff hcalls
  obtain ⟨w', batches', hw', hqueue, hflat'⟩ := hb.flushNonEmpty (by rwa [hm])
  rw [hk] at hqueue
  exact ⟨w, w', batches', hw, hw', hqueue, hflat'.trans hflat⟩

end SkiplistWriteNVM

/-- The level-0 sequence of the list, cut to the first `key_size_` bytes of each key. -/
def PersistentSkipList.HoldsWindows (s : PersistentSkipList) (P : List Key) : Prop :=
  ∃ L, Chain (s.nodes.next 0) s.head L ∧ L.map (fun y => (s.keyOf y).take s.keySize) = P

/-- Windows without zero bytes, in the order of their bytes. -/
def WindowOrder (a b : Key) : Prop := a.map UInt8.toNat ≤ b.map UInt8.toNat

theorem WindowOrder.antisymm {a b : Key} (hab : WindowOrder a b) (hba : WindowOrder b a) :
    a = b :=
  List.map_injective_iff.mpr (fun _ _ h => UInt8.toNat_inj.mp h) (le_antisymm hab hba)

theorem windows_sorted {keyOf : ℕ → Key} {height : ℕ → ℕ}
    (hf : Filled n keyOf height calls A B) (hfill : ∀ y ∈ A ++ B, FillsWindow n (keyOf y)) :
    ((A ++ B).map fun y => (keyOf y).take n).Pairwise WindowOrder := by
  refine List.pairwise_map.mpr (hf.sorted.imp_of_mem fun ha hb hab => ?_)
  have hle : strnview n (keyOf _) ≤ strnview n (keyOf _) := hab
  rw [(hfill _ ha).view_eq, (hfill _ hb).view_eq] at hle
  exact hle

theorem PersistentSkipList.Sorted.holdsWindows {s : PersistentSkipList}
    (hs : PersistentSkipList.Sorted s calls A B) (hn : s.keySize = n)
    (hperm : (windows n calls).Perm (keys.map (List.take n)))
    (hfill : ∀ key ∈ keys, FillsWindow n key) :
    ∃ P, s.HoldsWindows P ∧ P.Perm (keys.map (List.take n)) ∧ P.Pairwise WindowOrder := by
  have hf := hs.filled
  rw [hn] at hf
  have hP := (FlushNVM.windows_perm hf n).trans hperm
  refine ⟨_, ⟨A ++ B, hs.located.base, by rw [hn]⟩, hP, windows_sorted hf ?_⟩
  intro y hy
  refine ⟨hf.keyLength y hy, ?_⟩
  obtain ⟨key, hkey, he⟩ := List.mem_map.mp (hP.subset (List.mem_map_of_mem hy))
  rw [← he]
  exact (hfill key hkey).2

theorem increasing_of_windowOrder {P : List Key} (hsorted : P.Pairwise WindowOrder)
    (hnodup : P.Nodup) (hfill : ∀ p ∈ P, FillsWindow n p ∧ p.take n = p) :
    P.Pairwise fun a b => strncmp a b n < 0 := by
  refine (hsorted.imp₂ (fun a b hle hne => (⟨hle, hne⟩ : _ ∧ _)) hnodup).imp_of_mem ?_
  intro a b ha hb hab
  obtain ⟨⟨hfa, hta⟩, hfb, htb⟩ := And.intro (hfill a ha) (hfill b hb)
  rw [strncmp_neg_iff, hfa.view_eq, hfb.view_eq, hta, htb]
  exact lt_of_le_of_ne hab.1 fun he => hab.2 (WindowOrder.antisymm he.le he.ge)

/-- The calls that insert `keys`, number `i` of them in the environment `env i`. -/
def withEnv (env : ℕ → Env) (keys : List Key) : List Call :=
  keys.zipIdx.map fun p => ⟨env p.2, p.1⟩

theorem map_key_withEnv (env : ℕ → Env) (keys : List Key) :
    (withEnv env keys).map Call.key = keys := by
  rw [withEnv, List.map_map]
  exact List.zipIdx_map_fst 0 keys

theorem mem_withEnv {env : ℕ → Env} {c : Call} (h : c ∈ withEnv env keys) :
    c.key ∈ keys ∧ ∃ i, c.toEnv = env i := by
  obtain ⟨p, hp, rfl⟩ := List.mem_map.mp h
  exact ⟨List.fst_mem_of_mem_zipIdx hp, p.2, rfl⟩

theorem forall_withEnv {env : ℕ → Env} {p : Key → Prop} {low high : ℕ} (hkeys : ∀ key ∈ keys, p key)
    (henv : ∀ i, low ≤ (env i).height ∧ (env i).height ≤ high) :
    ∀ c ∈ withEnv env keys, p c.key ∧ low ≤ c.height ∧ c.height ≤ high := by
  intro c hc
  obtain ⟨hkey, i, hi⟩ := mem_withEnv hc
  exact ⟨hkeys _ hkey, hi ▸ henv i⟩

theorem strncmp_ne_of_nodup (hfill : ∀ c ∈ calls, FillsWindow n c.key)
    (hdiff : (windows n calls).Nodup) : calls.Pairwise fun c d => strncmp c.key d.key n ≠ 0 := by
  refine (List.pairwise_map.mp hdiff).imp_of_mem fun {c d} hc hd hne hzero => hne ?_
  have hview := strncmp_eq_zero_iff.mp hzero
  rw [(hfill c hc).view_eq, (hfill d hd).view_eq] at hview
  exact WindowOrder.antisymm hview.le hview.ge

end PersistTree
