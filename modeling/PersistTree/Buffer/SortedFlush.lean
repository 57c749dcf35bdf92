import PersistTree.Buffer.KeyCopies
import PersistTree.SkipLists.AccessCount

/-!
# A sorted flush

`Run` inserts the keys of a DRAM list in their order, and after each `Insert` the level-0 finger is
on the new node. So a later key is behind the finger, and the search need not start from the head
again. The node holds the copy of a key without a terminating zero: a copy that is shorter than the
window of the comparisons is compared together with the bytes behind it.
-/
namespace PersistTree

open Library

variable {list : MemorySkipList} {junk : ℕ → List UInt8} {env : ℕ → Env} {keys ks : List Key}
  {a b : Key} {nvm t : PersistentSkipList} {A B L : List ℕ}

namespace FlushNVM

theorem insertKeys_concat (env : ℕ → Env) (ks : List Key) (key : Key) (nvm : PersistentSkipList) :
    insertKeys env (ks ++ [key]) nvm =
      insertKeys env ks nvm >>= fun t => t.insert ⟨env t.nodes.length, key⟩ := by
  simp only [insertKeys, List.foldlM_append, List.foldlM_cons, List.foldlM_nil, bind_pure]

theorem insertKeys_valid (hv : PersistentSkipList.Valid nvm A B)
    (henv : ∀ k, 1 ≤ (env k).height ∧ (env k).height ≤ nvm.kMaxHeight)
    (h : insertKeys env ks nvm = .ok t) : PersistentSkipList.SameConfig nvm t ∧
      t.nodes.length = nvm.nodes.length + ks.length ∧
      ∃ A' B', PersistentSkipList.Valid t A' B' := by
  induction ks using List.reverseRecOn generalizing t with
  | nil =>
    obtain rfl := Except.ok.inj h
    exact ⟨PersistentSkipList.SameConfig.refl nvm, rfl, A, B, hv⟩
  | append_singleton ks key ih =>
    rw [insertKeys_concat] at h
    obtain ⟨u, hu, h⟩ := bind_eq_ok.mp h
    obtain ⟨hcfg, hlen, A', B', hv'⟩ := ih hu
    have hheight := henv u.nodes.length
    rw [← hcfg.kMaxHeight] at hheight
    obtain ⟨hcfg', hlen', -, A'', B'', hv''⟩ := hv'.insert hheight h
    refine ⟨hcfg.trans hcfg', ?_, _, B'', hv''⟩
    rw [hlen', hlen, List.length_append]
    rfl

theorem insertKeys_ok (hv : PersistentSkipList.Valid nvm A B)
    (henv : ∀ k, 1 ≤ (env k).height ∧ (env k).height ≤ nvm.kMaxHeight) (hper : nvm.per1gNum ≠ 0)
    (ks : List Key) : ∃ t, insertKeys env ks nvm = .ok t := by
  induction ks using List.reverseRecOn with
  | nil => exact ⟨nvm, rfl⟩
  | append_singleton ks key ih =>
    obtain ⟨u, hu⟩ := ih
    obtain ⟨hcfg, -, A', B', hv'⟩ := insertKeys_valid hv henv hu
    have hheight := henv u.nodes.length
    rw [← hcfg.kMaxHeight] at hheight
    rcases PersistentSkipList.insert_spec hv' ⟨env u.nodes.length, key⟩ hheight.1 hheight.2 with
      ⟨hz, -⟩ | ⟨t, -, -, ht, -⟩
    · exact absurd (hcfg.per1gNum.symm.trans hz) hper
    · exact ⟨t, by rw [insertKeys_concat, hu, ok_bind, ht]⟩

theorem insertKeys_finger (hv : PersistentSkipList.Valid nvm A B)
    (henv : ∀ k, 1 ≤ (env k).height ∧ (env k).height ≤ nvm.kMaxHeight)
    (h : insertKeys env (ks ++ [a]) nvm = .ok t) : t.keySize = nvm.keySize ∧
      t.nodes.length = nvm.nodes.length + ks.length + 1 ∧
      t.keyOf (nvm.nodes.length + ks.length) = a ∧
      ∃ A' B', PersistentSkipList.Valid t (A' ++ [nvm.nodes.length + ks.length]) B' := by
  rw [insertKeys_concat] at h
  obtain ⟨u, hu, h⟩ := bind_eq_ok.mp h
  obtain ⟨hcfg, hlen, A', B', hv'⟩ := insertKeys_valid hv henv hu
  have hheight := henv u.nodes.length
  rw [← hcfg.kMaxHeight] at hheight
  obtain ⟨hcfg', hlen', hkey, A'', B'', hv''⟩ := hv'.insert hheight h
  rw [hlen] at hlen' hkey hv''
  exact ⟨(hcfg.trans hcfg').keySize, hlen', hkey, A'', B'', hv''⟩

/-- After the key `a` the next key is searched from the head exactly if the copy of `a` is too short
and what lies behind it is larger than the rest of the next key. -/
theorem restarts_after (hv : PersistentSkipList.Valid nvm A B)
    (henv : ∀ k, 1 ≤ (env k).height ∧ (env k).height ≤ nvm.kMaxHeight)
    (h : insertKeys env (ks ++ [a]) nvm = .ok t) (h0 : (0 : UInt8) ∉ a)
    (hab : strncmp a b nvm.keySize < 0) : t.Restarts (env t.nodes.length) b ↔
      a.length < nvm.keySize ∧ a <+: b ∧ strncmp (b.drop a.length)
        ((env (nvm.nodes.length + ks.length + 1)).junk (nvm.nodes.length + ks.length))
        (nvm.keySize - a.length) < 0 := by
  obtain ⟨hsize, hlen, hkey, A', B', hv'⟩ := insertKeys_finger hv henv h
  have hlast : lastFrom t.head (A' ++ [nvm.nodes.length + ks.length]) =
      nvm.nodes.length + ks.length := by
    rw [lastFrom_append]
    rfl
  rw [PersistentSkipList.restarts_iff hv'.located, hlast, hkey, hsize, hlen]
  exact strncmp_append_neg_iff h0 hab _

/-- No key but the first one is searched from the head of the list. -/
def FromFinger (env : ℕ → Env) (keys : List Key) (nvm : PersistentSkipList) : Prop :=
  ∀ ks b t, ks ≠ [] → ks ++ [b] <+: keys → insertKeys env ks nvm = .ok t →
    ¬t.Restarts (env t.nodes.length) b

/-- One `Run` calls `FindLessThan` at most once, and only for its first key. -/
def RestartsOnce (f : FlushNVM) (junk : ℕ → List UInt8) (env : ℕ → Env)
    (nvm : PersistentSkipList) : Prop :=
  (∀ nvm', f.run junk env nvm = .ok nvm' → nvm'.headCnt ≤ nvm.headCnt + 1) ∧
    FromFinger env (f.passed junk) nvm

/-- Where the copy of a key is shorter than the window and the next key continues it, the bytes
behind the copy are not larger than the continuation. With `per_1g_num_ = 0` this concerns only the
keys before the first search, which ends the process. -/
def TailsBelow (env : ℕ → Env) (keys : List Key) (nvm : PersistentSkipList) : Prop :=
  ∀ ks a b, ks ++ [a] ++ [b] <+: keys →
    (nvm.per1gNum = 0 → ∃ t, insertKeys env (ks ++ [a]) nvm = .ok t) →
    a.length < nvm.keySize → a <+: b → 0 ≤ strncmp (b.drop a.length)
      ((env (nvm.nodes.length + ks.length + 1)).junk (nvm.nodes.length + ks.length))
      (nvm.keySize - a.length)

theorem strncmp_of_neighbours {n : ℕ} (hsorted : keys.Pairwise fun a b => strncmp a b n < 0)
    (h : ks ++ [a] ++ [b] <+: keys) : strncmp a b n < 0 := by
  have hpair := hsorted.sublist h.sublist
  rw [List.append_assoc] at hpair
  exact (List.pairwise_cons.mp (List.pairwise_append.mp hpair).2.1).1 b (by simp)

theorem fromFinger_iff (hv : PersistentSkipList.Valid nvm A B)
    (henv : ∀ k, 1 ≤ (env k).height ∧ (env k).height ≤ nvm.kMaxHeight)
    (h0 : ∀ key ∈ keys, (0 : UInt8) ∉ key)
    (hsorted : keys.Pairwise fun a b => strncmp a b nvm.keySize < 0) :
    FromFinger env keys nvm ↔ TailsBelow env keys nvm := by
  constructor
  · intro h ks a b hks hreached hshort hpre
    have ha : a ∈ keys := hks.subset (by simp)
    obtain ⟨t, ht⟩ : ∃ t, insertKeys env (ks ++ [a]) nvm = .ok t := by
      by_cases hper : nvm.per1gNum = 0
      · exact hreached hper
      · exact insertKeys_ok hv henv hper (ks ++ [a])
    have hnot := h (ks ++ [a]) b t (by simp) hks ht
    rw [restarts_after hv henv ht (h0 a ha) (strncmp_of_neighbours hsorted hks)] at hnot
    by_contra hlt
    exact hnot ⟨hshort, hpre, not_le.mp hlt⟩
  · intro h ks b t hne hks ht
    obtain ⟨ks', a, rfl⟩ := (List.eq_nil_or_concat' ks).resolve_left hne
    have ha : a ∈ keys := hks.subset (by simp)
    rw [restarts_after hv henv ht (h0 a ha) (strncmp_of_neighbours hsorted hks)]
    rintro ⟨hshort, hpre, hlt⟩
    exact absurd (h ks' a b hks (fun _ => ⟨t, ht⟩) hshort hpre) (not_le.mpr hlt)

theorem FromFinger.headCnt_le (h : FromFinger env keys nvm) (hks : ks <+: keys)
    (ht : insertKeys env ks nvm = .ok t) : t.headCnt ≤ nvm.headCnt + 1 := by
  induction ks using List.reverseRecOn generalizing t with
  | nil =>
    obtain rfl := Except.ok.inj ht
    exact Nat.le_succ _
  | append_singleton ks a ih =>
    rw [insertKeys_concat] at ht
    obtain ⟨u, hu, hins⟩ := bind_eq_ok.mp ht
    have hcnt := PersistentSkipList.insert_headCnt hins
    by_cases hne : ks = []
    · subst hne
      obtain rfl := Except.ok.inj hu
      omega
    · have hle := ih ((List.prefix_append _ _).trans hks) hu
      have hnot := h ks a u hne hks hu
      rcases hcnt with ⟨hrestarts, -⟩ | ⟨-, he⟩
      · exact absurd hrestarts hnot
      · omega

theorem restartsOnce_iff_fromFinger {f : FlushNVM} :
    RestartsOnce f junk env nvm ↔ FromFinger env (f.passed junk) nvm := by
  constructor
  · exact fun h => h.2
  · intro h
    refine ⟨?_, h⟩
    intro nvm' hrun
    exact h.headCnt_le (List.prefix_refl _) (run_passed hrun)

end FlushNVM

/-- The level-0 keys of a DRAM list are strictly increasing in the window of its comparisons. -/
structure Increasing (list : MemorySkipList) (junk : ℕ → List UInt8) (L : List ℕ) : Prop where
  chain : Chain (list.nodes.next 0) list.head L
  intact : ∀ y ∈ L, list.keyAt y = some (list.keyOf y)
  increasing : L.Pairwise fun x y =>
    strncmp (list.keyOf x ++ junk x) (list.keyOf y ++ junk y) list.keySize < 0

theorem MemorySkipList.keyOf_of_keyAt {y : ℕ} {key : Key} (h : list.keyAt y = some key) :
    list.keyOf y = key := by
  rw [MemorySkipList.keyOf, h]
  rfl

theorem MemorySkipList.lt_length_of_keyAt {y : ℕ} {key : Key} (h : list.keyAt y = some key) :
    y < list.nodes.length := by
  obtain ⟨node, hnode, -⟩ := Option.bind_eq_some_iff.mp h
  exact (List.getElem?_eq_some_iff.mp hnode).1

namespace Increasing

theorem nodup (h : Increasing list junk L) : L.Nodup := by
  apply h.increasing.imp
  rintro x y hxy rfl
  rw [strncmp_neg_iff] at hxy
  exact lt_irrefl _ hxy

theorem passed_eq (h : Increasing list junk L) :
    FlushNVM.passed ⟨some list⟩ junk = L.map fun y => cString (list.keyOf y ++ junk y) := by
  have hlen : L.length < list.nodes.length + 1 := by
    have hsub : L ⊆ List.range list.nodes.length := fun y hy =>
      List.mem_range.mpr (MemorySkipList.lt_length_of_keyAt (h.intact y hy))
    have hle := (h.nodup.subperm hsub).length_le
    rw [List.length_range] at hle
    omega
  simp only [FlushNVM.passed, h.chain.next_eq, Option.join_some]
  exact FlushNVM.passedFrom_eq h.chain h.intact hlen

/-- The copies are in the order of the keys. -/
theorem passed_increasing (h : Increasing list junk L) :
    (FlushNVM.passed ⟨some list⟩ junk).Pairwise fun a b => strncmp a b list.keySize < 0 := by
  rw [h.passed_eq, List.pairwise_map]
  apply h.increasing.imp
  intro x y hxy
  rw [strncmp_neg_iff] at hxy ⊢
  rw [strnview_cString, strnview_cString]
  exact hxy

end Increasing

variable {maxHeight keySize optNum per1gNum : ℕ} {calls : List Call}

theorem PersistentSkipList.valid_of_new
    (hheights : ∀ c ∈ calls, 1 ≤ c.height ∧ c.height ≤ maxHeight % 2 ^ 16)
    (hpos : 0 < maxHeight % 2 ^ 16)
    (h : (new maxHeight keySize optNum per1gNum).insertAll calls = .ok nvm) :
    nvm.keySize = keySize ∧ nvm.kMaxHeight = maxHeight % 2 ^ 16 ∧ ∃ A B, Valid nvm A B := by
  obtain ⟨hcfg, hv⟩ := (new_valid keySize optNum per1gNum hpos).insertAll hheights h
  exact ⟨hcfg.keySize, hcfg.kMaxHeight, hv⟩

/-- What a `Run` finds: the NVM list after some calls of `Insert`, and a sorted DRAM list. -/
theorem Increasing.restartsOnce_iff_tailsBelow
    (hheights : ∀ c ∈ calls, 1 ≤ c.height ∧ c.height ≤ maxHeight % 2 ^ 16)
    (hnvm : (PersistentSkipList.new maxHeight keySize optNum per1gNum).insertAll calls = .ok nvm)
    (hlist : Increasing list junk L) (hsize : list.keySize = keySize)
    (henv : ∀ k, 1 ≤ (env k).height ∧ (env k).height ≤ maxHeight % 2 ^ 16) :
    FlushNVM.RestartsOnce ⟨some list⟩ junk env nvm ↔
      FlushNVM.TailsBelow env (FlushNVM.passed ⟨some list⟩ junk) nvm := by
  have hpos : 0 < maxHeight % 2 ^ 16 := lt_of_lt_of_le (henv 0).1 (henv 0).2
  obtain ⟨hkeySize, hkMax, A, B, hv⟩ := PersistentSkipList.valid_of_new hheights hpos hnvm
  have hsorted := hlist.passed_increasing
  rw [hsize, ← hkeySize] at hsorted
  rw [← hkMax] at henv
  rw [FlushNVM.restartsOnce_iff_fromFinger]
  exact FlushNVM.fromFinger_iff hv henv FlushNVM.zero_not_mem_passed hsorted

theorem Increasing.tailsBelow (hlist : Increasing list junk L)
    (hfill : ∀ y ∈ L, FillsWindow nvm.keySize (list.keyOf y)) :
    FlushNVM.TailsBelow env (FlushNVM.passed ⟨some list⟩ junk) nvm := by
  intro ks a b hks _ hshort
  have ha : a ∈ FlushNVM.passed ⟨some list⟩ junk := hks.subset (by simp)
  rw [hlist.passed_eq] at ha
  obtain ⟨y, hy, rfl⟩ := List.mem_map.mp ha
  have hlong := ((hfill y hy).cString (junk y)).2.1
  exact absurd hshort (Nat.not_lt.mpr hlong)

/-- One `Run` over a sorted DRAM list searches from the head at most once, for its first key,
exactly if the bytes behind the short copies are not in the way. -/
theorem restartsOnce_iff (maxHeight keySize optNum per1gNum : ℕ) (calls : List Call)
    (nvm : PersistentSkipList) (list : MemorySkipList) (junk : ℕ → List UInt8) (L : List ℕ)
    (env : ℕ → Env)
    (hheights : ∀ c ∈ calls, 1 ≤ c.height ∧ c.height ≤ maxHeight % 2 ^ 16)
    (hnvm : (PersistentSkipList.new maxHeight keySize optNum per1gNum).insertAll calls = .ok nvm)
    (hlist : Increasing list junk L) (hsize : list.keySize = keySize)
    (henv : ∀ k, 1 ≤ (env k).height ∧ (env k).height ≤ maxHeight % 2 ^ 16) :
    FlushNVM.RestartsOnce ⟨some list⟩ junk env nvm ↔
      FlushNVM.TailsBelow env (FlushNVM.passed ⟨some list⟩ junk) nvm :=
  hlist.restartsOnce_iff_tailsBelow hheights hnvm hsize henv

def digitCalls (digits : List UInt8) : List Call :=
  digits.map fun d => ⟨⟨1, fun _ => []⟩, [d]⟩

/-- Three digits are merged into a list that has two of them. -/
theorem restartsOnce_iff_three :
    ∃ nvm list, (PersistentSkipList.new 1 1 0 1).insertAll (digitCalls [49, 51]) = .ok nvm ∧
      (MemorySkipList.new 1 1).insertAll (digitCalls [49, 50, 51]) = .ok list ∧
      FlushNVM.RestartsOnce ⟨some list⟩ (fun _ => []) (fun _ => ⟨1, fun _ => [7]⟩) nvm := by
  have hnvm : ((PersistentSkipList.new 1 1 0 1).insertAll (digitCalls [49, 51])).map
      (fun s => s.keySize) = .ok 1 := rfl
  have hlist : ((MemorySkipList.new 1 1).insertAll (digitCalls [49, 50, 51])).map (fun s =>
      (s.head, s.keySize, (List.range 4).map (s.nodes.next 0), (List.range 4).map s.keyAt)) =
    .ok (0, 1, [some (some 1), some (some 2), some (some 3), some none],
      [some [32], some [49], some [50], some [51]]) := rfl
  obtain ⟨nvm, hnvm, hsize⟩ := map_eq_ok.mp hnvm
  obtain ⟨list, hlist, hfacts⟩ := map_eq_ok.mp hlist
  simp only [List.range, List.range.loop, List.map_cons, List.map_nil, Prod.mk.injEq,
    List.cons.injEq, and_true] at hfacts
  obtain ⟨hhead, hwindow, ⟨h0, h1, h2, h3⟩, -, hk1, hk2, hk3⟩ := hfacts
  have hkey1 : list.keyOf 1 = [49] := MemorySkipList.keyOf_of_keyAt hk1
  have hkey2 : list.keyOf 2 = [50] := MemorySkipList.keyOf_of_keyAt hk2
  have hkey3 : list.keyOf 3 = [51] := MemorySkipList.keyOf_of_keyAt hk3
  have hincreasing : Increasing list (fun _ => []) [1, 2, 3] := by
    constructor
    · rw [hhead]
      exact .cons h0 (.cons h1 (.cons h2 (.nil h3)))
    · simp [hk1, hk2, hk3, hkey1, hkey2, hkey3]
    · rw [hwindow]
      simp [hkey1, hkey2, hkey3]
      decide
  refine ⟨nvm, list, hnvm, hlist, ?_⟩
  apply (restartsOnce_iff 1 1 0 1 _ nvm list _ [1, 2, 3] _ ?_ hnvm hincreasing hwindow ?_).mpr
  · apply hincreasing.tailsBelow
    rw [hsize]
    simp [FillsWindow, hkey1, hkey2, hkey3]
  · simp [digitCalls]
  · intro k
    decide

/-- The copy of the first key is cut off at its zero byte, and in NVM a 7 lies behind it. -/
theorem restartsOnce_fails :
    ∃ list L, (MemorySkipList.new 1 2).insertAll
        [⟨⟨1, fun _ => []⟩, [97, 0]⟩, ⟨⟨1, fun _ => []⟩, [97, 1]⟩] = .ok list ∧
      Increasing list (fun _ => []) L ∧
      ¬FlushNVM.RestartsOnce ⟨some list⟩ (fun _ => []) (fun _ => ⟨1, fun _ => [7]⟩)
        (PersistentSkipList.new 1 2 0 1) := by
  have hlist : ((MemorySkipList.new 1 2).insertAll
      [⟨⟨1, fun _ => []⟩, [97, 0]⟩, ⟨⟨1, fun _ => []⟩, [97, 1]⟩]).map (fun s =>
      (s.head, s.keySize, (List.range 3).map (s.nodes.next 0), (List.range 3).map s.keyAt)) =
    .ok (0, 2, [some (some 1), some (some 2), some none],
      [some [32], some [97, 0], some [97, 1]]) := rfl
  obtain ⟨list, hlist, hfacts⟩ := map_eq_ok.mp hlist
  simp only [List.range, List.range.loop, List.map_cons, List.map_nil, Prod.mk.injEq,
    List.cons.injEq, and_true] at hfacts
  obtain ⟨hhead, hwindow, ⟨h0, h1, h2⟩, -, hk1, hk2⟩ := hfacts
  have hkey1 : list.keyOf 1 = [97, 0] := MemorySkipList.keyOf_of_keyAt hk1
  have hkey2 : list.keyOf 2 = [97, 1] := MemorySkipList.keyOf_of_keyAt hk2
  have hincreasing : Increasing list (fun _ => []) [1, 2] := by
    constructor
    · rw [hhead]
      exact .cons h0 (.cons h1 (.nil h2))
    · simp [hk1, hk2, hkey1, hkey2]
    · rw [hwindow]
      simp [hkey1, hkey2]
      decide
  refine ⟨list, [1, 2], hlist, hincreasing, ?_⟩
  rintro ⟨-, h⟩
  have hpassed : FlushNVM.passed ⟨some list⟩ (fun _ => []) = [[97], [97, 1]] := by
    rw [hincreasing.passed_eq, List.map_cons, List.map_cons, List.map_nil, hkey1, hkey2]
    decide
  have hrun : (FlushNVM.insertKeys (fun _ => ⟨1, fun _ => [7]⟩) [[97]]
      (PersistentSkipList.new 1 2 0 1)).map (fun t => (t.prev[0]?,
        position (t.compareKeyAndNode ⟨1, fun _ => [7]⟩ [97, 1]) (t.nodes.next 0) 1)) =
      .ok (some 1, .ok .behind) := rfl
  obtain ⟨t, ht, hstate⟩ := map_eq_ok.mp hrun
  simp only [Prod.mk.injEq] at hstate
  rw [hpassed] at h
  exact h [[97]] [97, 1] t (by simp) (List.prefix_refl _) ht ⟨1, hstate.1, hstate.2⟩

/-- Keys that fill the window are flushed with one search from the head. -/
theorem restartsOnce_of_fillsWindow
    (hheights : ∀ c ∈ calls, 1 ≤ c.height ∧ c.height ≤ maxHeight % 2 ^ 16)
    (hnvm : (PersistentSkipList.new maxHeight keySize optNum per1gNum).insertAll calls = .ok nvm)
    (hlist : Increasing list junk L) (hsize : list.keySize = keySize)
    (hfill : ∀ y ∈ L, FillsWindow nvm.keySize (list.keyOf y))
    (henv : ∀ k, 1 ≤ (env k).height ∧ (env k).height ≤ maxHeight % 2 ^ 16) :
    FlushNVM.RestartsOnce ⟨some list⟩ junk env nvm :=
  (hlist.restartsOnce_iff_tailsBelow hheights hnvm hsize henv).mpr (hlist.tailsBelow hfill)

end PersistTree
