import PersistTree.SkipLists.MemoryInvariant
import PersistTree.SkipLists.MemoryOverwrite
import PersistTree.SkipLists.PersistentOrder

/-!
# The fingers and the search from the head

`Insert` of both lists avoids the search from the head whenever it can: on two fast paths it trusts
the fingers of all levels after a look at level 0, and otherwise it may start at the finger of the
top level. For a key that is not in the list the outcome is the same, because the fingers always are
those of one prefix of the list, and such a key fits behind one prefix only.
-/
namespace PersistTree

open Library

/-- The fingers on the levels in use. -/
def SameFingers (maxHeight : ℕ) (prev prev' : List ℕ) : Prop :=
  ∀ i < maxHeight, prev[i]? = prev'[i]?

theorem sameFingers_of_cut {δ : Type} {m : Arena δ} {head mh N : ℕ}
    {prev prev' A B A' B' : List ℕ} {v : ℕ → List ℕ} {k : List ℕ}
    (hl : FingerList m head prev mh N A B) (hl' : FingerList m head prev' mh N A' B')
    (hc : Cut v k A B) (hc' : Cut v k A' B') (hsame : A ++ B = A' ++ B')
    (hne : ∀ y ∈ A ++ B, v y ≠ k) : SameFingers mh prev prev' := by
  intro i hi
  have hA := Cut.unique hc hc' hsame hne
  rw [hl.fingers i hi, hl'.fingers i hi, hA]

namespace PersistentSkipList

variable {s s' : PersistentSkipList} {env : Env} {key : Key} {A B : List ℕ} {done : List Call}

/-- The fingers that the descent of `FindLessThan` from the head ends with. -/
def headFingers (s : PersistentSkipList) (env : Env) (key : Key) : Option (List ℕ) :=
  (descend s.nodes.next (s.keyIsAfterNode env key) (s.nodes.length + 1) s.maxHeight s.head
    s.prev).map Prod.fst

theorem findLessThan_fingers {prev' : List ℕ} (h : s.headFingers env key = some prev')
    (hper : s.per1gNum ≠ 0) : ∃ t, s.findLessThan env key = .ok t ∧ t.prev = prev' := by
  obtain ⟨⟨prev', hops⟩, hd, rfl⟩ := Option.map_eq_some_iff.mp h
  have hsearch := searchFrom_eq
    (s := { s with allCnt := s.allCnt + 1, headCnt := s.headCnt + 1 }) hd
  rcases hsearch with ⟨hz, -⟩ | ⟨t, ht, -, hprev⟩
  · exact absurd hz hper
  · exact ⟨t, ht, hprev⟩

/-- The first half of `Insert` ends with the fingers of a search from the head. -/
theorem Sorted.locate_agrees (hs : Sorted s done A B) (env : Env)
    (hnew : ∀ d ∈ done, strncmp d.key key s.keySize ≠ 0) :
    ∃ prev', s.headFingers env key = some prev' ∧
      ((s.per1gNum = 0 ∧ s.locate env key = .error .divByZero) ∨
        ∃ s', s.locate env key = .ok s' ∧ SameFingers s.maxHeight s'.prev prev') := by
  have hv := hs.filled.sorted_view env
  have hP : ∀ y, decide (s.view env y < strnview s.keySize key) = true ↔ _ := fun y =>
    decide_eq_true_iff
  obtain ⟨prev', hops, A', B', hd, hsame, hl, hsep⟩ :=
    hs.located.search_head (after_spec hs.located env key)
  obtain ⟨hA, hB⟩ := hsep (SortedBy.decreasing hv hP)
  have hcut := Cut.of_search hP hA hB
  refine ⟨prev', by rw [headFingers, hd, Option.map_some], ?_⟩
  apply (locate_outcome hs.located hs.started env key).imp id
  rintro ⟨s', A'', B'', he, hst, hsame', hl', hcut'⟩
  refine ⟨s', he, ?_⟩
  apply sameFingers_of_cut (hst.located.mp hl') hl (hcut' hv) hcut (hsame'.symm.trans hsame)
  intro y hy
  rw [← hsame'] at hy
  exact hs.filled.view_ne (c := ⟨env, key⟩) env hnew hy

end PersistentSkipList

namespace MemorySkipList

variable {s t : MemorySkipList} {env : Env} {key : Key} {same : Bool} {A B : List ℕ}
  {done calls : List Call}

/-- One `Insert` of a new key that is not empty: if the list is empty and the key is the sentinel's,
the sentinel is overwritten and the list is of no more use. -/
theorem Sorted.insert_or_blocked (hs : Sorted s done A B) (c : Call)
    (hkey : s.keySize ≤ c.key.length) (hsize : s.keySize ≠ 0)
    (hdiff : ∀ d ∈ done, strncmp d.key c.key s.keySize ≠ 0)
    (hpos : 1 ≤ c.height) (hle : c.height ≤ s.kMaxHeight) (h : s.insert c = .ok t) :
    Blocked t ∨ (t.keySize = s.keySize ∧ t.kMaxHeight = s.kMaxHeight ∧
      ∃ A' B', Sorted t (done ++ [c]) A' B') := by
  rcases locate_cases hs.located hs.started hs.intact
    (fun y hy => hs.filled.view_ne c.toEnv hdiff hy) (hs.filled.sorted_view c.toEnv) with
    ⟨-, -, hloc⟩ | ⟨prev', A', B', hloc, hsame, hl, hcut⟩
  · left
    have hne : c.key ≠ [] := by
      intro hnil
      rw [hnil] at hkey
      exact hsize (Nat.le_zero.mp hkey)
    rw [MemorySkipList.insert, hloc, ok_bind] at h
    have hp := hs.located.finger_zero
    obtain ⟨⟨n, rfl⟩, hnone, -⟩ := overwriteFinger_ok hp h
    exact ⟨_, hp, hnone hne⟩
  · right
    obtain ⟨s', A'', B'', he, hk, hm, hs'⟩ := hs.insert_located c hloc hsame hl hcut hkey hpos hle
    obtain rfl : s' = t := Except.ok.inj (he.symm.trans h)
    exact ⟨hk, hm, A'', B'', hs'⟩

theorem Sorted.insertAll_or_blocked (hs : Sorted s done A B) (hsize : s.keySize ≠ 0)
    (hdiff : (done ++ calls).Pairwise fun c d => strncmp c.key d.key s.keySize ≠ 0)
    (hcalls : ∀ c ∈ calls, s.keySize ≤ c.key.length ∧ 1 ≤ c.height ∧ c.height ≤ s.kMaxHeight)
    (h : s.insertAll calls = .ok t) :
    Blocked t ∨ (t.keySize = s.keySize ∧ ∃ A' B', Sorted t (done ++ calls) A' B') := by
  induction calls generalizing s done A B with
  | nil =>
    cases h
    rw [List.append_nil]
    exact Or.inr ⟨rfl, A, B, hs⟩
  | cons c calls ih =>
    obtain ⟨u, hu, h⟩ := bind_eq_ok.mp h
    obtain ⟨hkey, hpos, hle⟩ := hcalls c (by simp)
    have hnew : ∀ d ∈ done, strncmp d.key c.key s.keySize ≠ 0 := fun d hd =>
      (List.pairwise_append.mp hdiff).2.2 d hd c (by simp)
    rcases hs.insert_or_blocked c hkey hsize hnew hpos hle hu with hblock | ⟨hk, hm, A', B', hs'⟩
    · left
      cases calls with
      | nil =>
        cases h
        exact hblock
      | cons c' calls =>
        obtain ⟨v, hv, -⟩ := bind_eq_ok.mp h
        exact absurd hv (hblock.insert c')
    · rw [List.append_cons, ← hk] at hdiff
      have hrest : ∀ c' ∈ calls, u.keySize ≤ c'.key.length ∧ 1 ≤ c'.height ∧
          c'.height ≤ u.kMaxHeight := by
        rw [hk, hm]
        exact fun c' hc' => hcalls c' (List.mem_cons_of_mem _ hc')
      apply (ih hs' (hk ▸ hsize) hdiff hrest h).imp id
      rintro ⟨hk', A'', B'', hs''⟩
      rw [← List.append_cons] at hs''
      exact ⟨hk'.trans hk, A'', B'', hs''⟩

/-- What the first half of `Insert` does with a new key: it finds a place with the fingers of
`FindLessThan`, unless the list is empty and the key is that of the sentinel. -/
def Agrees (s : MemorySkipList) (env : Env) (key : Key) : Prop :=
  (s.nodes.next 0 s.head = some none ∧ s.locate env key = .ok (s, true)) ∨
    ∃ t u, s.locate env key = .ok (t, false) ∧ s.findLessThan env key = .ok u ∧
      SameFingers s.maxHeight t.prev u.prev

theorem Sorted.agrees (hs : Sorted s done A B)
    (hnew : ∀ d ∈ done, strncmp d.key key s.keySize ≠ 0) : Agrees s env key := by
  have hv := hs.filled.sorted_view env
  have hne : ∀ y ∈ A ++ B, s.view env y ≠ strnview s.keySize key := fun y hy =>
    hs.filled.view_ne (c := ⟨env, key⟩) env hnew hy
  obtain ⟨prev', A', B', he, hsame, hl, hcut⟩ := findLessThan_spec hs.located hs.intact env key hv
  rcases locate_cases hs.located hs.started hs.intact hne hv with
    ⟨hA, -, hloc⟩ | ⟨prev'', A'', B'', hloc, hsame', hl', hcut'⟩
  · left
    have hnext := hs.located.next_finger_zero
    rw [hA, hs.started hA] at hnext
    exact ⟨hnext, hloc⟩
  · right
    refine ⟨_, _, hloc, he, ?_⟩
    apply sameFingers_of_cut hl' hl hcut' hcut (hsame'.symm.trans hsame)
    intro y hy
    exact hne y (hsame' ▸ hy)

end MemorySkipList

variable {maxHeight keySize optNum per1gNum : ℕ} {calls : List Call} {c : Call}

theorem MemorySkipList.blocked_or_agrees (hkeys : ∀ d ∈ calls, keySize ≤ d.key.length)
    (hdiff : (calls ++ [c]).Pairwise fun d e => strncmp d.key e.key keySize ≠ 0)
    (hheights : ∀ d ∈ calls ++ [c], 1 ≤ d.height ∧ d.height ≤ maxHeight % 2 ^ 16)
    {s : MemorySkipList} (hs : (MemorySkipList.new maxHeight keySize).insertAll calls = .ok s) :
    s.Blocked ∨ s.Agrees c.toEnv c.key := by
  obtain ⟨hpairs, -, hnew⟩ := List.pairwise_append.mp hdiff
  obtain ⟨hpos, hle⟩ := hheights c (by simp)
  have hmax : 0 < maxHeight % 2 ^ 16 := lt_of_lt_of_le hpos hle
  have hnew' : ∀ d ∈ calls, strncmp d.key c.key keySize ≠ 0 := fun d hd => hnew d hd c (by simp)
  have h0 := MemorySkipList.new_sorted keySize hmax
  rcases List.eq_nil_or_concat' calls with rfl | ⟨calls', d, rfl⟩
  · cases hs
    exact Or.inr (h0.agrees (by simp))
  · have hsize : keySize ≠ 0 := by
      rintro rfl
      exact hnew' d (by simp) rfl
    have hcalls : ∀ e ∈ calls' ++ [d], keySize ≤ e.key.length ∧ 1 ≤ e.height ∧
        e.height ≤ maxHeight % 2 ^ 16 := fun e he =>
      ⟨hkeys e he, hheights e (List.mem_append_left _ he)⟩
    apply (h0.insertAll_or_blocked hsize hpairs hcalls hs).imp id
    rintro ⟨hk, A, B, hs'⟩
    have hk' : s.keySize = keySize := hk
    exact hs'.agrees (hk'.symm ▸ hnew')

theorem PersistentSkipList.locate_agrees (hkeys : ∀ d ∈ calls, keySize ≤ d.key.length)
    (hdiff : (calls ++ [c]).Pairwise fun d e => strncmp d.key e.key keySize ≠ 0)
    (hheights : ∀ d ∈ calls ++ [c], 1 ≤ d.height ∧ d.height ≤ maxHeight % 2 ^ 16)
    {s : PersistentSkipList}
    (hs : (PersistentSkipList.new maxHeight keySize optNum per1gNum).insertAll calls = .ok s) :
    ∃ prev', s.headFingers c.toEnv c.key = some prev' ∧
      ((per1gNum = 0 ∧ s.locate c.toEnv c.key = .error .divByZero) ∨
        ∃ t, s.locate c.toEnv c.key = .ok t ∧ SameFingers s.maxHeight t.prev prev') := by
  obtain ⟨-, -, hnew⟩ := List.pairwise_append.mp hdiff
  obtain ⟨hpos, hle⟩ := hheights c (by simp)
  have hmax : 0 < maxHeight % 2 ^ 16 := lt_of_lt_of_le hpos hle
  have h0 := PersistentSkipList.new_sorted keySize optNum per1gNum hmax
  have hcalls : ∀ e ∈ calls, keySize ≤ e.key.length ∧ 1 ≤ e.height ∧
      e.height ≤ maxHeight % 2 ^ 16 := fun e he =>
    ⟨hkeys e he, hheights e (List.mem_append_left _ he)⟩
  rcases h0.insertAll hcalls with ⟨-, he⟩ | ⟨s', A, B, he, hcfg, hs'⟩
  · rw [he] at hs
    cases hs
  · obtain rfl : s' = s := Except.ok.inj (he.symm.trans hs)
    have hk : s'.keySize = keySize := hcfg.keySize
    have hp : s'.per1gNum = per1gNum := hcfg.per1gNum
    rw [← hp]
    apply hs'.locate_agrees
    intro d hd
    rw [hk]
    exact hnew d hd c (by simp)

end PersistTree
