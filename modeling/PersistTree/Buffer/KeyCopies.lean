import PersistTree.Buffer.Equivalence
import PersistTree.SkipLists.MemoryOverwrite

/-!
# The keys that a flush copies

`NewNode` stores a key as its bytes and their number, without a terminating zero, and `Run` reads it
back as a zero-terminated string. The copy is the key exactly if the key has no zero byte and the
memory behind its buffer happens to start with one.
-/
namespace PersistTree

open Library

namespace FlushNVM

/-- The strings that the loop of `Run` passes to `Insert` from node `start` on. -/
def passedFrom (list : MemorySkipList) (junk : ℕ → List UInt8) : ℕ → Ptr → List Key
  | 0, _ => []
  | _ + 1, none => []
  | fuel + 1, some start =>
    match list.keyAt start with
    | none => []
    | some buffer => cString (buffer ++ junk start) ::
        passedFrom list junk fuel (list.nodes.next 0 start).join

/-- The strings that `Run` passes to `PersistentSkiplistWrapper::Insert`. -/
def passed (f : FlushNVM) (junk : ℕ → List UInt8) : List Key :=
  match f.skiplist with
  | none => []
  | some list => passedFrom list junk (list.nodes.length + 1) (list.nodes.next 0 list.head).join

/-- `PersistentSkiplistWrapper::Insert` for one key after the other. -/
def insertKeys (env : ℕ → Env) (keys : List Key) (nvm : PersistentSkipList) :
    Except Fault PersistentSkipList :=
  keys.foldlM (fun nvm key => nvm.insert ⟨env nvm.nodes.length, key⟩) nvm

variable {list : MemorySkipList} {junk : ℕ → List UInt8} {env : ℕ → Env}

theorem runFrom_passed {fuel : ℕ} {start : Ptr} {s t : FlushState}
    (h : runFrom list junk env fuel start s = .ok t) :
    insertKeys env (passedFrom list junk fuel start) s.nvm = .ok t.nvm := by
  induction fuel generalizing start s with
  | zero => cases h
  | succ fuel ih =>
    cases start with
    | none =>
      cases h
      rfl
    | some start =>
      obtain ⟨buffer, hbuffer, h⟩ := bind_eq_ok.mp h
      obtain ⟨nvm, hnvm, h⟩ := bind_eq_ok.mp h
      obtain ⟨next, hnext, h⟩ := bind_eq_ok.mp h
      rw [passedFrom, deref_eq_ok.mp hbuffer, deref_eq_ok.mp hnext]
      exact bind_eq_ok.mpr ⟨nvm, hnvm, ih h⟩

/-- What a `Run` does to the NVM list is to insert the strings it passes, in their order. -/
theorem run_passed {f : FlushNVM} {nvm nvm' : PersistentSkipList}
    (h : f.run junk env nvm = .ok nvm') : insertKeys env (f.passed junk) nvm = .ok nvm' := by
  unfold run at h
  unfold passed
  cases hf : f.skiplist with
  | none =>
    rw [hf] at h
    cases h
  | some list =>
    rw [hf] at h
    obtain ⟨start, hstart, h⟩ := bind_eq_ok.mp h
    cases start with
    | none => cases h
    | some start =>
      obtain ⟨st, hst, h⟩ := bind_eq_ok.mp h
      cases h
      simp only [deref_eq_ok.mp hstart, Option.join_some]
      exact runFrom_passed hst

theorem passedFrom_eq {x : ℕ} {l : List ℕ} (hc : Chain (list.nodes.next 0) x l)
    (hi : ∀ y ∈ l, list.keyAt y = some (list.keyOf y)) {fuel : ℕ} (hf : l.length < fuel) :
    passedFrom list junk fuel l.head? = l.map fun y => cString (list.keyOf y ++ junk y) := by
  induction hc generalizing fuel with
  | nil h =>
    obtain ⟨fuel, rfl⟩ : ∃ k, fuel = k + 1 := ⟨fuel - 1, by omega⟩
    rfl
  | @cons x y l h ht ih =>
    obtain ⟨fuel, rfl⟩ : ∃ k, fuel = k + 1 := ⟨fuel - 1, by omega⟩
    have hf' : l.length < fuel := by
      simp only [List.length_cons] at hf
      omega
    rw [List.head?_cons, passedFrom, hi y (by simp), ht.next_eq, Option.join_some,
      ih (fun z hz => hi z (by simp [hz])) hf', List.map_cons]

/-- The loop reaches the end of a list if the insertions of the copied keys return. -/
theorem runFrom_of_insertKeys {x : ℕ} {l : List ℕ} (hc : Chain (list.nodes.next 0) x l)
    (hi : ∀ y ∈ l, list.keyAt y = some (list.keyOf y)) {fuel : ℕ} (hf : l.length < fuel)
    {s : FlushState} {nvm' : PersistentSkipList}
    (h : insertKeys env (l.map fun y => cString (list.keyOf y ++ junk y)) s.nvm = .ok nvm') :
    ∃ t, runFrom list junk env fuel l.head? s = .ok t ∧ t.nvm = nvm' := by
  induction hc generalizing s fuel with
  | nil hend =>
    obtain ⟨fuel, rfl⟩ : ∃ k, fuel = k + 1 := ⟨fuel - 1, by omega⟩
    exact ⟨s, rfl, Except.ok.inj h⟩
  | @cons x y l hx ht ih =>
    obtain ⟨fuel, rfl⟩ : ∃ k, fuel = k + 1 := ⟨fuel - 1, by omega⟩
    have hf' : l.length < fuel := by
      simp only [List.length_cons] at hf
      omega
    rw [List.map_cons] at h
    obtain ⟨nvm, hnvm, h⟩ := bind_eq_ok.mp h
    simp only [List.head?_cons, runFrom, hi y (by simp), deref_some, ok_bind, ht.next_eq, hnvm]
    exact ih (fun z hz => hi z (by simp [hz])) hf' h

/-- When a `Run` comes to its end: the list has a key, and the insertions of the copies return. -/
theorem run_eq_ok_iff {L : List ℕ} (hc : Chain (list.nodes.next 0) list.head L)
    (hi : ∀ y ∈ L, list.keyAt y = some (list.keyOf y)) {nvm nvm' : PersistentSkipList} :
    run ⟨some list⟩ junk env nvm = .ok nvm' ↔ L ≠ [] ∧
      insertKeys env (L.map fun y => cString (list.keyOf y ++ junk y)) nvm = .ok nvm' := by
  have hf : L.length < list.nodes.length + 1 := Nat.lt_succ_of_le (Arena.chain_length_le hc)
  constructor
  · intro h
    constructor
    · rintro rfl
      simp only [run, hc.next_eq, List.head?_nil, deref_some, ok_bind] at h
      cases h
    · have hpassed := run_passed h
      simp only [passed, hc.next_eq, Option.join_some] at hpassed
      rwa [passedFrom_eq hc hi hf] at hpassed
  · rintro ⟨hne, h⟩
    obtain ⟨start, rest, rfl⟩ := List.exists_cons_of_ne_nil hne
    obtain ⟨t, ht, rfl⟩ := runFrom_of_insertKeys (s := ⟨nvm, (0, 0), []⟩) hc hi hf h
    rw [List.head?_cons] at ht
    simp only [run, hc.next_eq, List.head?_cons, deref_some, ok_bind, ht]
    rfl

theorem passed_eq {batch : List Call} {A B : List ℕ}
    (hl : MemorySkipList.Sorted list batch A B) :
    passed ⟨some list⟩ junk = (A ++ B).map fun y => cString (list.keyOf y ++ junk y) := by
  have hbase := hl.located.base
  have hi : ∀ y ∈ A ++ B, list.keyAt y = some (list.keyOf y) := fun y hy =>
    hl.intact y (hl.located.allocated y (List.mem_cons_of_mem _ hy))
  simp only [passed, hbase.next_eq, Option.join_some]
  exact passedFrom_eq hbase hi hl.located.length_lt

theorem zero_not_mem_passedFrom {fuel : ℕ} {start : Ptr} :
    ∀ key ∈ passedFrom list junk fuel start, (0 : UInt8) ∉ key := by
  induction fuel generalizing start with
  | zero => nofun
  | succ fuel ih =>
    cases start with
    | none => nofun
    | some start =>
      intro key hkey
      unfold passedFrom at hkey
      cases hbuffer : list.keyAt start with
      | none =>
        rw [hbuffer] at hkey
        cases hkey
      | some buffer =>
        rw [hbuffer] at hkey
        rcases List.mem_cons.mp hkey with rfl | hkey
        · exact zero_not_mem_cString _
        · exact ih key hkey

theorem zero_not_mem_passed {f : FlushNVM} :
    ∀ key ∈ f.passed junk, (0 : UInt8) ∉ key := by
  unfold passed
  cases f.skiplist with
  | none => nofun
  | some list => exact zero_not_mem_passedFrom

theorem passed_eq_nil (h : ∀ y, list.nodes.next 0 list.head ≠ some (some y)) :
    passed ⟨some list⟩ junk = [] := by
  simp only [passed]
  cases hnext : list.nodes.next 0 list.head with
  | none => rfl
  | some next =>
    cases next with
    | none => rfl
    | some y => exact absurd hnext (h y)

end FlushNVM

variable {maxHeight keySize : ℕ} {calls : List Call} {junk : ℕ → List UInt8} {sorted : List Key}
  {list : MemorySkipList} {A B : List ℕ}

/-- `Insert` of the calls into a new DRAM list and a `Run` that passes exactly `keys`. -/
def FlushesAs (maxHeight keySize : ℕ) (calls : List Call) (junk : ℕ → List UInt8)
    (keys : List Key) : Prop :=
  ∃ list, (MemorySkipList.new maxHeight keySize).insertAll calls = .ok list ∧
    FlushNVM.passed ⟨some list⟩ junk = keys

/-- The first key is not that of the sentinel, as far as `strncmp` can tell. -/
def FirstNotSentinel (keySize : ℕ) (calls : List Call) : Prop :=
  ∀ c, calls.head? = some c → strncmp c.key ([32] ++ c.junk 0) keySize ≠ 0

theorem MemorySkipList.new_next_ne (maxHeight keySize i x y : ℕ) :
    (new maxHeight keySize).nodes.next i x ≠ some (some y) := by
  intro h
  obtain ⟨n, hn, h⟩ := Option.bind_eq_some_iff.mp h
  have hslot : some (some y) ∈ n.slots := List.mem_of_getElem? (Option.join_eq_some_iff.mp h)
  rcases x with _ | x
  · obtain rfl := Option.some.inj hn
    rcases List.mem_append.mp hslot with h | h
    · cases List.eq_of_mem_replicate h
    · cases List.eq_of_mem_replicate h
  · cases hn

theorem FlushesAs.firstNotSentinel (h : FlushesAs maxHeight keySize calls junk sorted)
    (hkeys : ∀ c ∈ calls, keySize ≤ c.key.length) (hdiff : (windows keySize calls).Nodup)
    (hheights : ∀ c ∈ calls, 1 ≤ c.height ∧ c.height ≤ maxHeight % 2 ^ 16)
    (hlen : sorted.length = calls.length) : FirstNotSentinel keySize calls := by
  obtain ⟨list, hins, rfl⟩ := h
  intro c hc heq
  cases calls with
  | nil => cases hc
  | cons c' rest =>
    obtain rfl : c' = c := Option.some.inj hc
    obtain ⟨u, hu, hins⟩ := bind_eq_ok.mp hins
    obtain ⟨hpos, hle⟩ := hheights c' (by simp)
    have hfinger :=
      (MemorySkipList.new_sorted keySize (lt_of_lt_of_le hpos hle)).located.finger_zero
    have hloc := MemorySkipList.locate_onFinger hfinger rfl heq
    rw [MemorySkipList.insert, hloc, ok_bind] at hu
    obtain ⟨⟨n, hn⟩, hnone, hlinks⟩ := MemorySkipList.overwriteFinger_ok hfinger hu
    cases rest with
    | nil =>
      -- the list is still empty
      obtain rfl : u = list := Except.ok.inj hins
      have hempty : FlushNVM.passed ⟨some u⟩ junk = [] := by
        apply FlushNVM.passed_eq_nil
        intro y hy
        exact MemorySkipList.new_next_ne _ _ _ _ y (hlinks _ _ _ hy)
      rw [hempty] at hlen
      cases hlen
    | cons d rest =>
      -- the next comparison with the sentinel fails
      obtain ⟨v, hv, -⟩ := bind_eq_ok.mp hins
      have hne : c'.key ≠ [] := by
        intro hnil
        have hzero : keySize = 0 := by
          have := hkeys c' (by simp)
          rw [hnil] at this
          exact Nat.le_zero.mp this
        rw [hzero] at hdiff
        simp [windows] at hdiff
      have hblock : u.Blocked := by
        refine ⟨_, ?_, hnone hne⟩
        rw [hn]
        exact hfinger
      exact hblock.insert d hv

theorem MemorySkipList.Sorted.mem_iff (hs : Sorted list calls A B) (hhead : list.head = 0)
    (hlen : list.nodes.length ≤ calls.length + 1) (y : ℕ) :
    y ∈ A ++ B ↔ 1 ≤ y ∧ y ≤ calls.length := by
  obtain ⟨hnot, hnodup⟩ := List.nodup_cons.mp hs.located.nodup
  have hsub : A ++ B ⊆ List.range' 1 calls.length := by
    intro z hz
    have hlt := hs.located.allocated z (List.mem_cons_of_mem _ hz)
    have hne : z ≠ 0 := by
      rintro rfl
      exact hnot (hhead ▸ hz)
    rw [List.mem_range'_1]
    omega
  have hcount : (A ++ B).length = calls.length := by
    have := hs.filled.contents.length_eq
    rwa [List.length_map, List.length_map] at this
  have hperm : (A ++ B).Perm (List.range' 1 calls.length) := by
    apply (hnodup.subperm hsub).perm_of_length_le
    rw [List.length_range', hcount]
  rw [hperm.mem_iff, List.mem_range'_1]
  omega

/-- Keys without zero bytes of which the first is not the sentinel's reach the list in the one order
in which they are sorted. -/
theorem insertAll_sortedKeys (hkeys : ∀ c ∈ calls, keySize ≤ c.key.length)
    (hdiff : (windows keySize calls).Nodup)
    (hheights : ∀ c ∈ calls, 1 ≤ c.height ∧ c.height ≤ maxHeight % 2 ^ 16)
    (hpos : 0 < maxHeight % 2 ^ 16)
    (hperm : sorted.Perm (calls.map Call.key))
    (hsorted : sorted.Pairwise fun a b => strncmp a b keySize ≤ 0)
    (hfree : ∀ c ∈ calls, (0 : UInt8) ∉ c.key) (hfirst : FirstNotSentinel keySize calls) :
    ∃ list A B, (MemorySkipList.new maxHeight keySize).insertAll calls = .ok list ∧
      MemorySkipList.Sorted list calls A B ∧ sorted = (A ++ B).map list.keyOf := by
  have hfill : ∀ c ∈ calls, FillsWindow keySize c.key := fun c hc =>
    ⟨hkeys c hc, fun h0 => hfree c hc (List.mem_of_mem_take h0)⟩
  obtain ⟨list, A, B, he, hsize, -, hs⟩ :=
    (MemorySkipList.new_sorted keySize hpos).insertAll_of_first (strncmp_ne_of_nodup hfill hdiff)
      (fun c hc => ⟨hkeys c hc, hheights c hc⟩)
      (fun _ c hc hview => hfirst c hc (strncmp_eq_zero_iff.mpr hview.symm))
  refine ⟨list, A, B, he, hs, ?_⟩
  have hsize' : list.keySize = keySize := hsize
  have hkeysOf := hs.filled.keys_perm
  have hle : ((A ++ B).map list.keyOf).Pairwise fun a b => strncmp a b keySize ≤ 0 := by
    rw [← hsize']
    exact List.pairwise_map.mpr hs.filled.pairwise_le
  apply (hperm.trans hkeysOf.symm).eq_of_pairwise _ hsorted hle
  intro a b ha hb hab hba
  obtain ⟨c, hc, rfl⟩ := List.mem_map.mp (hperm.subset ha)
  obtain ⟨d, hd, rfl⟩ := List.mem_map.mp (hkeysOf.subset hb)
  have hview := le_antisymm (strncmp_nonpos_iff.mp hab) (strncmp_nonpos_iff.mp hba)
  rw [(hfill c hc).view_eq, (hfill d hd).view_eq] at hview
  have hwindow := WindowOrder.antisymm hview.le hview.ge
  rw [List.inj_on_of_nodup_map hdiff hc hd hwindow]

/-- On such keys only the memory behind the buffers decides. -/
theorem flushesAs_iff_junk (hkeys : ∀ c ∈ calls, keySize ≤ c.key.length)
    (hdiff : (windows keySize calls).Nodup)
    (hheights : ∀ c ∈ calls, 1 ≤ c.height ∧ c.height ≤ maxHeight % 2 ^ 16)
    (hpos : 0 < maxHeight % 2 ^ 16)
    (hperm : sorted.Perm (calls.map Call.key))
    (hsorted : sorted.Pairwise fun a b => strncmp a b keySize ≤ 0)
    (hfree : ∀ c ∈ calls, (0 : UInt8) ∉ c.key) (hfirst : FirstNotSentinel keySize calls) :
    FlushesAs maxHeight keySize calls junk sorted ↔
      ∀ y, 1 ≤ y → y ≤ calls.length → (junk y).headD 0 = 0 := by
  obtain ⟨list, A, B, he, hs, rfl⟩ :=
    insertAll_sortedKeys hkeys hdiff hheights hpos hperm hsorted hfree hfirst
  have hheights' : ∀ c ∈ calls, 1 ≤ c.height := fun c hc => (hheights c hc).1
  obtain ⟨hbegun, -⟩ := (MemorySkipList.new_begun maxHeight keySize).insertAll hheights' he
  have hlen : list.nodes.length ≤ calls.length + 1 := by
    rw [Nat.add_comm]
    exact MemorySkipList.insertAll_length_le hheights' he
  have hmem := hs.mem_iff hbegun.head hlen
  have hcopy : ∀ y ∈ A ++ B, cString (list.keyOf y ++ junk y) = list.keyOf y ↔
      (junk y).headD 0 = 0 := by
    intro y hy
    obtain ⟨c, hc, hcy⟩ := List.mem_map.mp (hs.filled.keys_perm.subset (List.mem_map_of_mem hy))
    rw [cString_append_eq_self_iff, ← hcy]
    exact and_iff_right (hfree c hc)
  have hpassed : FlushesAs maxHeight keySize calls junk ((A ++ B).map list.keyOf) ↔
      ∀ y ∈ A ++ B, cString (list.keyOf y ++ junk y) = list.keyOf y := by
    rw [← List.map_inj_left, ← FlushNVM.passed_eq hs]
    constructor
    · rintro ⟨list', he', h⟩
      obtain rfl : list = list' := Except.ok.inj (he.symm.trans he')
      exact h
    · intro h
      exact ⟨list, he, h⟩
  rw [hpassed]
  constructor
  · intro h y hpos hle
    have hy := (hmem y).mpr ⟨hpos, hle⟩
    exact (hcopy y hy).mp (h y hy)
  · intro h y hy
    obtain ⟨hpos, hle⟩ := (hmem y).mp hy
    exact (hcopy y hy).mpr (h y hpos hle)

end PersistTree
