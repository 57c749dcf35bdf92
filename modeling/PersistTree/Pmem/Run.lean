import PersistTree.Pmem.Insert
import PersistTree.Pmem.Overrun

/-!
# Runs on a freshly mapped pool

The constructor and a run of `Insert` calls on a mapping of a given length. The run returns exactly
when what it allocates fits into the mapping, and then it has done on the bytes of the pool what
the same calls do on an arena; whatever the file held before does not matter.
-/
namespace PersistTree

open Library ByteMemory PersistentAllocator PoolLayout

namespace MappedSkipList

def run (allocator : PersistentAllocator) (maxHeight keySize optNum per1gNum : ℕ)
    (calls : List (Key × ℕ)) : Except Fault MappedSkipList := do
  let p ← new allocator maxHeight keySize optNum per1gNum
  p.insertAll calls

/-- What the constructor allocates: the head with its key, and `prev_`. -/
def initialSize (maxHeight : ℕ) : ℕ := 8 + 8 * maxHeight + 1 + 8 * (maxHeight % 2 ^ 16)

/-- What an `Insert` allocates. -/
def callSize (c : Key × ℕ) : ℕ := 8 + 8 * c.2 + c.1.length

def poolSize (maxHeight : ℕ) (calls : List (Key × ℕ)) : ℕ :=
  initialSize maxHeight + (calls.map callSize).sum

variable {L : PoolLayout} {a a' : PersistentAllocator} {p p' : MappedSkipList}
  {s s' : PersistentSkipList} {maxHeight keySize optNum per1gNum : ℕ} {A B : List ℕ}
  {calls : List (Key × ℕ)}

/-- The arena in the loop of the constructor: the first `k` slots of the head are null. -/
def headArena (maxHeight k : ℕ) : Arena Key :=
  [{ payload := [32], slots :=
      List.replicate k (some none) ++ List.replicate (maxHeight - k) none }]

theorem headArena_setNext {k : ℕ} (hk : k < maxHeight) :
    (headArena maxHeight k).setNext 0 k none = some (headArena maxHeight (k + 1)) := by
  have hlen : k < (List.replicate k (some none : Option Ptr) ++
      List.replicate (maxHeight - k) none).length := by
    rw [List.length_append, List.length_replicate, List.length_replicate]
    omega
  have hrest : maxHeight - k = (maxHeight - (k + 1)) + 1 := by omega
  simp only [headArena, Arena.setNext, List.getElem?_cons_zero, Option.bind_some, hlen, if_true,
    List.set_cons_zero]
  rw [hrest, List.replicate_succ, List.set_append_right _ _ (by simp), List.length_replicate,
    Nat.sub_self, List.set_cons_zero, List.replicate_succ', List.append_assoc]
  rfl

@[simp] theorem headArena_height (maxHeight k : ℕ) (hk : k ≤ maxHeight) :
    (headArena maxHeight k).height 0 = maxHeight := by
  simp [headArena, Arena.height, hk]

theorem initLevels_eq {n : ℕ} (hn : n = L.kMaxHeight) (hmax : n ≤ maxHeight) :
    ∀ (k i : ℕ) (a : PersistentAllocator), i + k = n →
      Holds L a (headArena maxHeight i) (List.replicate i 0) →
      ∃ a', initLevels L.pmemaddr (L.prevAddr (headArena maxHeight i)) k i a = .ok a' ∧
        Holds L a' (headArena maxHeight n) (List.replicate n 0) := by
  intro k
  induction k with
  | zero =>
    rintro i a rfl h
    exact ⟨a, rfl, h⟩
  | succ k ih =>
    intro i a hi h
    have hset := headArena_setNext (by omega : i < maxHeight)
    have hhead : L.addr (headArena maxHeight i) 0 = L.pmemaddr := by simp [addr]
    have hprev := prevAddr_setNext (L := L) hset Nat.one_pos
    have hhead' := addr_setNext (L := L) hset
    obtain ⟨a₁, ha₁, h₁⟩ := h.setNext hset (by simp)
    obtain ⟨a₂, ha₂, h₂⟩ := h₁.setFinger (List.replicate (i + 1) 0) (i := i) (y := 0)
      (by omega) Nat.one_pos (by simp) fun j hj => by
        rw [List.getElem?_replicate, List.getElem?_replicate]
        exact if_congr (by omega) rfl rfl
    obtain ⟨a₃, ha₃, h₃⟩ := ih (i + 1) a₂ (by omega) h₂
    rw [hhead] at ha₁
    rw [hhead', hhead, hprev] at ha₂
    rw [hprev] at ha₃
    exact ⟨a₃, by rw [initLevels, show (0 : ℕ) = L.ptr (headArena maxHeight i) none from rfl,
      ha₁, ok_bind, ha₂, ok_bind, ha₃], h₃⟩

theorem headArena_next (maxHeight i x : ℕ) : (headArena maxHeight 0).next i x = none := by
  have hnext := Arena.next_alloc ([] : Arena Key) [32] maxHeight i x
  simpa [Arena.alloc, headArena, Arena.next] using hnext

/-- The pool before the loop of the constructor, with the head and the room for `prev_`. -/
theorem holds_head {size : ℕ} (hextent : L.extent = wholePages size) (hpos : 0 < L.pmemaddr)
    (htop : L.pmemaddr + L.extent < 2 ^ 64)
    (hfits : 8 + 8 * maxHeight + 1 + 8 * L.kMaxHeight ≤ L.extent) (memory : ByteMemory) :
    Holds L (((PersistentAllocator.new L.pmemaddr size memory).withNode [32]
      maxHeight).allocate (8 * L.kMaxHeight)).2 (headArena maxHeight 0) [] where
  pmemaddr := rfl
  extent := hextent.symm
  pmemaddr_pos := hpos
  top := htop
  curIndex := by
    simp [allocate, withNode, PersistentAllocator.new, headArena, addr, nodeSize]
    omega
  fits := by
    simp only [allocate, withNode, PersistentAllocator.new, List.length_singleton]
    omega
  targets := fun i x y hn => by
    rw [headArena_next] at hn
    cases hn
  fingers := by simp
  contents := by
    have haddr : L.addr (headArena maxHeight 0) 0 = L.pmemaddr := by simp [addr]
    have hkey : L.keyAddr (headArena maxHeight 0) 0 = L.pmemaddr + (8 + 8 * maxHeight) := by
      rw [keyAddr, haddr, headArena_height _ _ (Nat.zero_le _)]
      omega
    intro f bytes hf he
    cases f with
    | key x =>
      obtain rfl : x = 0 := Nat.lt_one_iff.mp hf
      obtain rfl := Option.some.inj he
      rw [start, haddr, hkey]
      exact read_store_self _ _ _
    | slot x i =>
      rw [expected, headArena_next] at he
      cases he
    | buffer x =>
      obtain rfl : x = 0 := Nat.lt_one_iff.mp hf
      obtain rfl := Option.some.inj he
      rw [start, hkey]
      exact (read_store_of_apart (Or.inl (by simp only [PersistentAllocator.new]; omega))).trans
        (read_write_self _ _ _)
    | finger i => cases he

theorem new_eq {size : ℕ} (hextent : L.extent = wholePages size) (hpos : 0 < L.pmemaddr)
    (htop : L.pmemaddr + L.extent < 2 ^ 64)
    (hk : L.kMaxHeight = maxHeight % 2 ^ 16) (hsize : keySize ≤ 1 + 8 * (maxHeight % 2 ^ 16))
    (hfits : initialSize maxHeight ≤ L.extent) (memory : ByteMemory) (optNum per1gNum : ℕ) :
    ∃ p, new (PersistentAllocator.new L.pmemaddr size memory) maxHeight keySize optNum
        per1gNum = .ok p ∧
      Refines L p (PersistentSkipList.new maxHeight keySize optNum per1gNum) ∧
      p.allocator.curIndex = L.pmemaddr + initialSize maxHeight := by
  have hle : maxHeight % 2 ^ 16 ≤ maxHeight := Nat.mod_le _ _
  rw [initialSize, ← hk] at hfits
  rw [← hk] at hle hsize
  have hhead := holds_head hextent hpos htop hfits memory
  have hnode : (PersistentAllocator.new L.pmemaddr size memory).newNode [32] maxHeight =
      .ok (L.pmemaddr, (PersistentAllocator.new L.pmemaddr size memory).withNode [32]
        maxHeight) :=
    newNode_eq le_rfl (by
      simp only [PersistentAllocator.new, List.length_singleton, ← hextent]
      omega)
  obtain ⟨a, ha, h⟩ := initLevels_eq rfl hle L.kMaxHeight 0 _ (Nat.zero_add _) hhead
  have hprev : L.prevAddr (headArena maxHeight 0) = L.pmemaddr + (8 + 8 * maxHeight) + 1 := by
    simp [prevAddr, headArena, nodeSize]
    omega
  have hprev' : L.prevAddr (headArena maxHeight L.kMaxHeight) =
      L.pmemaddr + (8 + 8 * maxHeight) + 1 := by
    simp [prevAddr, headArena, nodeSize, hle]
    omega
  have hlen : keyLen (headArena maxHeight L.kMaxHeight) 0 = 1 := rfl
  have hcur : a.curIndex = L.pmemaddr + initialSize maxHeight := by
    rw [h.curIndex, initialSize, ← hk]
    simp [addr, headArena, nodeSize, hle]
    omega
  have hnew : new (PersistentAllocator.new L.pmemaddr size memory) maxHeight keySize optNum
      per1gNum = .ok {
        allocator := a, head := L.pmemaddr, prev := L.pmemaddr + (8 + 8 * maxHeight) + 1
        prevHeight := 1, kMaxHeight := L.kMaxHeight, cntTime := 0, allCnt := 0, headCnt := 0
        suitCnt := 0, optNum := optNum, opt1gNum := 0, per1gNum := per1gNum, maxHeight := 1
        keySize := keySize, reports := [] } := by
    rw [hprev] at ha
    rw [new, hnode, ok_bind, ← hk]
    change (initLevels _ (L.pmemaddr + (8 + 8 * maxHeight) + 1) _ _
      (PersistentAllocator.allocate _ (8 * L.kMaxHeight)).2 >>= _) = _
    rw [ha]
    rfl
  refine ⟨_, hnew, ⟨?_, ?_⟩, hcur⟩
  · have harena : (PersistentSkipList.new maxHeight keySize optNum per1gNum).nodes =
        headArena maxHeight L.kMaxHeight := by rw [hk]; rfl
    have hprevs : (PersistentSkipList.new maxHeight keySize optNum per1gNum).prev =
        List.replicate L.kMaxHeight 0 := by rw [hk]; rfl
    rw [harena, hprevs]
    exact {
      holds := h
      readable := ⟨hsize, fun x hpos hx => absurd hx (Nat.not_lt.mpr hpos)⟩
      nonempty := Nat.one_pos
      head := by simp [addr]
      prev := hprev'.symm
      kMaxHeight := rfl }
  · simp only [PersistentSkipList.new, onArena, hk]

theorem Refines.insertAll (h : Refines L p s) (hv : PersistentSkipList.Valid s A B)
    (hwindow : s.per1gNum ≠ 0)
    (hcalls : ∀ c ∈ calls, 1 ≤ c.2 ∧ c.2 ≤ s.kMaxHeight ∧ s.keySize ≤ c.1.length) :
    (p.allocator.curIndex + (calls.map callSize).sum ≤ L.pmemaddr + L.extent →
      ∃ inserts p' s', inserts.map (fun c : Call => (c.key, c.height)) = calls ∧
        p.insertAll calls = .ok p' ∧ s.insertAll inserts = .ok s' ∧ Refines L p' s') ∧
    (L.pmemaddr + L.extent < p.allocator.curIndex + (calls.map callSize).sum →
      p.insertAll calls = .error .badAccess) := by
  induction calls generalizing p s A B with
  | nil =>
    refine ⟨fun _ => ⟨[], p, s, rfl, rfl, rfl, h⟩, fun hend => ?_⟩
    have hfits := h.stores.holds.fits
    simp only [List.map_nil, List.sum_nil] at hend
    omega
  | cons c calls ih =>
    obtain ⟨hpos, hle, hkey⟩ := hcalls c (by simp)
    by_cases hfits : p.allocator.curIndex + (8 + 8 * c.2) + c.1.length ≤ L.pmemaddr + L.extent
    · obtain ⟨d, p', s', hd, hd', hp', hs', h', hcur⟩ :=
        h.insert hv hwindow hpos hle hkey hfits
      obtain ⟨hcfg, -, -, A', B', hv'⟩ := hv.insert (c := d) (by rw [hd']; exact ⟨hpos, hle⟩) hs'
      have hrest : ∀ e ∈ calls, 1 ≤ e.2 ∧ e.2 ≤ s'.kMaxHeight ∧ s'.keySize ≤ e.1.length := by
        rw [hcfg.kMaxHeight, hcfg.keySize]
        exact fun e he => hcalls e (List.mem_cons_of_mem c he)
      have hsum : p.allocator.curIndex + ((c :: calls).map callSize).sum =
          p'.allocator.curIndex + (calls.map callSize).sum := by
        rw [hcur, List.map_cons, List.sum_cons, callSize]
        omega
      obtain ⟨hok, herr⟩ := ih h' hv' (by rwa [hcfg.per1gNum]) hrest
      rw [hsum]
      constructor
      · intro hend
        obtain ⟨inserts, p'', s'', hmap, hp'', hs'', h''⟩ := hok hend
        refine ⟨d :: inserts, p'', s'', ?_, ?_, ?_, h''⟩
        · rw [List.map_cons, hmap, hd, hd']
        · rw [MappedSkipList.insertAll, List.foldlM_cons, hp', ok_bind]
          exact hp''
        · rw [PersistentSkipList.insertAll, List.foldlM_cons, hs', ok_bind]
          exact hs''
      · intro hend
        rw [MappedSkipList.insertAll, List.foldlM_cons, hp', ok_bind]
        exact herr hend
    · -- the node does not fit: the search still returns, the linking does not
      have hfail : p.insert c.1 c.2 = .error .badAccess := by
        obtain ⟨env, p₁, s₁, -, -, -, hp₁, -, h₁, hsame, -⟩ := h.locate hv hwindow c.1 c.2
        have hcur : p₁.allocator.curIndex = p.allocator.curIndex := by
          rw [h₁.stores.holds.curIndex, h.stores.holds.curIndex, hsame.nodes]
        rw [MappedSkipList.insert, hp₁, ok_bind]
        cases hlink : p₁.linkNode c.1 c.2 with
        | ok p₂ =>
          have hroom := fits_of_linkNode hpos hlink
          rw [hcur, h₁.stores.holds.pmemaddr, h₁.stores.holds.extent] at hroom
          exact absurd hroom hfits
        | error e => rw [onlyBadAccess_linkNode _ _ _ e hlink]
      constructor
      · intro hend
        rw [List.map_cons, List.sum_cons, callSize] at hend
        omega
      · intro _
        rw [MappedSkipList.insertAll, List.foldlM_cons, hfail, error_bind]

/-- The runs that the results below are about. The mapping does not contain the null pointer and
ends below the largest address, the heights are those `RandomHeight` can return, the keys are at
least as long as the comparisons, and a comparison with the one byte of the head's key ends in
`prev_`. -/
structure Admissible (pmemaddr size maxHeight keySize per1gNum : ℕ)
    (calls : List (Key × ℕ)) : Prop where
  pmemaddr_pos : 0 < pmemaddr
  top : pmemaddr + wholePages size < 2 ^ 64
  kMaxHeight_pos : 0 < maxHeight % 2 ^ 16
  keySize_le : keySize ≤ 1 + 8 * (maxHeight % 2 ^ 16)
  window_pos : 0 < per1gNum
  calls : ∀ c ∈ calls, 1 ≤ c.2 ∧ c.2 ≤ maxHeight % 2 ^ 16 ∧ keySize ≤ c.1.length

variable {pmemaddr size : ℕ}

theorem run_ok (h : Admissible pmemaddr size maxHeight keySize per1gNum calls)
    (hfits : poolSize maxHeight calls ≤ wholePages size) (memory : ByteMemory) (optNum : ℕ) :
    ∃ inserts p s, inserts.map (fun c : Call => (c.key, c.height)) = calls ∧
      run (.new pmemaddr size memory) maxHeight keySize optNum per1gNum calls = .ok p ∧
      (PersistentSkipList.new maxHeight keySize optNum per1gNum).insertAll inserts = .ok s ∧
      Refines ⟨pmemaddr, wholePages size, maxHeight % 2 ^ 16⟩ p s := by
  rw [poolSize] at hfits
  obtain ⟨p, hp, hr, hcur⟩ := new_eq (L := ⟨pmemaddr, wholePages size, maxHeight % 2 ^ 16⟩)
    rfl h.pmemaddr_pos h.top rfl h.keySize_le (le_trans (Nat.le_add_right _ _) hfits) memory optNum
    per1gNum
  obtain ⟨hok, -⟩ := hr.insertAll
    (PersistentSkipList.new_valid keySize optNum per1gNum h.kMaxHeight_pos)
    (Nat.pos_iff_ne_zero.mp h.window_pos) h.calls
  obtain ⟨inserts, p', s', hmap, hp', hs', hr'⟩ := hok (by rw [hcur]; dsimp; omega)
  exact ⟨inserts, p', s', hmap, by rw [run, hp, ok_bind, hp'], hs', hr'⟩

theorem run_overrun (h : Admissible pmemaddr size maxHeight keySize per1gNum calls)
    (hfits : wholePages size < poolSize maxHeight calls) (memory : ByteMemory) (optNum : ℕ) :
    run (.new pmemaddr size memory) maxHeight keySize optNum per1gNum calls =
      .error .badAccess := by
  rw [poolSize] at hfits
  by_cases hinitial : initialSize maxHeight ≤ wholePages size
  · obtain ⟨p, hp, hr, hcur⟩ := new_eq (L := ⟨pmemaddr, wholePages size, maxHeight % 2 ^ 16⟩)
      rfl h.pmemaddr_pos h.top rfl h.keySize_le hinitial memory optNum per1gNum
    obtain ⟨-, herr⟩ := hr.insertAll
      (PersistentSkipList.new_valid keySize optNum per1gNum h.kMaxHeight_pos)
      (Nat.pos_iff_ne_zero.mp h.window_pos) h.calls
    rw [run, hp, ok_bind, herr (by rw [hcur]; dsimp; omega)]
  · have hfail : new (.new pmemaddr size memory) maxHeight keySize optNum per1gNum =
        .error .badAccess := by
      cases hnew : new (.new pmemaddr size memory) maxHeight keySize optNum per1gNum with
      | ok p =>
        have hroom := fits_of_new h.kMaxHeight_pos hnew
        simp only [PersistentAllocator.new] at hroom
        rw [initialSize] at hinitial
        omega
      | error e => rw [onlyBadAccess_new _ _ _ _ _ e hnew]
    rw [run, hfail, error_bind]

/-- The run returns exactly when everything it allocates fits into the pages of the pool, and then
they hold what the same calls make of an arena; otherwise it ends in an access outside of them. -/
theorem run_refines (h : Admissible pmemaddr size maxHeight keySize per1gNum calls)
    (memory : ByteMemory) (optNum : ℕ) :
    (poolSize maxHeight calls ≤ wholePages size ∧
      ∃ inserts p s, inserts.map (fun c : Call => (c.key, c.height)) = calls ∧
        run (.new pmemaddr size memory) maxHeight keySize optNum per1gNum calls = .ok p ∧
        (PersistentSkipList.new maxHeight keySize optNum per1gNum).insertAll inserts = .ok s ∧
        Refines ⟨pmemaddr, wholePages size, maxHeight % 2 ^ 16⟩ p s) ∨
    (wholePages size < poolSize maxHeight calls ∧
      run (.new pmemaddr size memory) maxHeight keySize optNum per1gNum calls =
        .error .badAccess) := by
  rcases Nat.lt_or_ge (wholePages size) (poolSize maxHeight calls) with hfits | hfits
  · exact Or.inr ⟨hfits, run_overrun h hfits memory optNum⟩
  · exact Or.inl ⟨hfits, run_ok h hfits memory optNum⟩

/-- A key that fills the page of a small pool up, and one that is a byte longer. -/
theorem run_refines_page :
    (∃ p, run (.new 4096 83 fun _ => 0) 2 1 0 1 [(List.replicate 4039 98, 1)] = .ok p) ∧
      run (.new 4096 83 fun _ => 0) 2 1 0 1 [(List.replicate 4040 98, 1)] = .error .badAccess := by
  have hcalls : ∀ n, 1 ≤ n → Admissible 4096 83 2 1 1 [(List.replicate n 98, 1)] := fun n hn =>
    ⟨by decide, by decide, by decide, by decide, by decide, by simpa using hn⟩
  have hsize : ∀ n, poolSize 2 [(List.replicate n 98, 1)] = 57 + n := fun n => by
    simp [poolSize, callSize, initialSize]
    omega
  constructor
  · rcases run_refines (hcalls 4039 (by decide)) (fun _ => 0) 0 with
      ⟨-, -, p, -, -, hp, -⟩ | ⟨h, -⟩
    · exact ⟨p, hp⟩
    · rw [hsize] at h
      exact absurd h (by decide)
  · rcases run_refines (hcalls 4040 (by decide)) (fun _ => 0) 0 with ⟨h, -⟩ | ⟨-, h⟩
    · rw [hsize] at h
      exact absurd h (by decide)
    · exact h

end MappedSkipList

end PersistTree
