import PersistTree.Pmem.Refinement

/-!
# Inserting into the pool

A list on the bytes of its pool and a list on an arena correspond when the pool holds the arena
and the members of the two objects agree. While the nodes fit into the mapping, `Insert` does the
same to both; the first node that does not fit ends the run with a fault.
-/
namespace PersistTree

open Library ByteMemory PersistentAllocator PoolLayout

namespace MappedSkipList

/-- The list with the same members on an arena, whose head is its first node. -/
def onArena (p : MappedSkipList) (nodes : Arena Key) (prev : List ℕ) (ops : List PmOp) :
    PersistentSkipList where
  nodes := nodes
  head := 0
  prev := prev
  prevHeight := p.prevHeight
  kMaxHeight := p.kMaxHeight
  cntTime := p.cntTime
  allCnt := p.allCnt
  headCnt := p.headCnt
  suitCnt := p.suitCnt
  optNum := p.optNum
  opt1gNum := p.opt1gNum
  per1gNum := p.per1gNum
  maxHeight := p.maxHeight
  keySize := p.keySize
  ops := ops
  reports := p.reports

/-- The pointers of the object point into a pool that holds the nodes and the fingers. -/
structure Stores (L : PoolLayout) (p : MappedSkipList) (nodes : Arena Key) (prev : List ℕ) :
    Prop where
  holds : Holds L p.allocator nodes prev
  readable : Readable L nodes p.keySize
  nonempty : 0 < nodes.length
  head : p.head = L.addr nodes 0
  prev : p.prev = L.prevAddr nodes
  kMaxHeight : p.kMaxHeight = L.kMaxHeight

/-- The same list twice: on the bytes of the pool and on the arena they hold. -/
structure Refines (L : PoolLayout) (p : MappedSkipList) (s : PersistentSkipList) : Prop where
  stores : Stores L p s.nodes s.prev
  members : s = p.onArena s.nodes s.prev s.ops

variable {L : PoolLayout} {p p' : MappedSkipList} {s s' : PersistentSkipList} {nodes : Arena Key}
  {prev : List ℕ} {ops : List PmOp} {env : Env} {key : Key} {x height : ℕ} {A B : List ℕ}

theorem Stores.of_holds (h : Stores L p nodes prev) {prev' : List ℕ}
    (hholds : Holds L p'.allocator nodes prev') (hhead : p'.head = p.head)
    (hprev : p'.prev = p.prev) (hk : p'.kMaxHeight = p.kMaxHeight)
    (hsize : p'.keySize = p.keySize) : Stores L p' nodes prev' where
  holds := hholds
  readable := hsize ▸ h.readable
  nonempty := h.nonempty
  head := hhead.trans h.head
  prev := hprev.trans h.prev
  kMaxHeight := hk.trans h.kMaxHeight

theorem searchFrom_eq (h : Stores L p nodes prev) (hlen : p.maxHeight ≤ prev.length)
    (hx : x < nodes.length) (hs : (p.onArena nodes prev ops).searchFrom env key x = .ok s') :
    ∃ p' prev', p.searchFrom key (L.addr nodes x) = .ok p' ∧ Stores L p' nodes prev' ∧
      s' = p'.onArena nodes prev' ops := by
  obtain ⟨r, hr, hs⟩ := bind_eq_ok.mp hs
  obtain ⟨a, ha, hholds⟩ := Holds.searchLevels_eq h.readable key env.junk (fun _ => rfl)
    p.maxHeight x p.allocator prev r h.holds hlen hx (deref_eq_ok.mp hr)
  rw [← h.prev] at ha
  rw [searchFrom, ha, ok_bind]
  simp only [onArena] at hs ⊢
  by_cases hz : p.per1gNum = 0
  · simp [hz, throw, throwThe, MonadExceptOf.throw] at hs
  · by_cases hw : p.opt1gNum % p.per1gNum = 0
    · simp only [hz, hw, if_true, if_false] at hs ⊢
      obtain rfl := Except.ok.inj hs
      exact ⟨_, r.1, rfl, h.of_holds hholds rfl rfl rfl rfl, rfl⟩
    · simp only [hz, hw, if_false] at hs ⊢
      obtain rfl := Except.ok.inj hs
      exact ⟨_, r.1, rfl, h.of_holds hholds rfl rfl rfl rfl, rfl⟩

theorem findLessThan_eq (h : Stores L p nodes prev) (hlen : p.maxHeight ≤ prev.length)
    (hs : (p.onArena nodes prev ops).findLessThan env key = .ok s') :
    ∃ p' prev', p.findLessThan key = .ok p' ∧ Stores L p' nodes prev' ∧
      s' = p'.onArena nodes prev' ops := by
  have h' : Stores L { p with allCnt := p.allCnt + 1, headCnt := p.headCnt + 1 } nodes prev :=
    h.of_holds h.holds rfl rfl rfl rfl
  obtain ⟨p', prev', hp, hp', rfl⟩ := searchFrom_eq h' hlen h.nonempty hs
  rw [← h.head] at hp
  exact ⟨p', prev', hp, hp', rfl⟩

theorem findNextNode_eq (h : Stores L p nodes prev) (hlen : p.maxHeight ≤ prev.length)
    (hs : (p.onArena nodes prev ops).findNextNode env key = .ok s') :
    ∃ p' prev', p.findNextNode key = .ok p' ∧ Stores L p' nodes prev' ∧
      s' = p'.onArena nodes prev' ops := by
  obtain ⟨x, hx, hs⟩ := bind_eq_ok.mp hs
  have hload : p.allocator.load (L.prevAddr nodes + 8 * (p.maxHeight - 1)) =
      .ok (L.addr nodes x) := h.holds.load_finger (deref_eq_ok.mp hx)
  have h' : Stores L { p with allCnt := p.allCnt + 1 } nodes prev :=
    h.of_holds h.holds rfl rfl rfl rfl
  obtain ⟨p', prev', hp, hp', rfl⟩ :=
    searchFrom_eq h' hlen (h.holds.fingers _ x (deref_eq_ok.mp hx)).2 hs
  rw [← h.prev] at hload
  exact ⟨p', prev', by rw [findNextNode, hload, ok_bind, hp], hp', rfl⟩

theorem position_eq (h : Stores L p nodes prev) {pos : Position}
    (hjunk : env.junk = p.allocator.junk L nodes p.keySize)
    (hpos : position ((p.onArena nodes prev ops).compareKeyAndNode env key) (nodes.next 0) x =
      .ok pos) :
    position (p.allocator.compareKeyAndNode p.keySize key) (p.allocator.links 0)
      (L.addr nodes x) = .ok pos := by
  have hcompare : ∀ y res, (p.onArena nodes prev ops).compareKeyAndNode env key y = .ok res →
      p.allocator.compareKeyAndNode p.keySize key (L.addr nodes y) = .ok res := by
    intro y res hres
    obtain ⟨node, hnode, hres⟩ := bind_eq_ok.mp hres
    rw [h.holds.compareKeyAndNode_eq h.readable (deref_eq_ok.mp hnode), ← hjunk]
    exact hres
  obtain ⟨res, hres, hpos⟩ := bind_eq_ok.mp hpos
  rw [position, hcompare x res hres, ok_bind]
  by_cases hgt : 0 < res
  · rw [if_pos hgt] at hpos ⊢
    obtain ⟨n, hn, hpos⟩ := bind_eq_ok.mp hpos
    rw [h.holds.relocated 0 x n (deref_eq_ok.mp hn), deref_some, ok_bind]
    cases n with
    | none => exact hpos
    | some n =>
      obtain ⟨resNext, hresNext, hpos⟩ := bind_eq_ok.mp hpos
      simp only [Option.map_some, hcompare n resNext hresNext, ok_bind]
      exact hpos
  · rw [if_neg hgt] at hpos ⊢
    exact hpos

theorem locate_eq (h : Stores L p nodes prev) (hlen : p.maxHeight ≤ prev.length)
    (hjunk : env.junk = p.allocator.junk L nodes p.keySize)
    (hs : (p.onArena nodes prev ops).locate env key = .ok s') :
    ∃ p' prev', p.locate key = .ok p' ∧ Stores L p' nodes prev' ∧
      s' = p'.onArena nodes prev' ops := by
  obtain ⟨x, hx, hs⟩ := bind_eq_ok.mp hs
  obtain ⟨pos, hpos, hs⟩ := bind_eq_ok.mp hs
  have h' : Stores L { p with opt1gNum := p.opt1gNum + 1 } nodes prev :=
    h.of_holds h.holds rfl rfl rfl rfl
  have hload : p.allocator.load p.prev = .ok (L.addr nodes x) := by
    rw [h.prev]
    exact h.holds.load_finger (i := 0) (deref_eq_ok.mp hx)
  have hpos' := position_eq h' hjunk hpos
  rw [locate, hload, ok_bind, hpos', ok_bind]
  have hstay : ∀ q : MappedSkipList, q.allocator = p.allocator → q.head = p.head →
      q.prev = p.prev → q.kMaxHeight = p.kMaxHeight → q.keySize = p.keySize →
      Stores L q nodes prev := by
    rintro q hq hhead hprev hk hsize
    exact h.of_holds (hq ▸ h.holds) hhead hprev hk hsize
  cases pos with
  | atEnd | between | onNext | onFinger =>
    obtain rfl := Except.ok.inj hs
    exact ⟨_, prev, rfl, hstay _ rfl rfl rfl rfl rfl, rfl⟩
  | behind => exact findLessThan_eq h' hlen hs
  | ahead =>
    obtain ⟨t, ht, hs⟩ := bind_eq_ok.mp hs
    obtain ⟨p', prev', hp, hp', rfl⟩ := findNextNode_eq h' hlen ht
    obtain rfl := Except.ok.inj hs
    simp only [hp, ok_bind]
    exact ⟨_, prev', rfl, hp'.of_holds hp'.holds rfl rfl rfl rfl, rfl⟩

theorem keyLen_congr {m m' : Arena Key} (h : SameNodes m m') : keyLen m' = keyLen m := by
  funext y
  have hp := congrArg (Option.map List.length) (h.payload y)
  rw [Option.map_map, Option.map_map] at hp
  exact congrArg (Option.getD · 0) hp

/-- The new node and its key are long enough for the comparisons to come. -/
theorem readable_link {m' : Arena Key} {keySize : ℕ} (h : Readable L nodes keySize)
    (hm : 0 < nodes.length) (hkey : keySize ≤ key.length)
    (hs : SameNodes (nodes.alloc key height) m') : Readable L m' keySize where
  head := by
    rw [keyLen_congr hs, keyLen_alloc hm]
    exact h.head
  nodes x hpos hx := by
    rw [hs.length, Arena.alloc_length] at hx
    rw [keyLen_congr hs]
    rcases Nat.lt_succ_iff_lt_or_eq.mp hx with hx | rfl
    · rw [keyLen_alloc hx]
      exact h.nodes x hpos hx
    · rwa [keyLen_alloc_self]

theorem linkNode_eq (h : Stores L p nodes prev) (hlen : p.maxHeight ≤ prev.length)
    (hle : height ≤ prev.length) (hkey : p.keySize ≤ key.length)
    (hfits : p.allocator.curIndex + (8 + 8 * height) + key.length ≤ L.pmemaddr + L.extent)
    (hs : (p.onArena nodes prev ops).linkNode key height = .ok s') :
    ∃ p', p.linkNode key height = .ok p' ∧ Refines L p' s' ∧
      p'.allocator.curIndex = p.allocator.curIndex + (8 + 8 * height) + key.length := by
  obtain ⟨r, hr, hs⟩ := bind_eq_ok.mp hs
  obtain rfl := Except.ok.inj hs
  obtain ⟨a₁, ha₁, h₁⟩ := Holds.raiseLevels_eq h.nonempty (height - p.maxHeight) p.maxHeight
    p.allocator prev h.holds (by omega)
  have hcur : a₁.curIndex = p.allocator.curIndex := by rw [h₁.curIndex, h.holds.curIndex]
  rw [← hcur] at hfits
  obtain ⟨ha₂, h₂⟩ := h₁.newNode h.nonempty key hfits
  have haddr : L.addr (nodes.alloc key height) nodes.length = L.addr nodes nodes.length :=
    addr_alloc le_rfl
  have hprev : L.prevAddr (nodes.alloc key height) = L.prevAddr nodes := prevAddr_alloc h.nonempty
  obtain ⟨a₃, ha₃, h₃, haddr₃, hprev₃⟩ := Holds.linkLevels_eq h.nonempty height 0 _ _ _ _ r h₂
    (by simp) (deref_eq_ok.mp hr)
  have hsame : SameNodes (nodes.alloc key height) r.1 := (spliceFrom_some (deref_eq_ok.mp hr)).1
  rw [haddr, hprev] at ha₃
  rw [← h.head, ← h.prev] at ha₁
  rw [← h.prev] at ha₃
  refine ⟨_, by rw [linkNode, ha₁, ok_bind, ha₂, ok_bind]; simp only [ha₃, ok_bind]; rfl, ?_, ?_⟩
  · refine ⟨⟨h₃, readable_link h.readable h.nonempty hkey hsame, ?_, ?_, ?_, h.kMaxHeight⟩, rfl⟩
    · rw [hsame.length, Arena.alloc_length]
      exact Nat.succ_pos _
    · rw [h.head, haddr₃, addr_alloc (Nat.zero_le _)]
    · rw [h.prev, hprev₃, hprev]
  · rw [h₃.curIndex, haddr₃, hsame.length, Arena.alloc_length, addr_alloc_length h.nonempty,
      h.holds.curIndex]

theorem Refines.locate (h : Refines L p s) (hv : PersistentSkipList.Valid s A B)
    (hwindow : s.per1gNum ≠ 0) (key : Key) (height : ℕ) :
    ∃ env p' s' A' B', env.height = height ∧ p.locate key = .ok p' ∧ s.locate env key = .ok s' ∧
      Refines L p' s' ∧ PersistentSkipList.SameList s s' ∧
      PersistentSkipList.Located s' A' B' := by
  obtain ⟨hst, hmem⟩ := h
  have hlen : p.maxHeight ≤ s.prev.length := by
    have hle := hv.located.maxHeight_le
    rw [← hv.located.prevLength, hmem] at hle
    exact hle
  let env : Env := ⟨height, p.allocator.junk L s.nodes p.keySize⟩
  rcases PersistentSkipList.locate_outcome hv.located hv.started env key with
    ⟨hz, -⟩ | ⟨s', A', B', hs', hsame, -, hl', -⟩
  · exact absurd hz hwindow
  · have hs := hs'
    rw [hmem] at hs
    obtain ⟨p', prev', hp', hst', he⟩ := locate_eq hst hlen rfl hs
    refine ⟨env, p', s', A', B', rfl, hp', hs', ⟨?_, ?_⟩, hsame, hl'⟩
    · rw [he]
      exact hst'
    · rw [he]
      rfl

/-- One `Insert` that fits. -/
theorem Refines.insert (h : Refines L p s) (hv : PersistentSkipList.Valid s A B)
    (hwindow : s.per1gNum ≠ 0) (hpos : 1 ≤ height) (hle : height ≤ s.kMaxHeight)
    (hkey : s.keySize ≤ key.length)
    (hfits : p.allocator.curIndex + (8 + 8 * height) + key.length ≤ L.pmemaddr + L.extent) :
    ∃ c p' s', c.key = key ∧ c.height = height ∧ p.insert key height = .ok p' ∧
      s.insert c = .ok s' ∧ Refines L p' s' ∧
      p'.allocator.curIndex = p.allocator.curIndex + (8 + 8 * height) + key.length := by
  obtain ⟨env, p₁, s₁, A', B', rfl, hp₁, hs₁, h₁, hsame, hl⟩ := h.locate hv hwindow key height
  obtain ⟨s', hs', -, -⟩ := PersistentSkipList.linkNode_spec hl key hpos (hsame.kMaxHeight ▸ hle)
  have hprev := hl.prevLength
  have hmax := hl.maxHeight_le
  have hsize : s₁.keySize = p₁.keySize := by rw [h₁.members]; rfl
  have hlevels : s₁.maxHeight = p₁.maxHeight := by rw [h₁.members]; rfl
  have hcur : p₁.allocator.curIndex = p.allocator.curIndex := by
    rw [h₁.stores.holds.curIndex, h.stores.holds.curIndex, hsame.nodes]
  have hs := hs'
  rw [h₁.members] at hs
  obtain ⟨p', hp', h', hend⟩ := linkNode_eq h₁.stores (by omega)
    (by rw [hprev, hsame.kMaxHeight]; exact hle) (by rw [← hsize, hsame.keySize]; exact hkey)
    (by rwa [hcur]) hs
  refine ⟨⟨env, key⟩, p', s', rfl, rfl, ?_, ?_, h', by rw [hend, hcur]⟩
  · rw [MappedSkipList.insert, hp₁, ok_bind, hp']
  · rw [PersistentSkipList.insert, hs₁, ok_bind, hs']

end MappedSkipList

end PersistTree
