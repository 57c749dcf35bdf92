import PersistTree.Pmem.Holds
import PersistTree.SkipLists.PersistentOrder

/-!
# The pool refines the arena

Every step of the list on the bytes of its pool does what the same step does on the arena, as long
as the pool holds that arena: the comparisons read the same bytes, the walks meet the same nodes,
and each store rewrites the field that stands for the slot or the finger it is meant for.
-/
namespace PersistTree

open Library ByteMemory PersistentAllocator PoolLayout

/-- A comparison of `keySize` bytes stays inside the pool: the keys are that long, and behind the
key of the head lies `prev_`. -/
structure Readable (L : PoolLayout) (m : Arena Key) (keySize : ℕ) : Prop where
  head : keySize ≤ keyLen m 0 + 8 * L.kMaxHeight
  nodes : ∀ x, 0 < x → x < m.length → keySize ≤ keyLen m x

theorem Readable.keyAddr_add_le {L : PoolLayout} {m : Arena Key} {keySize x : ℕ}
    (h : Readable L m keySize) (hx : x < m.length) :
    L.keyAddr m x + keySize ≤ L.addr m m.length := by
  rcases Nat.eq_zero_or_pos x with rfl | hpos
  · have hhead := h.head
    have := prevAddr_eq (L := L) hx
    have := prevAddr_add_le (L := L) hx hx
    rw [keyAddr]
    omega
  · have hnode := h.nodes x hpos hx
    have := addr_add_le (L := L) (y := m.length) hx hx
    rw [keyAddr]
    omega

/-- The bytes in memory after the key buffer of a node. -/
def PersistentAllocator.junk (a : PersistentAllocator) (L : PoolLayout) (m : Arena Key)
    (keySize x : ℕ) : List UInt8 :=
  a.memory.read (L.keyAddr m x + keyLen m x) keySize

namespace Holds

variable {L : PoolLayout} {a : PersistentAllocator} {m m' : Arena Key} {prev prev' : List ℕ}
  {x y i n : ℕ} {p : Ptr} {node : Node Key} {key : Key} {height keySize : ℕ}

theorem lt_length_of_getElem? (hx : m[x]? = some node) : x < m.length :=
  (List.getElem?_eq_some_iff.mp hx).1

theorem loadByte_eq (h : Holds L a m prev) (hr : Readable L m keySize) (hx : m[x]? = some node)
    {j : ℕ} (hj : j < keySize) :
    a.loadByte (L.keyAddr m x + j) = .ok ((node.payload ++ a.junk L m keySize x).getD j 0) := by
  have hlt := lt_length_of_getElem? hx
  have hend := hr.keyAddr_add_le hlt
  have hbase : L.pmemaddr ≤ L.keyAddr m x := by
    rw [keyAddr, addr]
    omega
  have hmapped : a.Mapped (L.keyAddr m x + j) 1 := by
    have := h.fits
    rw [h.curIndex] at this
    rw [Mapped, h.pmemaddr, h.extent]
    omega
  have hlen : keyLen m x = node.payload.length := by simp [keyLen, hx]
  have hbuffer : a.memory.read (L.keyAddr m x) (keyLen m x) = node.payload :=
    h.contents (.buffer x) _ hlt (by simp only [expected, hx, Option.map_some])
  rw [loadByte, if_pos hmapped, ← hbuffer, junk, read_append, List.getD_eq_getElem?_getD,
    read_getElem?, if_pos (by omega), Option.getD_some]

theorem compareKeyAndNode_eq (h : Holds L a m prev) (hr : Readable L m keySize)
    (hx : m[x]? = some node) (key : Key) :
    a.compareKeyAndNode keySize key (L.addr m x) =
      .ok (strncmp key (node.payload ++ a.junk L m keySize x) keySize) := by
  rw [compareKeyAndNode, h.load_key (lt_length_of_getElem? hx), ok_bind]
  exact strncmpFrom_eq (j := 0) (fun _ _ => rfl) fun j hj => h.loadByte_eq hr hx (by omega)

theorem keyIsAfterNode_eq (h : Holds L a m prev) (hr : Readable L m keySize)
    (hx : m[x]? = some node) (key : Key) :
    a.keyIsAfterNode keySize key (L.addr m x) =
      .ok (decide (strncmp (node.payload ++ a.junk L m keySize x) key keySize < 0)) := by
  have hcompare : strncmpFrom (fun j => a.loadByte (L.keyAddr m x + j)) (cStr key) 0 keySize =
      .ok (strncmp (node.payload ++ a.junk L m keySize x) key keySize) :=
    strncmpFrom_eq (j := 0) (fun j hj => h.loadByte_eq hr hx (by omega)) fun _ _ => rfl
  rw [keyIsAfterNode, h.load_key (lt_length_of_getElem? hx), ok_bind, hcompare]
  rfl

/-- Behind a key that is long enough, nothing matters to a search. -/
theorem keyIsAfterNode_long (h : Holds L a m prev) (hr : Readable L m keySize) (hpos : 0 < x)
    (hx : m[x]? = some node) (key : Key) (junk : List UInt8) :
    a.keyIsAfterNode keySize key (L.addr m x) =
      .ok (decide (strncmp (node.payload ++ junk) key keySize < 0)) := by
  have hlen : keySize ≤ node.payload.length := by
    have := hr.nodes x hpos (lt_length_of_getElem? hx)
    simpa [keyLen, hx] using this
  rw [h.keyIsAfterNode_eq hr hx]
  refine congrArg Except.ok (decide_eq_decide.mpr ?_)
  rw [strncmp_neg_iff, strncmp_neg_iff, strnview_append hlen, strnview_append hlen]

theorem length_le (h : Holds L a m prev) : m.length ≤ a.curIndex := by
  have hsum : (m.map nodeSize).length ≤ (m.map nodeSize).sum :=
    List.length_le_sum_of_one_le _ fun k hk => by
      obtain ⟨node, -, rfl⟩ := List.mem_map.mp hk
      rw [nodeSize]
      omega
  rw [List.length_map] at hsum
  rw [h.curIndex, addr, List.take_of_length_le (by simp)]
  omega

theorem walk_target {α : Type} {nxt : α → Option (Option α)} {after : α → Option Bool} {fuel : ℕ}
    {x : α} {r : α × ℕ} (hw : walk nxt after fuel x = some r) :
    r.1 = x ∨ ∃ z, nxt z = some (some r.1) := by
  induction fuel generalizing x r with
  | zero => cases hw
  | succ fuel ih =>
    rw [walk] at hw
    split at hw
    · cases hw
    · cases hw
      exact Or.inl rfl
    next y hy =>
      split at hw
      · cases hw
      · cases hw
        exact Or.inl rfl
      · obtain ⟨s, hs, rfl⟩ := Option.map_eq_some_iff.mp hw
        rcases ih hs with he | hz
        · exact Or.inr ⟨x, by rw [hy, he]⟩
        · exact Or.inr hz

theorem walk_eq (h : Holds L a m prev) {after : ℕ → Option Bool} (after' : ℕ → Option Bool)
    (ha : ∀ y b, 0 < y → after y = some b → after' (L.addr m y) = some b) {r : ℕ × ℕ}
    (hw : walk (m.next i) after (m.length + 1) x = some r) :
    walk (a.links i) after' (a.curIndex + 1) (L.addr m x) = some (L.addr m r.1, r.2) :=
  walk_relocated (h.relocated i) (fun z y b hz hy => ha y b (h.targets i z y hz).1 hy)
    (by have := h.length_le; omega) hw

theorem searchLevels_eq (hr : Readable L m keySize) (key : Key) (junk : ℕ → List UInt8)
    {after : ℕ → Option Bool}
    (hafter : ∀ y, after y = m[y]?.map fun node =>
      decide (strncmp (node.payload ++ junk y) key keySize < 0)) :
    ∀ (i x : ℕ) (a : PersistentAllocator) (prev : List ℕ) (r : List ℕ × ℕ), Holds L a m prev →
      i ≤ prev.length → x < m.length → descend m.next after (m.length + 1) i x prev = some r →
      ∃ a', MappedSkipList.searchLevels (L.prevAddr m) keySize key i (L.addr m x) a =
        .ok (a', r.2) ∧ Holds L a' m r.1 := by
  intro i
  induction i with
  | zero =>
    intro x a prev r h _ _ hd
    cases hd
    exact ⟨a, rfl, h⟩
  | succ i ih =>
    intro x a prev r h hi hx hd
    obtain ⟨w, hw, hd⟩ := Option.bind_eq_some_iff.mp hd
    obtain ⟨s, hs, rfl⟩ := Option.map_eq_some_iff.mp hd
    have hw' := h.walk_eq (fun n => (a.keyIsAfterNode keySize key n).toOption) ?_ hw
    · have hlt : w.1 < m.length := by
        rcases walk_target hw with he | ⟨z, hz⟩
        · rwa [he]
        · exact (h.targets i z w.1 hz).2
      obtain ⟨y, hy⟩ : ∃ y, prev[i]? = some y := ⟨_, List.getElem?_eq_getElem hi⟩
      obtain ⟨a₁, ha₁, h₁⟩ := h.setFinger (prev.set i w.1) (h.fingers i y hy).1 hlt
        (List.getElem?_set_self hi) fun j hj => List.getElem?_set_ne (Ne.symm hj)
      obtain ⟨a₂, ha₂, h₂⟩ := ih w.1 a₁ _ s h₁ (by rw [List.length_set]; omega) hlt hs
      refine ⟨a₂, ?_, h₂⟩
      rw [MappedSkipList.searchLevels, hw', deref_some, ok_bind, ha₁, ok_bind, ha₂, ok_bind]
      rfl
    · intro y b hpos hy
      rw [hafter] at hy
      obtain ⟨node, hnode, rfl⟩ := Option.map_eq_some_iff.mp hy
      rw [h.keyIsAfterNode_long hr hpos hnode key (junk y)]
      rfl

theorem raiseLevels_eq (hm : 0 < m.length) :
    ∀ (n lo : ℕ) (a : PersistentAllocator) (prev : List ℕ), Holds L a m prev →
      lo + n ≤ prev.length →
      ∃ a', MappedSkipList.raiseLevels (L.addr m 0) (L.prevAddr m) lo n a = .ok a' ∧
        Holds L a' m (raiseFingers 0 lo n prev) := by
  intro n
  induction n with
  | zero => exact fun _ a _ h _ => ⟨a, rfl, h⟩
  | succ n ih =>
    intro lo a prev h hlen
    have hlo : lo < prev.length := by omega
    obtain ⟨hk, -⟩ := h.fingers lo _ (List.getElem?_eq_getElem hlo)
    obtain ⟨a₁, ha₁, h₁⟩ := h.setFinger (prev.set lo 0) hk hm
      (List.getElem?_set_self hlo) fun j hj => List.getElem?_set_ne (Ne.symm hj)
    obtain ⟨a₂, ha₂, h₂⟩ := ih (lo + 1) a₁ _ h₁ (by rw [List.length_set]; omega)
    exact ⟨a₂, by rw [MappedSkipList.raiseLevels, ha₁, ok_bind, ha₂], h₂⟩

/-- The linking loop: each round writes the slot of the new node, the slot of the finger and the
finger itself. -/
theorem linkLevels_eq {ω : Type} {onSet : ℕ → ℕ → Ptr → List ω} {onLink : ℕ → List ω}
    (hx : 0 < x) :
    ∀ (n i : ℕ) (a : PersistentAllocator) (m : Arena Key) (prev : List ℕ) (log : List ω)
      (r : Arena Key × List ℕ × List ω), Holds L a m prev → x < m.length →
      spliceFrom onSet onLink x n i m prev log = some r →
      ∃ a', MappedSkipList.linkLevels (L.prevAddr m) (L.addr m x) n i a = .ok a' ∧
        Holds L a' r.1 r.2.1 ∧ L.addr r.1 = L.addr m ∧ L.prevAddr r.1 = L.prevAddr m := by
  intro n
  induction n with
  | zero =>
    intro i a m prev log r h _ hr
    cases hr
    exact ⟨a, rfl, h, rfl, rfl⟩
  | succ n ih =>
    intro i a m prev log r h hxm hr
    simp only [spliceFrom, Option.bind_eq_bind, Option.bind_eq_some_iff] at hr
    obtain ⟨p, hp, succ, hsucc, m₁, hm₁, m₂, hm₂, hr⟩ := hr
    have hm : 0 < m.length := by omega
    have hlen₁ := Arena.setNext_length hm₁
    have hlen₂ := Arena.setNext_length hm₂
    have haddr₁ : L.addr m₁ = L.addr m := addr_setNext hm₁
    have haddr₂ : L.addr m₂ = L.addr m := (addr_setNext hm₂).trans haddr₁
    have hprev₁ : L.prevAddr m₁ = L.prevAddr m := prevAddr_setNext hm₁ hm
    have hprev₂ : L.prevAddr m₂ = L.prevAddr m :=
      (prevAddr_setNext hm₂ (by omega)).trans hprev₁
    obtain ⟨a₁, ha₁, h₁⟩ := h.setNext hm₁ fun y hy => h.targets i p y (hy ▸ hsucc)
    obtain ⟨a₂, ha₂, h₂⟩ := h₁.setNext hm₂ fun y hy => by
      cases hy
      exact ⟨hx, by omega⟩
    obtain ⟨a₃, ha₃, h₃⟩ := h₂.setFinger (prev.set i x) (h₂.fingers i p hp).1
      (y := x) (by omega) (List.getElem?_set_self (List.getElem?_eq_some_iff.mp hp).1)
      fun j hj => List.getElem?_set_ne (Ne.symm hj)
    obtain ⟨a₄, ha₄, h₄, haddr, hprev⟩ := ih (i + 1) a₃ m₂ _ _ r h₃ (by omega) hr
    have hload := h.load_finger hp
    have hload₁ := h₁.load_finger hp
    rw [haddr₁] at ha₂ hload₁
    rw [hprev₁] at hload₁
    rw [haddr₂, hprev₂] at ha₃ ha₄
    refine ⟨a₄, ?_, h₄, haddr.trans haddr₂, hprev.trans hprev₂⟩
    rw [MappedSkipList.linkLevels, hload, ok_bind, h.next_eq hsucc, ok_bind, ha₁, ok_bind, hload₁,
      ok_bind, show L.addr m x = L.ptr m₁ (some x) by rw [ptr, haddr₁], ha₂, ok_bind]
    rw [ptr, haddr₁, ha₃, ok_bind, ha₄]

end Holds

end PersistTree
