import PersistTree.Library.Arena
import PersistTree.Library.Relocation
import PersistTree.Pmem.MappedSkipList

/-!
# Where the pool keeps the nodes

The arena of the NVM skip list fixes where everything lies in its pool: the head comes first, then
the array `prev_`, then the other nodes in the order of their allocation, each followed by its key
buffer. The fields of the layout are the words and buffers that the list reads and writes; they
are disjoint, so a write to one of them leaves the others as they are.
-/
namespace PersistTree

open Library ByteMemory PersistentAllocator

def keyLen (m : Arena Key) (x : ℕ) : ℕ := (m[x]?.map fun n => n.payload.length).getD 0

def nodeSize (n : Node Key) : ℕ := 8 + 8 * n.slots.length + n.payload.length

/-- The mapping of the pool and the length of `prev_`. -/
structure PoolLayout where
  pmemaddr : ℕ
  extent : ℕ
  kMaxHeight : ℕ

namespace PoolLayout

/-- The address of node `x`; that of the next node to come when there is no node `x` yet. -/
def addr (L : PoolLayout) (m : Arena Key) (x : ℕ) : ℕ :=
  L.pmemaddr + ((m.map nodeSize).take x).sum + if x = 0 then 0 else 8 * L.kMaxHeight

def keyAddr (L : PoolLayout) (m : Arena Key) (x : ℕ) : ℕ := L.addr m x + 8 + 8 * m.height x

def prevAddr (L : PoolLayout) (m : Arena Key) : ℕ := L.pmemaddr + ((m.map nodeSize).take 1).sum

def ptr (L : PoolLayout) (m : Arena Key) : Ptr → ℕ
  | none => 0
  | some x => L.addr m x

/-- The words and buffers of the pool: the `key_` of a node, a link slot, a key buffer, an entry
of `prev_`. -/
inductive Field where
  | key (x : ℕ)
  | slot (x i : ℕ)
  | buffer (x : ℕ)
  | finger (i : ℕ)
  deriving DecidableEq, Repr

def start (L : PoolLayout) (m : Arena Key) : Field → ℕ
  | .key x => L.addr m x
  | .slot x i => PersistentAllocator.slot (L.addr m x) i
  | .buffer x => L.keyAddr m x
  | .finger i => L.prevAddr m + 8 * i

def width (m : Arena Key) : Field → ℕ
  | .buffer x => keyLen m x
  | .key _ | .slot _ _ | .finger _ => 8

/-- The fields that have been allocated. -/
def Inside (L : PoolLayout) (m : Arena Key) : Field → Prop
  | .key x | .buffer x => x < m.length
  | .slot x i => i < m.height x
  | .finger i => 0 < m.length ∧ i < L.kMaxHeight

variable {L : PoolLayout} {m m' : Arena Key} {x y i : ℕ} {f g : Field} {key : Key} {height : ℕ}

theorem nodeSize_eq (hx : x < m.length) : nodeSize m[x] = 8 + 8 * m.height x + keyLen m x := by
  simp [nodeSize, Arena.height, keyLen, hx]

theorem take_sum_succ (hx : x < m.length) :
    ((m.map nodeSize).take (x + 1)).sum =
      ((m.map nodeSize).take x).sum + (8 + 8 * m.height x + keyLen m x) := by
  rw [List.sum_take_succ _ _ (by simpa using hx), List.getElem_map, nodeSize_eq hx]

theorem prevAddr_eq (hm : 0 < m.length) :
    L.prevAddr m = L.addr m 0 + 8 + 8 * m.height 0 + keyLen m 0 := by
  rw [prevAddr, take_sum_succ hm, addr, if_pos rfl]
  simp only [List.take_zero, List.sum_nil]
  omega

theorem take_sum_le (h : x < y) (hx : x < m.length) :
    ((m.map nodeSize).take x).sum + (8 + 8 * m.height x + keyLen m x) ≤
      ((m.map nodeSize).take y).sum := by
  rw [← take_sum_succ hx]
  exact List.Sublist.sum_le_sum (List.take_sublist_take_left (by omega)) (by simp)

theorem addr_add_le (h : x < y) (hx : x < m.length) :
    L.addr m x + 8 + 8 * m.height x + keyLen m x ≤ L.addr m y := by
  have hsum := take_sum_le h hx
  rw [addr, addr, if_neg (by omega : y ≠ 0)]
  split_ifs <;> omega

theorem prevAddr_add_le (hx : 0 < x) (hm : 0 < m.length) :
    L.prevAddr m + 8 * L.kMaxHeight ≤ L.addr m x := by
  have hsum := take_sum_le hx hm
  have hone := take_sum_succ hm
  rw [prevAddr, addr, if_neg (by omega), hone]
  simp only [List.take_zero, List.sum_nil] at hsum ⊢
  omega

/-- The object a field belongs to, and the range of bytes of that object. -/
structure Within (L : PoolLayout) (m : Arena Key) (f : Field) (lo hi : ℕ) : Prop where
  lo_le : lo ≤ L.start m f
  le_hi : L.start m f + width m f ≤ hi

theorem within_node (hf : f = .key x ∨ f = .buffer x ∨
    ∃ i < m.height x, f = .slot x i) :
    Within L m f (L.addr m x) (L.addr m x + 8 + 8 * m.height x + keyLen m x) := by
  rcases hf with rfl | rfl | ⟨i, hi, rfl⟩
  · exact ⟨le_rfl, by simp only [start, width]; omega⟩
  · exact ⟨by simp only [start, keyAddr]; omega, by simp only [start, width, keyAddr]; omega⟩
  · exact ⟨by simp only [start, slot]; omega, by simp only [start, slot, width]; omega⟩

theorem within_prev (hi : i < L.kMaxHeight) :
    Within L m (.finger i) (L.prevAddr m) (L.prevAddr m + 8 * L.kMaxHeight) :=
  ⟨by simp only [start]; omega, by simp only [start, width]; omega⟩

theorem Inside.cases (hf : L.Inside m f) :
    (∃ x < m.length, f = .key x ∨ f = .buffer x ∨ ∃ i < m.height x, f = .slot x i) ∨
      ∃ i < L.kMaxHeight, f = .finger i := by
  cases f with
  | key x => exact Or.inl ⟨x, hf, Or.inl rfl⟩
  | buffer x => exact Or.inl ⟨x, hf, Or.inr (Or.inl rfl)⟩
  | slot x i =>
    exact Or.inl ⟨x, Arena.lt_length_of_height hf, Or.inr (Or.inr ⟨i, hf, rfl⟩)⟩
  | finger i => exact Or.inr ⟨i, hf.2, rfl⟩

theorem Inside.nonempty (hf : L.Inside m f) : 0 < m.length := by
  cases f with
  | key x => exact lt_of_le_of_lt (Nat.zero_le x) hf
  | buffer x => exact lt_of_le_of_lt (Nat.zero_le x) hf
  | slot x i => exact lt_of_le_of_lt (Nat.zero_le x) (Arena.lt_length_of_height hf)
  | finger i => exact hf.1

/-- Different fields have no byte in common. -/
theorem apart (hf : L.Inside m f) (hg : L.Inside m g) (hne : f ≠ g) :
    Apart (L.start m f) (width m f) (L.start m g) (width m g) := by
  have hm := hf.nonempty
  have hprev := prevAddr_eq (L := L) hm
  rcases hf.cases with ⟨x, hx, hfx⟩ | ⟨i, hi, rfl⟩
  · obtain ⟨hfl, hfh⟩ := within_node (L := L) hfx
    rcases hg.cases with ⟨y, hy, hgy⟩ | ⟨j, hj, rfl⟩
    · obtain ⟨hgl, hgh⟩ := within_node (L := L) hgy
      rcases lt_trichotomy x y with hxy | rfl | hxy
      · have := addr_add_le (L := L) hxy hx
        exact Or.inl (by omega)
      · -- two fields of one node
        rcases hfx with rfl | rfl | ⟨i, hi, rfl⟩ <;> rcases hgy with rfl | rfl | ⟨j, hj, rfl⟩ <;>
          simp only [start, width, keyAddr, slot, Apart, ne_eq, not_true, reduceCtorEq,
            not_false_eq_true, Field.slot.injEq, true_and] at hne ⊢ <;> omega
      · have := addr_add_le (L := L) hxy hy
        exact Or.inr (by omega)
    · obtain ⟨hgl, hgh⟩ := within_prev (m := m) hj
      rcases Nat.eq_zero_or_pos x with rfl | hpos
      · exact Or.inl (by omega)
      · have := prevAddr_add_le (L := L) hpos hm
        exact Or.inr (by omega)
  · obtain ⟨hfl, hfh⟩ := within_prev (m := m) hi
    rcases hg.cases with ⟨y, hy, hgy⟩ | ⟨j, hj, rfl⟩
    · obtain ⟨hgl, hgh⟩ := within_node (L := L) hgy
      rcases Nat.eq_zero_or_pos y with rfl | hpos
      · exact Or.inr (by omega)
      · have := prevAddr_add_le (L := L) hpos hm
        exact Or.inl (by omega)
    · simp only [start, width, Apart, ne_eq, Field.finger.injEq] at hne ⊢
      omega

theorem within_pool (hf : L.Inside m f) :
    Within L m f L.pmemaddr (L.addr m m.length) := by
  have hm := hf.nonempty
  have hbase : ∀ x, L.pmemaddr ≤ L.addr m x := fun x => by rw [addr]; omega
  have hprev := prevAddr_eq (L := L) hm
  rcases hf.cases with ⟨x, hx, hfx⟩ | ⟨i, hi, rfl⟩
  · obtain ⟨hl, hh⟩ := within_node (L := L) hfx
    have := addr_add_le (L := L) (y := m.length) hx hx
    exact ⟨le_trans (hbase x) hl, by omega⟩
  · obtain ⟨hl, hh⟩ := within_prev (m := m) hi
    have := prevAddr_add_le (L := L) hm hm
    have := hbase 0
    exact ⟨by omega, by omega⟩

section setNext

variable {p : Ptr}

theorem addr_setNext (h : m.setNext x i p = some m') : L.addr m' = L.addr m := by
  have hsizes : m'.map nodeSize = m.map nodeSize := by
    obtain ⟨n, hn, -, rfl⟩ := Arena.setNext_some h
    obtain ⟨hx, rfl⟩ := List.getElem?_eq_some_iff.mp hn
    rw [List.map_set]
    apply List.ext_getElem? fun y => ?_
    by_cases hy : y = x
    · subst y
      simp [hx, nodeSize]
    · rw [List.getElem?_set_ne (Ne.symm hy)]
  funext y
  rw [addr, addr, hsizes]

theorem keyLen_setNext (h : m.setNext x i p = some m') : keyLen m' = keyLen m := by
  funext y
  have hp := congrArg (Option.map List.length) (Arena.setNext_payload h y)
  rw [Option.map_map, Option.map_map] at hp
  exact congrArg (Option.getD · 0) hp

theorem prevAddr_setNext (h : m.setNext x i p = some m') (hm : 0 < m.length) :
    L.prevAddr m' = L.prevAddr m := by
  rw [prevAddr_eq hm, prevAddr_eq (by rwa [Arena.setNext_length h]), addr_setNext h,
    Arena.setNext_height h, keyLen_setNext h]

theorem start_setNext (h : m.setNext x i p = some m') (hm : 0 < m.length) :
    L.start m' = L.start m := by
  have hh : m'.height = m.height := funext (Arena.setNext_height h)
  funext f
  cases f <;> simp only [start, keyAddr, prevAddr_setNext h hm, addr_setNext h, hh]

theorem width_setNext (h : m.setNext x i p = some m') : width m' = width m := by
  funext f
  cases f <;> simp only [width, keyLen_setNext h]

theorem inside_setNext (h : m.setNext x i p = some m') : L.Inside m' f ↔ L.Inside m f := by
  cases f <;> simp only [Inside, Arena.setNext_length h, Arena.setNext_height h]

theorem ptr_setNext (h : m.setNext x i p = some m') : L.ptr m' = L.ptr m := by
  funext q
  cases q <;> simp only [ptr, addr_setNext h]

end setNext

section alloc

/-- Allocating a node moves no other node, and the new one begins where the pool ended. -/
theorem addr_alloc (hx : x ≤ m.length) : L.addr (m.alloc key height) x = L.addr m x := by
  have htake : ((m.alloc key height).map nodeSize).take x = (m.map nodeSize).take x := by
    rw [Arena.alloc, List.map_append, List.take_append_of_le_length (by simpa using hx)]
  rw [addr, addr, htake]

theorem keyLen_alloc (hx : x < m.length) : keyLen (m.alloc key height) x = keyLen m x := by
  rw [keyLen, keyLen, Arena.alloc_getElem? hx]

@[simp] theorem keyLen_alloc_self (m : Arena Key) (key : Key) (height : ℕ) :
    keyLen (m.alloc key height) m.length = key.length := by
  simp [keyLen, Arena.alloc]

theorem prevAddr_alloc (hm : 0 < m.length) :
    L.prevAddr (m.alloc key height) = L.prevAddr m := by
  rw [prevAddr_eq hm, prevAddr_eq (by simp), addr_alloc (by omega),
    Arena.alloc_height_of_lt hm, keyLen_alloc hm]

theorem start_alloc (hf : L.Inside m f) : L.start (m.alloc key height) f = L.start m f := by
  have hm := hf.nonempty
  cases f with
  | key x => exact addr_alloc (Nat.le_of_lt hf)
  | slot x i =>
    have hx := Arena.lt_length_of_height hf
    simp only [start, addr_alloc (Nat.le_of_lt hx)]
  | buffer x =>
    have hx : x < m.length := hf
    simp only [start, keyAddr, addr_alloc (Nat.le_of_lt hx), Arena.alloc_height_of_lt hx]
  | finger i => simp only [start, prevAddr_alloc hm]

theorem width_alloc (hf : L.Inside m f) : width (m.alloc key height) f = width m f := by
  cases f with
  | buffer x => exact keyLen_alloc hf
  | key _ | slot _ _ | finger _ => rfl

theorem addr_alloc_length (hm : 0 < m.length) :
    L.addr (m.alloc key height) (m.length + 1) =
      L.addr m m.length + (8 + 8 * height) + key.length := by
  have hsum := take_sum_succ (m := m.alloc key height) (x := m.length) (by simp)
  rw [Arena.alloc_height_self, keyLen_alloc_self] at hsum
  have hself : L.addr (m.alloc key height) m.length = L.addr m m.length := addr_alloc le_rfl
  rw [addr, if_neg (by omega)] at hself ⊢
  omega

end alloc

end PoolLayout

end PersistTree
