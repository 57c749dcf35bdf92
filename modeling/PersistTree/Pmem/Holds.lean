import PersistTree.Pmem.Layout

/-!
# What the bytes of the pool hold

The pool holds an arena of nodes and a finger array when every field of their layout has the bytes
that the arena prescribes: an address in little-endian order in a word, the key in its buffer. A
slot that has not been written may hold anything. Every store of the list writes one field, and
afterwards the pool holds the arena with that field changed.
-/
namespace PersistTree

open Library ByteMemory PersistentAllocator PoolLayout

/-- The bytes a field must have, if any. -/
def PoolLayout.expected (L : PoolLayout) (m : Arena Key) (prev : List ℕ) :
    Field → Option (List UInt8)
  | .key x => some (littleEndian 8 (L.keyAddr m x))
  | .slot x i => (m.next i x).map fun p => littleEndian 8 (L.ptr m p)
  | .buffer x => m[x]?.map Node.payload
  | .finger i => prev[i]?.map fun y => littleEndian 8 (L.addr m y)

/-- The allocator has handed out the layout of `m`, inside its mapping, and the bytes there are
those of the nodes and of the fingers. No link leads back to the head. -/
structure Holds (L : PoolLayout) (a : PersistentAllocator) (m : Arena Key) (prev : List ℕ) :
    Prop where
  pmemaddr : a.pmemaddr = L.pmemaddr
  extent : a.extent = L.extent
  pmemaddr_pos : 0 < L.pmemaddr
  top : L.pmemaddr + L.extent < 2 ^ 64
  curIndex : a.curIndex = L.addr m m.length
  fits : a.curIndex ≤ L.pmemaddr + L.extent
  targets : ∀ i x y, m.next i x = some (some y) → 0 < y ∧ y < m.length
  fingers : ∀ (i y : ℕ), prev[i]? = some y → i < L.kMaxHeight ∧ y < m.length
  contents : ∀ f bytes, L.Inside m f → L.expected m prev f = some bytes →
    a.memory.read (L.start m f) (width m f) = bytes

namespace Holds

variable {L : PoolLayout} {a : PersistentAllocator} {m m' : Arena Key} {prev prev' : List ℕ}
  {x y i n : ℕ} {p : Ptr} {f : Field} {bytes : List UInt8} {key : Key} {height keySize : ℕ}

theorem mapped (h : Holds L a m prev) (hf : L.Inside m f) :
    a.Mapped (L.start m f) (width m f) := by
  obtain ⟨hlo, hhi⟩ := within_pool hf
  have := h.fits
  rw [h.curIndex] at this
  rw [Mapped, h.pmemaddr, h.extent]
  omega

theorem load_eq (h : Holds L a m prev) (hf : L.Inside m f) (hwidth : width m f = 8) {w : ℕ}
    (he : L.expected m prev f = some (littleEndian 8 w)) (hw : w < 2 ^ 64) :
    a.load (L.start m f) = .ok w := by
  have hread := h.contents f _ hf he
  have hmapped := h.mapped hf
  rw [hwidth] at hread hmapped
  rw [PersistentAllocator.load_eq hmapped, load_of_read hread hw]

theorem addr_pos (h : Holds L a m prev) (x : ℕ) : 0 < L.addr m x := by
  have := h.pmemaddr_pos
  rw [addr]
  omega

theorem keyAddr_lt (h : Holds L a m prev) (hx : x < m.length) : L.keyAddr m x < 2 ^ 64 := by
  obtain ⟨-, hhi⟩ := h.mapped (f := .buffer x) hx
  have := h.top
  rw [h.pmemaddr, h.extent] at hhi
  simp only [start] at hhi
  omega

theorem addr_lt (h : Holds L a m prev) (hx : x < m.length) : L.addr m x < 2 ^ 64 := by
  have := h.keyAddr_lt hx
  rw [keyAddr] at this
  omega

theorem load_key (h : Holds L a m prev) (hx : x < m.length) :
    a.load (L.addr m x) = .ok (L.keyAddr m x) :=
  h.load_eq (f := .key x) hx rfl rfl (h.keyAddr_lt hx)

theorem lt_height_of_next (hn : m.next i x = some p) : i < m.height x := by
  obtain ⟨node, hnode, hslot⟩ := Option.bind_eq_some_iff.mp hn
  have hi := (List.getElem?_eq_some_iff.mp (Option.join_eq_some_iff.mp hslot)).1
  rwa [Arena.height, hnode, Option.map_some, Option.getD_some]

theorem ptr_lt (h : Holds L a m prev) (hp : ∀ y, p = some y → y < m.length) :
    L.ptr m p < 2 ^ 64 := by
  cases p with
  | none => exact Nat.two_pow_pos 64
  | some y => exact h.addr_lt (hp y rfl)

theorem next_eq (h : Holds L a m prev) (hn : m.next i x = some p) :
    a.next (L.addr m x) i = .ok (L.ptr m p) := by
  refine h.load_eq (f := .slot x i) (lt_height_of_next hn) rfl ?_ (h.ptr_lt ?_)
  · simp only [expected, hn, Option.map_some]
  · rintro y rfl
    exact (h.targets i x y hn).2

theorem relocated (h : Holds L a m prev) (i : ℕ) :
    Relocated (L.addr m) (m.next i) (a.links i) := by
  intro x p hn
  rw [links, h.next_eq hn]
  cases p with
  | none => rfl
  | some y =>
    have hy : L.addr m y ≠ 0 := Nat.pos_iff_ne_zero.mp (h.addr_pos y)
    simp [Except.toOption, ptr, hy]

theorem load_finger (h : Holds L a m prev) (hi : prev[i]? = some y) :
    a.load (L.prevAddr m + 8 * i) = .ok (L.addr m y) := by
  obtain ⟨hk, hy⟩ := h.fingers i y hi
  refine h.load_eq (f := .finger i) ⟨lt_of_le_of_lt (Nat.zero_le y) hy, hk⟩ rfl ?_ (h.addr_lt hy)
  simp only [expected, hi, Option.map_some]

/-- Writing one field: the pool holds whatever differs from what it held in that field only. -/
theorem write (h : Holds L a m prev) (hf : L.Inside m f) (hlen : bytes.length = width m f)
    (hlength : m'.length = m.length) (haddr : L.addr m' = L.addr m)
    (hstart : L.start m' = L.start m) (hwidth : width m' = width m)
    (hinside : ∀ g, L.Inside m' g → L.Inside m g)
    (htargets : ∀ i x y, m'.next i x = some (some y) → 0 < y ∧ y < m'.length)
    (hfingers : ∀ (i y : ℕ), prev'[i]? = some y → i < L.kMaxHeight ∧ y < m'.length)
    (hself : L.expected m' prev' f = some bytes)
    (hother : ∀ g, g ≠ f → L.expected m' prev' g = L.expected m prev g) :
    Holds L { a with memory := a.memory.write (L.start m f) bytes } m' prev' where
  pmemaddr := h.pmemaddr
  extent := h.extent
  pmemaddr_pos := h.pmemaddr_pos
  top := h.top
  curIndex := by
    rw [haddr, hlength]
    exact h.curIndex
  fits := h.fits
  targets := htargets
  fingers := hfingers
  contents := by
    intro g content hg hc
    rw [hstart, hwidth]
    by_cases hgf : g = f
    · subst g
      obtain rfl := Option.some.inj (hself.symm.trans hc)
      rw [← hlen]
      exact read_write_self _ _ _
    · rw [hother g hgf] at hc
      have hapart := apart hf (hinside g hg) (Ne.symm hgf)
      rw [← hlen] at hapart
      change ByteMemory.read (ByteMemory.write _ _ _) _ _ = _
      rw [read_write_of_apart hapart]
      exact h.contents g content (hinside g hg) hc

theorem setNext (h : Holds L a m prev) (hs : m.setNext x i p = some m')
    (hp : ∀ y, p = some y → 0 < y ∧ y < m.length) :
    ∃ a', a.setNext (L.addr m x) i (L.ptr m p) = .ok a' ∧ Holds L a' m' prev := by
  have hi : i < m.height x := by
    obtain ⟨node, hnode, hi, -⟩ := Arena.setNext_some hs
    rwa [Arena.height, hnode, Option.map_some, Option.getD_some]
  have hm : 0 < m.length := lt_of_le_of_lt (Nat.zero_le x) (Arena.lt_length_of_height hi)
  have hmapped : a.Mapped (slot (L.addr m x) i) 8 := h.mapped (f := .slot x i) hi
  have hh : m'.height = m.height := funext (Arena.setNext_height hs)
  refine ⟨_, store_eq hmapped _, ?_⟩
  refine h.write (f := .slot x i) hi (littleEndian_length 8 _) (Arena.setNext_length hs)
    (addr_setNext hs) (start_setNext hs hm) (width_setNext hs) (fun g => (inside_setNext hs).mp)
    ?_ ?_ ?_ ?_
  · intro j y z hz
    rw [Arena.next_setNext hs] at hz
    rw [Arena.setNext_length hs]
    split_ifs at hz
    · exact hp z (Option.some.inj hz)
    · exact h.targets j y z hz
  · rw [Arena.setNext_length hs]
    exact h.fingers
  · simp only [expected, Arena.next_setNext hs, and_self, if_true, Option.map_some, ptr_setNext hs]
  · intro g hg
    cases g with
    | key y => simp only [expected, keyAddr, addr_setNext hs, hh]
    | slot y j =>
      have hne : ¬(y = x ∧ j = i) := by
        rintro ⟨rfl, rfl⟩
        exact hg rfl
      simp only [expected, Arena.next_setNext hs, if_neg hne, ptr_setNext hs]
    | buffer y => exact Arena.setNext_payload hs y
    | finger j => simp only [expected, addr_setNext hs]

theorem setFinger (prev' : List ℕ) (h : Holds L a m prev) (hi : i < L.kMaxHeight)
    (hy : y < m.length) (hself : prev'[i]? = some y) (hother : ∀ j, j ≠ i → prev'[j]? = prev[j]?) :
    ∃ a', a.store (L.prevAddr m + 8 * i) (L.addr m y) = .ok a' ∧ Holds L a' m prev' := by
  have hm : 0 < m.length := lt_of_le_of_lt (Nat.zero_le y) hy
  have hmapped : a.Mapped (L.prevAddr m + 8 * i) 8 := h.mapped (f := .finger i) ⟨hm, hi⟩
  refine ⟨_, store_eq hmapped _, ?_⟩
  refine h.write (f := .finger i) ⟨hm, hi⟩ (littleEndian_length 8 _) rfl rfl rfl rfl
    (fun g hg => hg) h.targets ?_ ?_ ?_
  · intro j z hz
    by_cases hj : j = i
    · subst j
      rw [hself] at hz
      cases hz
      exact ⟨hi, hy⟩
    · rw [hother j hj] at hz
      exact h.fingers j z hz
  · simp only [expected, hself, Option.map_some]
  · intro g hg
    cases g with
    | finger j =>
      have hj : j ≠ i := fun hj => hg (by rw [hj])
      simp only [expected, hother j hj]
    | key _ | slot _ _ | buffer _ => rfl

end Holds

/-- The memory after `NewNode`, when the node and its key fit. -/
def PersistentAllocator.withNode (a : PersistentAllocator) (key : Key) (height : ℕ) :
    PersistentAllocator :=
  { a with
    curIndex := a.curIndex + (8 + 8 * height) + key.length
    memory := (a.memory.write (a.curIndex + (8 + 8 * height)) key).store a.curIndex
      (a.curIndex + (8 + 8 * height)) }

theorem PersistentAllocator.newNode_eq {a : PersistentAllocator} {key : Key} {height : ℕ}
    (hlo : a.pmemaddr ≤ a.curIndex)
    (hfits : a.curIndex + (8 + 8 * height) + key.length ≤ a.pmemaddr + a.extent) :
    a.newNode key height = .ok (a.curIndex, a.withNode key height) := by
  have hkey : a.Mapped (a.curIndex + (8 + 8 * height)) key.length := ⟨by omega, hfits⟩
  have hword : a.Mapped a.curIndex 8 := ⟨hlo, by omega⟩
  simp only [newNode, allocate]
  rw [memcpy_eq, ok_bind, store_eq]
  · rfl
  · exact hword
  · exact hkey

namespace Holds

variable {L : PoolLayout} {a : PersistentAllocator} {m : Arena Key} {prev : List ℕ}
  {key : Key} {height : ℕ}

theorem read_withNode {b n : ℕ} (hb : b + n ≤ a.curIndex) :
    (a.withNode key height).memory.read b n = a.memory.read b n := by
  rw [withNode, read_store_of_apart (Or.inr hb), read_write_of_apart (Or.inr (by omega))]

theorem newNode (h : Holds L a m prev) (hm : 0 < m.length) (key : Key) {height : ℕ}
    (hfits : a.curIndex + (8 + 8 * height) + key.length ≤ L.pmemaddr + L.extent) :
    a.newNode key height = .ok (L.addr m m.length, a.withNode key height) ∧
      Holds L (a.withNode key height) (m.alloc key height) prev := by
  have hlo : a.pmemaddr ≤ a.curIndex := by
    rw [h.pmemaddr, h.curIndex, addr]
    omega
  have htop := h.top
  have hself : L.addr (m.alloc key height) m.length = a.curIndex := by
    rw [addr_alloc le_rfl, h.curIndex]
  have hkey : L.keyAddr (m.alloc key height) m.length = a.curIndex + (8 + 8 * height) := by
    rw [keyAddr, hself, Arena.alloc_height_self]
    omega
  have hfits' : a.curIndex + (8 + 8 * height) + key.length ≤ a.pmemaddr + a.extent := by
    rwa [h.pmemaddr, h.extent]
  refine ⟨by rw [newNode_eq hlo hfits', h.curIndex], ?_⟩
  exact {
    pmemaddr := h.pmemaddr
    extent := h.extent
    pmemaddr_pos := h.pmemaddr_pos
    top := h.top
    curIndex := by
      rw [Arena.alloc_length, addr_alloc_length hm, ← h.curIndex]
      rfl
    fits := hfits
    targets := fun i x y hn => by
      rw [Arena.next_alloc] at hn
      rw [Arena.alloc_length]
      have := h.targets i x y hn
      omega
    fingers := fun i y hi => by
      rw [Arena.alloc_length]
      have := h.fingers i y hi
      omega
    contents := by
      intro f bytes hf he
      by_cases hold : L.Inside m f
      · -- a field from before lies below the new node
        have hhi := (within_pool hold).le_hi
        rw [start_alloc hold, width_alloc hold, read_withNode (h.curIndex ▸ hhi)]
        apply h.contents f bytes hold
        rw [← he]
        cases f with
        | key x =>
          have hx : x < m.length := hold
          simp only [expected, keyAddr, addr_alloc hx.le, Arena.alloc_height_of_lt hx]
        | slot x i =>
          rw [expected, expected, Arena.next_alloc]
          apply Option.map_congr
          rintro (_ | y) hn
          · rfl
          · simp only [ptr, addr_alloc (h.targets i x y hn).2.le]
        | buffer x =>
          have hx : x < m.length := hold
          simp only [expected, Arena.alloc_getElem? hx]
        | finger i =>
          rw [expected, expected]
          apply Option.map_congr
          intro y hy
          rw [addr_alloc (h.fingers i y hy).2.le]
      · cases f with
        | key x =>
          obtain rfl : x = m.length := by
            simp only [Inside, Arena.alloc_length] at hf hold
            omega
          obtain rfl := Option.some.inj he
          rw [start, hself, hkey]
          exact read_store_self _ _ _
        | buffer x =>
          obtain rfl : x = m.length := by
            simp only [Inside, Arena.alloc_length] at hf hold
            omega
          rw [expected, Arena.alloc_payload_self] at he
          obtain rfl := Option.some.inj he
          rw [start, hkey, width, keyLen_alloc_self]
          exact (read_store_of_apart (Or.inl (by omega))).trans (read_write_self _ _ _)
        | slot x i =>
          obtain ⟨p, hn, -⟩ := Option.map_eq_some_iff.mp he
          rw [Arena.next_alloc] at hn
          exact absurd (lt_height_of_next hn) hold
        | finger i => exact absurd ⟨hm, hf.2⟩ hold }

end Holds

end PersistTree
