import PersistTree.Pmem.Run

/-!
# What the list takes up in its pool

The bytes that the constructor and the insertions so far have allocated can be read off the arena.
So it can be seen there whether the insertions return on the bytes of the pool.
-/
namespace PersistTree

open Library

namespace PersistentSkipList

/-- What the constructor and the insertions so far have allocated. -/
def allocated (s : PersistentSkipList) : ℕ := (s.nodes.map nodeSize).sum + 8 * s.kMaxHeight

variable {s t : PersistentSkipList} {key : Key} {height : ℕ} {A B : List ℕ} {calls : List Call}

theorem allocated_new (maxHeight keySize optNum per1gNum : ℕ) :
    (new maxHeight keySize optNum per1gNum).allocated = MappedSkipList.initialSize maxHeight := by
  have hle : maxHeight % 2 ^ 16 ≤ maxHeight := Nat.mod_le _ _
  simp only [allocated, new, List.map_cons, List.map_nil, List.sum_cons, List.sum_nil, nodeSize,
    List.length_append, List.length_replicate, List.length_cons, List.length_nil,
    MappedSkipList.initialSize]
  omega

theorem keyLen_eq (s : PersistentSkipList) (y : ℕ) : keyLen s.nodes y = (s.keyOf y).length := by
  unfold keyLen keyOf
  cases s.nodes[y]? with
  | none => rfl
  | some n => rfl

theorem Linked.allocated (h : Linked s t key height A B) :
    t.allocated = s.allocated + MappedSkipList.callSize (key, height) := by
  have hsizes : t.nodes.map nodeSize =
      s.nodes.map nodeSize ++ [MappedSkipList.callSize (key, height)] := by
    apply List.ext_getElem
    · rw [List.length_map, h.length, List.length_append, List.length_map]
      rfl
    · intro y hy _
      have hyt : y < t.nodes.length := by rwa [List.length_map] at hy
      rw [List.getElem_map, PoolLayout.nodeSize_eq hyt, h.heights y, keyLen_eq]
      rcases Nat.lt_succ_iff_lt_or_eq.mp (h.length ▸ hyt) with hys | rfl
      · have hys' : y < (s.nodes.map nodeSize).length := by rwa [List.length_map]
        rw [List.getElem_append_left hys', List.getElem_map, PoolLayout.nodeSize_eq hys,
          Arena.alloc_height_of_lt hys, h.keyOf_old y hys, keyLen_eq]
      · rw [h.keyOf_new, Arena.alloc_height_self]
        simp [MappedSkipList.callSize]
  rw [PersistentSkipList.allocated, PersistentSkipList.allocated, hsizes, List.sum_append,
    h.sameConfig.kMaxHeight, List.sum_singleton]
  omega

theorem Valid.allocated_insertAll (hv : Valid s A B)
    (hheights : ∀ c ∈ calls, 1 ≤ c.height ∧ c.height ≤ s.kMaxHeight)
    (h : s.insertAll calls = .ok t) : t.allocated =
      s.allocated + ((calls.map fun c => (c.key, c.height)).map MappedSkipList.callSize).sum := by
  induction calls generalizing s A B with
  | nil =>
    obtain rfl := Except.ok.inj h
    rfl
  | cons c calls ih =>
    obtain ⟨u, hu, h⟩ := bind_eq_ok.mp h
    obtain ⟨hpos, hle⟩ := hheights c (by simp)
    rcases insert_spec hv c hpos hle with ⟨-, he⟩ | ⟨u', A', B', he, -, hlink, hv', -⟩
    · rw [he] at hu
      cases hu
    · obtain rfl := Except.ok.inj (hu.symm.trans he)
      have hrest : ∀ d ∈ calls, 1 ≤ d.height ∧ d.height ≤ u.kMaxHeight := by
        rw [hlink.sameConfig.kMaxHeight]
        exact fun d hd => hheights d (List.mem_cons_of_mem c hd)
      rw [ih hv' hrest h, hlink.allocated, List.map_cons, List.map_cons, List.sum_cons,
        Nat.add_assoc]

end PersistentSkipList

namespace MappedSkipList

/-- On the bytes of its pool a run returns exactly if there is room for what the list takes up that
the same calls make of an arena. -/
theorem run_returns_iff {pmemaddr size maxHeight keySize per1gNum optNum : ℕ} {calls : List Call}
    {s : PersistentSkipList}
    (h : Admissible pmemaddr size maxHeight keySize per1gNum
      (calls.map fun c => (c.key, c.height)))
    (hs : (PersistentSkipList.new maxHeight keySize optNum per1gNum).insertAll calls = .ok s)
    (memory : ByteMemory) :
    (∃ p, run (.new pmemaddr size memory) maxHeight keySize optNum per1gNum
      (calls.map fun c => (c.key, c.height)) = .ok p) ↔ s.allocated ≤ wholePages size := by
  have hheights : ∀ c ∈ calls, 1 ≤ c.height ∧ c.height ≤ maxHeight % 2 ^ 16 := by
    intro c hc
    obtain ⟨hpos, hle, -⟩ := h.calls (c.key, c.height) (List.mem_map_of_mem hc)
    exact ⟨hpos, hle⟩
  have hsize := (PersistentSkipList.new_valid keySize optNum per1gNum
    h.kMaxHeight_pos).allocated_insertAll hheights hs
  rw [PersistentSkipList.allocated_new, ← poolSize] at hsize
  rw [hsize]
  rcases Nat.lt_or_ge (wholePages size) (poolSize maxHeight (calls.map fun c => (c.key, c.height)))
    with hlt | hfits
  · rw [run_overrun h hlt]
    refine iff_of_false ?_ (Nat.not_le.mpr hlt)
    rintro ⟨p, hp⟩
    cases hp
  · obtain ⟨-, p, -, -, hp, -⟩ := run_ok h hfits memory optNum
    exact iff_of_true ⟨p, hp⟩ hfits

end MappedSkipList

end PersistTree
