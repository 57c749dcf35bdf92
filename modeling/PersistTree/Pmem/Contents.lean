import PersistTree.Pmem.Run

/-!
# Reading the pool back

After a run that fits, the bytes of the pool alone give the sorted list back: the links of level 0
lead from the head through one node for every call, in the order of the keys they point to, and
the links of each higher level through those of them that were drawn tall enough.
-/
namespace PersistTree

open Library ByteMemory PoolLayout

namespace MappedSkipList

/-- The bytes of its key that a comparison reads through the `key_` of the node at `x`. -/
def keyWindow (p : MappedSkipList) (x : ℕ) : List UInt8 :=
  p.allocator.memory.read (p.allocator.memory.load x) p.keySize

variable {L : PoolLayout} {p : MappedSkipList} {s : PersistentSkipList} {x maxHeight keySize : ℕ}
  {optNum per1gNum : ℕ} {A B : List ℕ} {calls : List (Key × ℕ)} {inserts : List Call}

theorem keyWindow_eq (h : Refines L p s) (hx : x < s.nodes.length)
    (hlen : s.keySize ≤ (s.keyOf x).length) :
    p.keyWindow (L.addr s.nodes x) = (s.keyOf x).take s.keySize := by
  have hnode := List.getElem?_eq_getElem hx
  have hsize : s.keySize = p.keySize := by rw [h.members]; rfl
  have hload := h.stores.holds.load_key hx
  have hkey : p.allocator.memory.load (L.addr s.nodes x) = L.keyAddr s.nodes x := by
    unfold PersistentAllocator.load at hload
    split_ifs at hload
    exact Except.ok.inj hload
  have hbuffer := h.stores.holds.contents (.buffer x) s.nodes[x].payload hx
    (by simp only [expected, hnode, Option.map_some])
  have hwidth : width s.nodes (.buffer x) = s.nodes[x].payload.length := by
    simp [width, keyLen, hx]
  rw [PersistentSkipList.keyOf_eq hnode] at hlen ⊢
  rw [hwidth] at hbuffer
  rw [keyWindow, hkey, ← hsize, ← hbuffer, take_read _ _ hlen]
  rfl

theorem Refines.contents (h : Refines L p s) (hs : PersistentSkipList.Sorted s inserts A B) :
    ∃ xs, Chain (p.allocator.links 0) p.head xs ∧
      (xs.map p.keyWindow).Perm (inserts.map fun c => c.key.take s.keySize) ∧
      (xs.Pairwise fun x y => strncmp (p.keyWindow x) (p.keyWindow y) s.keySize ≤ 0) ∧
      ∀ i < s.kMaxHeight, ∃ ys, ys.Sublist xs ∧ Chain (p.allocator.links i) p.head ys ∧
        ys.length = inserts.countP fun c => decide (i < c.height) := by
  have hhead : p.head = L.addr s.nodes s.head := by
    rw [h.stores.head, h.members]
    rfl
  have hwindow : ∀ y ∈ A ++ B, p.keyWindow (L.addr s.nodes y) = (s.keyOf y).take s.keySize :=
    fun y hy => keyWindow_eq h (hs.located.allocated y (List.mem_cons_of_mem _ hy))
      (hs.filled.keyLength y hy)
  refine ⟨(A ++ B).map (L.addr s.nodes), ?_, ?_, ?_, ?_⟩
  · rw [hhead]
    exact hs.located.base.relocated (h.stores.holds.relocated 0)
  · have hkeys := hs.filled.keys_perm.map fun k : Key => k.take s.keySize
    rw [List.map_map, List.map_map] at hkeys
    rw [List.map_map]
    have hmap : (A ++ B).map (p.keyWindow ∘ L.addr s.nodes) =
        (A ++ B).map ((fun k : Key => k.take s.keySize) ∘ s.keyOf) :=
      List.map_congr_left hwindow
    rw [hmap]
    exact hkeys
  · rw [List.pairwise_map]
    have hsorted := hs.filled.pairwise_le
    refine hsorted.imp_of_mem fun {x y} hx hy hle => ?_
    rw [hwindow x hx, hwindow y hy, strncmp_nonpos_iff, strnview_take (hs.filled.keyLength x hx),
      strnview_take (hs.filled.keyLength y hy)]
    exact strncmp_nonpos_iff.mp hle
  · intro i hi
    refine ⟨(level s.nodes.height i (A ++ B)).map (L.addr s.nodes),
      (level_sublist i _).map _, ?_, ?_⟩
    · rw [hhead]
      exact (hs.located.chains i hi).relocated (h.stores.holds.relocated i)
    · rw [List.length_map]
      exact hs.filled.length_level i

/-- What the bytes of the pool say after a run. -/
theorem run_contents {pmemaddr size : ℕ}
    (h : Admissible pmemaddr size maxHeight keySize per1gNum calls) (memory : ByteMemory)
    (optNum : ℕ)
    (hrun : run (.new pmemaddr size memory) maxHeight keySize optNum per1gNum calls = .ok p) :
    ∃ xs, Chain (p.allocator.links 0) p.head xs ∧
      (xs.map p.keyWindow).Perm (calls.map fun c => c.1.take keySize) ∧
      (xs.Pairwise fun x y => strncmp (p.keyWindow x) (p.keyWindow y) keySize ≤ 0) ∧
      ∀ i < maxHeight % 2 ^ 16, ∃ ys, ys.Sublist xs ∧ Chain (p.allocator.links i) p.head ys ∧
        ys.length = calls.countP fun c => decide (i < c.2) := by
  have hfits : poolSize maxHeight calls ≤ wholePages size := by
    by_contra hlt
    rw [run_overrun h (Nat.lt_of_not_le hlt)] at hrun
    cases hrun
  obtain ⟨inserts, p', s, hmap, hp', hs, hr⟩ := run_ok h hfits memory optNum
  obtain rfl := Except.ok.inj (hrun.symm.trans hp')
  have hinserts : ∀ c ∈ inserts, keySize ≤ c.key.length ∧ 1 ≤ c.height ∧
      c.height ≤ maxHeight % 2 ^ 16 := by
    intro c hc
    obtain ⟨hpos, hle, hkey⟩ := h.calls (c.key, c.height) (hmap ▸ List.mem_map_of_mem hc)
    exact ⟨hkey, hpos, hle⟩
  rcases (PersistentSkipList.new_sorted keySize optNum per1gNum h.kMaxHeight_pos).insertAll
    hinserts with ⟨hz, -⟩ | ⟨s', A, B, hs', hcfg, hsorted⟩
  · exact absurd hz (Nat.pos_iff_ne_zero.mp h.window_pos)
  · obtain rfl := Except.ok.inj (hs.symm.trans hs')
    have hsize : s.keySize = keySize := hcfg.keySize
    have hk : s.kMaxHeight = maxHeight % 2 ^ 16 := hcfg.kMaxHeight
    have hcontents := hr.contents hsorted
    rw [hsize, hk] at hcontents
    rw [← hmap]
    simpa only [List.nil_append, List.map_map, List.countP_map, Function.comp_def] using hcontents

/-- The pool after two keys of two bytes, of which one is compared. -/
theorem run_contents_pair :
    ∃ p xs, run (.new 4096 85 fun _ => 0) 2 1 0 1 [([98, 1], 2), ([97, 2], 1)] = .ok p ∧
      Chain (p.allocator.links 0) p.head xs ∧ (xs.map p.keyWindow).Perm [[98], [97]] := by
  have h : Admissible 4096 85 2 1 1 [([98, 1], 2), ([97, 2], 1)] :=
    ⟨by decide, by decide, by decide, by decide, by decide, by decide⟩
  obtain ⟨-, p, -, -, hp, -⟩ := run_ok h (by decide) (fun _ => 0) 0
  obtain ⟨xs, hchain, hperm, -⟩ := run_contents h (fun _ => 0) 0 hp
  exact ⟨p, xs, hp, hchain, hperm⟩

end MappedSkipList

end PersistTree
