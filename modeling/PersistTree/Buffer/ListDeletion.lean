import PersistTree.SkipLists.SlotAccess

/-!
# The deletion of a DRAM list

The destructor of `Memory_SkipList` walks level 0 and deletes one node after the other, each behind
the read of its link, and the head last. The array of the fingers is never given back. What becomes
of a node that `Insert` has copied a key over depends on the bytes that stand in its `key_` then.
-/
namespace PersistTree

open Library

/-- The blocks that a list allocates: its nodes, their key buffers, and `prev_`. -/
inductive Block where
  | node (x : ℕ)
  | key (x : ℕ)
  | prev
  deriving DecidableEq, Repr

def nodeBlocks (x : ℕ) : List Block := [.key x, .node x]

/-- Give back a block that has not been given back before. -/
def release (b : Block) (freed : List Block) : Except Fault (List Block) :=
  if b ∈ freed then .error .useAfterFree else .ok (freed ++ [b])

namespace MemorySkipList

def blocks (s : MemorySkipList) : List Block :=
  .prev :: (List.range s.nodes.length).flatMap nodeBlocks

/-- `x->Next(0)`, with the blocks given back so far. -/
def liveNext (s : MemorySkipList) (freed : List Block) (x : ℕ) : Except Fault Ptr :=
  if Block.node x ∈ freed then .error .useAfterFree else deref (s.nodes.next 0 x)

/-- `delete` of a node: `~DramNode` gives back the buffer that `key_` points to. `stray` is what
`delete` makes of the bytes that stand in `key_` after `Insert` has copied a key over them. -/
def deleteNode (s : MemorySkipList) (stray : ℕ → List Block → Except Fault (List Block)) (x : ℕ)
    (freed : List Block) : Except Fault (List Block) := do
  let freed ← match s.keyAt x with
    | some _ => release (.key x) freed
    | none => stray x freed
  release (.node x) freed

/-- The loop of the destructor from node `start` on. -/
def destroyFrom (s : MemorySkipList) (stray : ℕ → List Block → Except Fault (List Block)) :
    ℕ → Ptr → List Block → Except Fault (List Block)
  | 0, _, _ => .error .badAccess
  | _ + 1, none, freed => .ok freed
  | fuel + 1, some start, freed => do
    let next ← s.liveNext freed start
    let freed ← s.deleteNode stray start freed
    destroyFrom s stray fuel next freed

/-- The destructor; the result is what it has given back, in order. -/
def destroy (s : MemorySkipList) (stray : ℕ → List Block → Except Fault (List Block)) :
    Except Fault (List Block) := do
  let start ← s.liveNext [] s.head
  let freed ← s.destroyFrom stray (s.nodes.length + 1) start []
  s.deleteNode stray s.head freed

variable {s t : MemorySkipList} {c : Call} {calls : List Call} {A B L : List ℕ} {x : ℕ}
  {freed : List Block} (stray : ℕ → List Block → Except Fault (List Block))

def Held (freed : List Block) (x : ℕ) : Prop := ∀ b ∈ nodeBlocks x, b ∉ freed

theorem Held.append_of_ne {y : ℕ} (h : Held freed y) (hne : y ≠ x) :
    Held (freed ++ nodeBlocks x) y := by
  intro b hb hmem
  rcases List.mem_append.mp hmem with hmem | hmem
  · exact h b hb hmem
  · simp only [nodeBlocks, List.mem_cons, List.not_mem_nil, or_false] at hb hmem
    rcases hb with rfl | rfl <;> rcases hmem with he | he <;> cases he
    · exact hne rfl
    · exact hne rfl

theorem Held.append_flatMap {l : List ℕ} (h : Held freed x) (hx : x ∉ l) :
    Held (freed ++ l.flatMap nodeBlocks) x := by
  induction l generalizing freed with
  | nil => simpa using h
  | cons y l ih =>
    obtain ⟨hne, hx⟩ := List.ne_and_not_mem_of_not_mem_cons hx
    rw [List.flatMap_cons, ← List.append_assoc]
    exact ih (h.append_of_ne hne) hx

theorem deleteNode_eq {k : Key} (hk : s.keyAt x = some k) (h : Held freed x) :
    s.deleteNode stray x freed = .ok (freed ++ nodeBlocks x) := by
  have hkey : Block.key x ∉ freed := h _ (by simp [nodeBlocks])
  have hnode : Block.node x ∉ freed ++ [Block.key x] := by
    have := h (.node x) (by simp [nodeBlocks])
    simpa using this
  simp only [deleteNode, hk]
  rw [release, if_neg hkey, ok_bind, release, if_neg hnode, List.append_assoc]
  rfl

theorem destroyFrom_eq (hc : Chain (s.nodes.next 0) x L)
    (hkeys : ∀ y ∈ L, s.keyAt y = some (s.keyOf y)) (hheld : ∀ y ∈ L, Held freed y) {fuel : ℕ}
    (hfuel : L.length < fuel) :
    s.destroyFrom stray fuel L.head? freed = .ok (freed ++ L.flatMap nodeBlocks) := by
  induction L generalizing x freed fuel with
  | nil =>
    obtain ⟨fuel, rfl⟩ : ∃ k, fuel = k + 1 := ⟨fuel - 1, by omega⟩
    simp [destroyFrom]
  | cons y l ih =>
    obtain ⟨fuel, rfl⟩ : ∃ k, fuel = k + 1 := ⟨fuel - 1, by omega⟩
    have hnode : Block.node y ∉ freed := hheld y (by simp) _ (by simp [nodeBlocks])
    have hlive : s.liveNext freed y = deref (s.nodes.next 0 y) := if_neg hnode
    have hne : ∀ z ∈ l, z ≠ y := fun z hz he => (List.nodup_cons.mp hc.nodup).1 (he ▸ hz)
    cases hc with
    | cons _ hc =>
      have hrest := ih hc (fun z hz => hkeys z (List.mem_cons_of_mem y hz))
        (fun z hz => (hheld z (List.mem_cons_of_mem y hz)).append_of_ne (hne z hz))
        (Nat.lt_of_succ_lt_succ hfuel)
      rw [List.head?_cons, destroyFrom, hlive, hc.next_eq, deref_some, ok_bind,
        deleteNode_eq stray (hkeys y (by simp)) (hheld y (by simp)), ok_bind, hrest,
        List.flatMap_cons, List.append_assoc]

/-- A list between two calls of `Insert`, with its nodes in level-0 order: either no node has been
damaged, or the one of the finger has lost its key. -/
structure Whole (s : MemorySkipList) (A B : List ℕ) : Prop where
  nodes : (s.head :: (A ++ B)).Perm (List.range s.nodes.length)
  state : Sound s A B ∨ s.Blocked ∧ ¬s.Intact

theorem Intact.not_lost (hi : s.Intact) {y : ℕ} (hy : y < s.nodes.length) : s.keyAt y ≠ none := by
  rw [hi y hy]
  exact nofun

theorem overwriteFinger_same {key : Key} (ht : s.overwriteFinger key = .ok t) :
    t.head = s.head ∧ t.nodes.length = s.nodes.length ∧ t.kMaxHeight = s.kMaxHeight := by
  obtain ⟨p, -, ht⟩ := bind_eq_ok.mp ht
  obtain ⟨n, -, ht⟩ := bind_eq_ok.mp ht
  obtain ⟨n', -, ht⟩ := bind_eq_ok.mp ht
  obtain rfl := Except.ok.inj ht
  exact ⟨rfl, List.length_set, rfl⟩

theorem Sound.whole_overwritten {key : Key} (hs : Sound s A B)
    (hnodes : (s.head :: (A ++ B)).Perm (List.range s.nodes.length))
    (ht : s.overwriteFinger key = .ok t) : Whole t A B := by
  obtain ⟨hhead, hlen, -⟩ := overwriteFinger_same ht
  refine ⟨by rwa [hhead, hlen], ?_⟩
  by_cases hne : key = []
  · rw [hne] at ht
    exact Or.inl (hs.overwrite_nil ht)
  · have hp := hs.located.finger_zero
    obtain ⟨⟨n, rfl⟩, hlost, -⟩ := overwriteFinger_ok hp ht
    refine Or.inr ⟨⟨_, hp, hlost hne⟩, fun hi => hi.not_lost ?_ (hlost hne)⟩
    rw [hlen]
    exact hs.located.allocated_behind _ List.mem_cons_self

theorem Whole.insert (h : Whole s A B) (hheight : 1 ≤ c.height ∧ c.height ≤ s.kMaxHeight)
    (ht : s.insert c = .ok t) : t.kMaxHeight = s.kMaxHeight ∧ ∃ A B, Whole t A B := by
  rcases h.state with hs | ⟨hblocked, -⟩
  · obtain ⟨prev', A', B', same, hloc, hprev, hl⟩ := hs.locate c.toEnv c.key
    rw [MemorySkipList.insert, hloc, ok_bind] at ht
    cases same with
    | true =>
      obtain rfl := hprev rfl
      exact ⟨(overwriteFinger_same ht).2.2, A, B, hs.whole_overwritten h.nodes ht⟩
    | false =>
      have hsame : A ++ B = A' ++ B' := hs.located.base.unique hl.base
      obtain ⟨u, hu, hlink, hl'⟩ :=
        linkNode_spec (s := { s with prev := prev' }) hl c.key hheight.1 hheight.2
      obtain rfl := Except.ok.inj (hu.symm.trans ht)
      refine ⟨hlink.kMaxHeight, A' ++ [s.nodes.length], B', ?_,
        Or.inl (Sound.link hs.intact hlink hl')⟩
      rw [hlink.head, hlink.length, List.range_succ]
      have hnew := (perm_insert s.nodes.length A' B').cons s.head
      rw [← hsame, ← List.cons_append] at hnew
      exact hnew.trans (h.nodes.append_right _)
  · exact absurd ht (hblocked.insert c)

theorem Whole.insertAll (h : Whole s A B)
    (hheights : ∀ c ∈ calls, 1 ≤ c.height ∧ c.height ≤ s.kMaxHeight)
    (ht : s.insertAll calls = .ok t) : ∃ A B, Whole t A B := by
  induction calls generalizing s A B with
  | nil =>
    obtain rfl := Except.ok.inj ht
    exact ⟨A, B, h⟩
  | cons c calls ih =>
    obtain ⟨u, hu, ht⟩ := bind_eq_ok.mp ht
    obtain ⟨hk, A', B', hw⟩ := h.insert (hheights c (by simp)) hu
    exact ih hw (fun d hd => by rw [hk]; exact hheights d (List.mem_cons_of_mem c hd)) ht

theorem new_whole {maxHeight : ℕ} (keySize : ℕ) (h : 0 < maxHeight % 2 ^ 16) :
    Whole (new maxHeight keySize) [] [] where
  nodes := List.Perm.refl _
  state := Or.inl ⟨(new_sorted keySize h).located, (new_sorted keySize h).intact⟩

/-- The destructor gives back the nodes in their order and the head last. -/
theorem Sound.destroy_eq (hs : Sound s A B) :
    s.destroy stray = .ok ((A ++ B).flatMap nodeBlocks ++ nodeBlocks s.head) := by
  have hkeys : ∀ y ∈ s.head :: (A ++ B), s.keyAt y = some (s.keyOf y) := fun y hy =>
    hs.intact y (hs.located.allocated y hy)
  have hempty : ∀ y, Held [] y := fun y b _ => List.not_mem_nil
  have hloop := destroyFrom_eq stray hs.located.base
    (fun y hy => hkeys y (List.mem_cons_of_mem _ hy)) (fun y _ => hempty y) hs.located.length_lt
  have hheld := (hempty s.head).append_flatMap (List.nodup_cons.mp hs.located.nodup).1
  rw [List.nil_append] at hloop hheld
  rw [destroy, liveNext, if_neg List.not_mem_nil, hs.located.base.next_eq, deref_some, ok_bind,
    hloop, ok_bind, deleteNode_eq stray (hkeys _ List.mem_cons_self) hheld]

end MemorySkipList

end PersistTree
