import PersistTree.SkipLists.MemorySkipList

/-!
# Equal keys in the DRAM skip list

`Insert` of a key that a node holds already is meant to give that node the new bytes and to leave
everything else alone. It never does: `is_same_node` makes it copy the key over the node of the
level-0 finger instead of over a key buffer, and where the finger is neither at the equal node nor
right before it nobody notices the equality and a second node is linked.
-/
namespace PersistTree.MemorySkipList

open Library

variable {s s' t : MemorySkipList} {env : Env} {key : Key} {height : ℕ} {same : Bool}

/-- What an overwriting `Insert` would leave of the list `s`: the same chains, nodes and heights,
and the new key in the node with its prefix. -/
structure Overwritten (s t : MemorySkipList) (key : Key) : Prop where
  chains : ∀ i L, Chain (s.nodes.next i) s.head L → Chain (t.nodes.next i) t.head L
  length : t.nodes.length = s.nodes.length
  heights : ∀ x : ℕ, t.nodes[x]?.map (fun n => n.payload.height) =
    s.nodes[x]?.map fun n => n.payload.height
  keys : ∀ x ≠ s.head, ∀ k, s.keyAt x = some k →
    t.keyAt x = if k.take s.keySize = key.take s.keySize then some key else some k

/-- The list between two calls of `Insert`, whatever the keys are: the finger is at the head only
before the first node is linked, which does not happen when the comparisons see nothing. -/
structure Begun (s : MemorySkipList) : Prop where
  head : s.head = 0
  nonempty : s.nodes ≠ []
  alone : s.prev[0]? = some s.head → s.nodes.length = 1
  blind : s.keySize = 0 → s.nodes.length = 1

theorem keyAt_lt {x : ℕ} {k : Key} (h : s.keyAt x = some k) : x < s.nodes.length := by
  obtain ⟨n, hn, -⟩ := Option.bind_eq_some_iff.mp h
  exact (List.getElem?_eq_some_iff.mp hn).1

theorem compareKeyAndNode_ok {n : ℕ} {res : ℤ} (h : s.compareKeyAndNode env key n = .ok res) :
    ∃ k, s.keyAt n = some k ∧ res = strncmp key (k ++ env.junk n) s.keySize := by
  unfold compareKeyAndNode at h
  obtain ⟨k, hk, h⟩ := bind_eq_ok.mp h
  exact ⟨k, deref_eq_ok.mp hk, (Except.ok.inj h).symm⟩

theorem position_ok {compare : ℕ → Except Fault ℤ} {next : ℕ → Option Ptr} {p : ℕ}
    {pos : Position} (h : position compare next p = .ok pos) :
    ∃ res, compare p = .ok res ∧ (res = 0 → pos = .onFinger) := by
  unfold position at h
  obtain ⟨res, hres, h⟩ := bind_eq_ok.mp h
  refine ⟨res, hres, ?_⟩
  rintro rfl
  rw [if_neg (lt_irrefl _), if_neg (lt_irrefl _)] at h
  exact (Except.ok.inj h).symm

theorem searchFrom_ok {x : ℕ} (h : s.searchFrom env key x = .ok s') :
    ∃ prev', s' = { s with prev := prev' } := by
  unfold searchFrom at h
  obtain ⟨r, -, h⟩ := bind_eq_ok.mp h
  exact ⟨r.1, (Except.ok.inj h).symm⟩

/-- The first half of `Insert` has read the key of the finger's node. It moves at most the fingers,
and not even these when it finds the same key. -/
theorem locate_ok (h : s.locate env key = .ok (s', same)) :
    ∃ p k, s.prev[0]? = some p ∧ s.keyAt p = some k ∧
      (∃ prev', s' = { s with prev := prev' }) ∧ (same = true → s' = s) ∧
      (s.keySize = 0 → same = true) := by
  unfold locate at h
  obtain ⟨p, hp, h⟩ := bind_eq_ok.mp h
  obtain ⟨pos, hpos, h⟩ := bind_eq_ok.mp h
  obtain ⟨res, hres, hzero⟩ := position_ok hpos
  obtain ⟨k, hk, rfl⟩ := compareKeyAndNode_ok hres
  refine ⟨p, k, deref_eq_ok.mp hp, hk, ?_⟩
  have hblind : s.keySize = 0 → pos = .onFinger := by
    intro h0
    apply hzero
    rw [h0]
    rfl
  cases pos with
  | atEnd | between =>
    cases h
    exact ⟨⟨s.prev, rfl⟩, fun _ => rfl, fun h0 => nomatch hblind h0⟩
  | onNext | onFinger =>
    cases h
    exact ⟨⟨s.prev, rfl⟩, fun _ => rfl, fun _ => rfl⟩
  | ahead =>
    obtain ⟨u, hu, h⟩ := bind_eq_ok.mp h
    cases h
    obtain ⟨x, -, hu⟩ := bind_eq_ok.mp hu
    exact ⟨searchFrom_ok hu, nofun, fun h0 => nomatch hblind h0⟩
  | behind =>
    obtain ⟨u, hu, h⟩ := bind_eq_ok.mp h
    cases h
    exact ⟨searchFrom_ok hu, nofun, fun h0 => nomatch hblind h0⟩

theorem overwrite_key {n n' : Node DramNode} (hne : key ≠ []) (h : overwrite n key = some n') :
    n'.payload.key = none := by
  unfold overwrite at h
  by_cases hlong : 24 + 8 * n.slots.length < key.length
  · rw [if_pos hlong] at h
    cases h
  · rw [if_neg hlong] at h
    cases h
    exact if_neg fun h0 => hne (List.length_eq_zero_iff.mp h0)

theorem locate_onFinger {p : ℕ} {k : Key} (hp : s.prev[0]? = some p) (hk : s.keyAt p = some k)
    (heq : strncmp key (k ++ env.junk p) s.keySize = 0) : s.locate env key = .ok (s, true) := by
  have hcompare : s.compareKeyAndNode env key p = .ok 0 := by
    rw [compareKeyAndNode, hk, deref_some, ok_bind, heq, pure_eq_ok]
  have hpos : position (s.compareKeyAndNode env key) (s.nodes.next 0) p = .ok .onFinger := by
    rw [position, hcompare, ok_bind, if_neg (lt_irrefl _), if_neg (lt_irrefl _), pure_eq_ok]
  rw [locate, hp, deref_some, ok_bind, hpos, ok_bind]
  rfl

theorem overwrite_slots {n n' : Node DramNode} (h : overwrite n key = some n') {i : ℕ} {p : Ptr}
    (hp : n'.slots[i]? = some (some p)) : n.slots[i]? = some (some p) := by
  unfold overwrite at h
  by_cases hlong : 24 + 8 * n.slots.length < key.length
  · rw [if_pos hlong] at h
    cases h
  · rw [if_neg hlong] at h
    cases h
    rw [List.getElem?_mapIdx] at hp
    obtain ⟨slot, hslot, hp⟩ := Option.map_eq_some_iff.mp hp
    split_ifs at hp
    rw [hslot, hp]

theorem overwrite_length {n n' : Node DramNode} (h : overwrite n key = some n') :
    n'.slots.length = n.slots.length := by
  unfold overwrite at h
  by_cases hlong : 24 + 8 * n.slots.length < key.length
  · rw [if_pos hlong] at h
    cases h
  · rw [if_neg hlong] at h
    cases h
    exact List.length_mapIdx

theorem overwrite_nil {n n' : Node DramNode} (h : overwrite n [] = some n') :
    n'.payload.key = n.payload.key ∧ n'.slots = n.slots := by
  unfold overwrite at h
  rw [if_neg (by simp)] at h
  obtain rfl := Option.some.inj h
  refine ⟨rfl, ?_⟩
  apply List.ext_getElem?
  intro i
  simp

theorem overwriteFinger_nodes {p : ℕ} (hp : s.prev[0]? = some p)
    (h : s.overwriteFinger key = .ok t) : ∃ n n', s.nodes[p]? = some n ∧
      overwrite n key = some n' ∧ t = { s with nodes := s.nodes.set p n' } := by
  unfold overwriteFinger at h
  rw [hp, deref_some, ok_bind] at h
  obtain ⟨n, hn, h⟩ := bind_eq_ok.mp h
  obtain ⟨n', hn', h⟩ := bind_eq_ok.mp h
  exact ⟨n, n', deref_eq_ok.mp hn, deref_eq_ok.mp hn', (Except.ok.inj h).symm⟩

/-- `memcpy` over the node of the finger takes away the pointer to its key, unless it copies
nothing. -/
theorem overwriteFinger_ok {p : ℕ} (hp : s.prev[0]? = some p)
    (h : s.overwriteFinger key = .ok t) :
    (∃ n, t = { s with nodes := s.nodes.set p n }) ∧ (key ≠ [] → t.keyAt p = none) ∧
      ∀ i x q, t.nodes.next i x = some q → s.nodes.next i x = some q := by
  obtain ⟨n, n', hn, hn', rfl⟩ := overwriteFinger_nodes hp h
  obtain ⟨hlt, hget⟩ := List.getElem?_eq_some_iff.mp hn
  refine ⟨⟨n', rfl⟩, ?_, ?_⟩
  · intro hne
    unfold keyAt
    rw [List.getElem?_set_self hlt]
    exact overwrite_key hne hn'
  · intro i x q hq
    by_cases hx : x = p
    · subst x
      simp only [Arena.next, List.getElem?_set_self hlt, Option.bind_some,
        Option.join_eq_some_iff] at hq
      simp only [Arena.next, hn, Option.bind_some, Option.join_eq_some_iff]
      exact overwrite_slots hn' hq
    · simpa only [Arena.next, List.getElem?_set_ne (Ne.symm hx)] using hq

theorem linkNode_ok (hpos : 1 ≤ height) (h : s.linkNode key height = .ok t) :
    t.nodes.length = s.nodes.length + 1 ∧ t.prev[0]? = some s.nodes.length ∧
      t.head = s.head ∧ t.keySize = s.keySize := by
  unfold linkNode at h
  obtain ⟨⟨m, prev, log⟩, hr, h⟩ := bind_eq_ok.mp h
  cases h
  obtain ⟨hm, -, hlinked⟩ := spliceFrom_some (deref_eq_ok.mp hr)
  exact ⟨hm.length.trans (Arena.alloc_length _ _ _), hlinked 0 le_rfl (by omega), rfl, rfl⟩

/-- The two outcomes of `Insert`: the node of the finger is overwritten, or a node is added. -/
theorem insert_ok {c : Call} (hpos : 1 ≤ c.height) (h : s.insert c = .ok t) :
    t.head = s.head ∧ t.keySize = s.keySize ∧
      ((∃ p k n, s.prev[0]? = some p ∧ s.keyAt p = some k ∧
          t = { s with nodes := s.nodes.set p n } ∧ (c.key ≠ [] → t.keyAt p = none)) ∨
        (s.keySize ≠ 0 ∧ t.nodes.length = s.nodes.length + 1 ∧
          t.prev[0]? = some s.nodes.length)) := by
  unfold insert at h
  obtain ⟨⟨s', same⟩, hloc, hrest⟩ := bind_eq_ok.mp h
  obtain ⟨p, k, hp, hk, ⟨prev', hs'⟩, hsame, hblind⟩ := locate_ok hloc
  cases same with
  | true =>
    obtain rfl := hsame rfl
    obtain ⟨⟨n, rfl⟩, hnone, -⟩ := overwriteFinger_ok hp hrest
    exact ⟨rfl, rfl, Or.inl ⟨p, k, n, hp, hk, rfl, hnone⟩⟩
  | false =>
    subst hs'
    obtain ⟨hlen, hprev, hhead, hsize⟩ := linkNode_ok hpos hrest
    exact ⟨hhead, hsize, Or.inr ⟨fun h0 => Bool.false_ne_true (hblind h0), hlen, hprev⟩⟩

/-- The finger is at a node that has lost its key. -/
def Blocked (s : MemorySkipList) : Prop :=
  ∃ p, s.prev[0]? = some p ∧ s.keyAt p = none

theorem Blocked.locate (h : Blocked s) : s.locate env key ≠ .ok (t, same) := by
  intro he
  obtain ⟨p, hp, hnone⟩ := h
  obtain ⟨q, k, hq, hk, -⟩ := locate_ok he
  obtain rfl : p = q := Option.some.inj (hp.symm.trans hq)
  rw [hnone] at hk
  cases hk

theorem Blocked.insert (h : Blocked s) (c : Call) : s.insert c ≠ .ok t := by
  intro he
  obtain ⟨⟨u, same⟩, hu, -⟩ := bind_eq_ok.mp he
  exact h.locate hu

theorem Begun.insert {c : Call} (hb : Begun s) (hpos : 1 ≤ c.height) (h : s.insert c = .ok t) :
    Begun t ∧ t.keySize = s.keySize := by
  obtain ⟨hhead, hsize, hcase⟩ := insert_ok hpos h
  refine ⟨?_, hsize⟩
  have hlen : 0 < s.nodes.length := List.length_pos_iff.mpr hb.nonempty
  rcases hcase with ⟨p, k, n, -, -, rfl, -⟩ | ⟨hne, hlen', hprev⟩
  · have hset : (s.nodes.set p n).length = s.nodes.length := List.length_set
    constructor
    · exact hb.head
    · exact List.ne_nil_of_length_pos (hset ▸ hlen)
    · intro hp
      exact hset.trans (hb.alone hp)
    · intro h0
      exact hset.trans (hb.blind h0)
  · constructor
    · exact hhead.trans hb.head
    · exact List.ne_nil_of_length_pos (by omega)
    · intro hp
      rw [hprev, hhead, hb.head] at hp
      have := Option.some.inj hp
      omega
    · intro h0
      exact absurd (hsize.symm.trans h0) hne

theorem Begun.insertAll {calls : List Call} (hb : Begun s) (hpos : ∀ c ∈ calls, 1 ≤ c.height)
    (h : s.insertAll calls = .ok t) : Begun t ∧ t.keySize = s.keySize := by
  induction calls generalizing s with
  | nil =>
    cases h
    exact ⟨hb, rfl⟩
  | cons c calls ih =>
    obtain ⟨u, hu, h⟩ := bind_eq_ok.mp h
    obtain ⟨hbu, hsize⟩ := hb.insert (hpos c (by simp)) hu
    obtain ⟨hbt, hsize'⟩ := ih hbu (fun c' hc' => hpos c' (List.mem_cons_of_mem _ hc')) h
    exact ⟨hbt, hsize'.trans hsize⟩

theorem insertAll_length_le {calls : List Call} (hpos : ∀ c ∈ calls, 1 ≤ c.height)
    (h : s.insertAll calls = .ok t) : t.nodes.length ≤ s.nodes.length + calls.length := by
  induction calls generalizing s with
  | nil =>
    cases h
    exact le_rfl
  | cons c calls ih =>
    obtain ⟨u, hu, h⟩ := bind_eq_ok.mp h
    have hrest := ih (fun c' hc' => hpos c' (List.mem_cons_of_mem _ hc')) h
    have hu' : u.nodes.length ≤ s.nodes.length + 1 := by
      obtain ⟨-, -, ⟨p, k, n, -, -, rfl, -⟩ | ⟨-, hlen, -⟩⟩ := insert_ok (hpos c (by simp)) hu
      · exact List.length_set.le.trans (Nat.le_succ _)
      · exact hlen.le
    rw [List.length_cons]
    omega

theorem new_begun (maxHeight keySize : ℕ) : Begun (new maxHeight keySize) :=
  ⟨rfl, List.cons_ne_nil _ _, fun _ => rfl, fun _ => rfl⟩

/-- Whatever was inserted before, `Insert` of a key that some node already holds never overwrites
that node's key. -/
theorem insert_never_overwrites (maxHeight keySize : ℕ) (calls : List Call)
    (hheights : ∀ c ∈ calls, 1 ≤ c.height) (s : MemorySkipList)
    (hs : (new maxHeight keySize).insertAll calls = .ok s) (c : Call) (hheight : 1 ≤ c.height)
    (hstored : ∃ y k, y ≠ s.head ∧ s.keyAt y = some k ∧ keySize ≤ k.length ∧
      c.key.length = k.length ∧ c.key.take keySize = k.take keySize) :
    ¬∃ t, s.insert c = .ok t ∧ Overwritten s t c.key := by
  rintro ⟨t, ht, ho⟩
  obtain ⟨hb, hsize⟩ := (new_begun maxHeight keySize).insertAll hheights hs
  obtain ⟨y, k, hy, hk, hlong, hlen, -⟩ := hstored
  have hmany : s.nodes.length ≠ 1 := by
    have := keyAt_lt hk
    rw [hb.head] at hy
    omega
  have hne : c.key ≠ [] := by
    intro hnil
    rw [hnil, List.length_nil] at hlen
    have hzero : keySize = 0 := by omega
    exact hmany (hb.blind (hsize.trans hzero))
  obtain ⟨-, -, hcase⟩ := insert_ok hheight ht
  rcases hcase with ⟨p, kp, n, hp, hkp, -, hnone⟩ | ⟨-, hadded, -⟩
  · have hphead : p ≠ s.head := by
      rintro rfl
      exact hmany (hb.alone hp)
    have hkeys := ho.keys p hphead kp hkp
    rw [hnone hne] at hkeys
    split_ifs at hkeys
  · have := ho.length
    omega

/-- Three keys that leave the finger at the second of three nodes. -/
def threeKeys : List Call :=
  [⟨⟨1, fun _ => []⟩, [97, 1]⟩, ⟨⟨1, fun _ => []⟩, [99, 1]⟩, ⟨⟨1, fun _ => []⟩, [98, 1]⟩]

/-- The key of the node right behind the finger. -/
theorem insert_never_overwrites_next :
    ∃ s, (new 1 1).insertAll threeKeys = .ok s ∧
      ¬∃ t, s.insert ⟨⟨1, fun _ => []⟩, [99, 2]⟩ = .ok t ∧ Overwritten s t [99, 2] := by
  have hrun : ((new 1 1).insertAll threeKeys).map (fun s => (s.head, s.keyAt 2)) =
      .ok (0, some [99, 1]) := rfl
  obtain ⟨s, hs, he⟩ := map_eq_ok.mp hrun
  simp only [Prod.mk.injEq] at he
  refine ⟨s, hs, ?_⟩
  apply insert_never_overwrites 1 1 threeKeys _ s hs ⟨⟨1, fun _ => []⟩, [99, 2]⟩ le_rfl
  · exact ⟨2, [99, 1], by rw [he.1]; decide, he.2, by decide, rfl, rfl⟩
  · simp [threeKeys]

/-- With the finger at the equal node, the key is copied over the pointer to the old one. -/
theorem insert_overwrites_fails :
    ∃ s, (new 1 1).insertAll [⟨⟨1, fun _ => []⟩, [97, 1]⟩] = .ok s ∧
      s.keyAt 1 = some [97, 1] ∧
      ¬∃ t, s.insert ⟨⟨1, fun _ => []⟩, [97, 2]⟩ = .ok t ∧ Overwritten s t [97, 2] := by
  refine ⟨_, rfl, rfl, ?_⟩
  rintro ⟨t, ht, ho⟩
  cases ht
  have hkey := ho.keys 1 (by decide) [97, 1] rfl
  cases hkey

end PersistTree.MemorySkipList
