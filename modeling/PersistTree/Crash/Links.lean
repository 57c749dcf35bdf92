import PersistTree.SkipLists.PersistentInvariant

/-!
# The links after a crash

Every link is stored with `SetNext`, which persists the slot before it returns, so at any moment
at most one link store is outstanding and the links on the medium are those of the memory just
before or just after that store. Both are intermediate states of the linking loop, in which the
levels below the loop counter contain the new node and the others do not. Neither the keys nor
what lies behind them plays any role.
-/
namespace PersistTree.PersistentSkipList

open Library Library.PersistentMemory

/-- The link slots among the addresses of the pool: level and node. -/
abbrev linkAddr (k : ℕ × ℕ) : PmAddr := .next k.1 k.2

theorem linkAddr_injective : linkAddr.Injective := by
  rintro ⟨i, x⟩ ⟨j, y⟩ h
  simpa [linkAddr] using h

/-- The content of the link slots of a memory. -/
def linkWords (m : Arena Key) (k : ℕ × ℕ) : Option PmWord := (m.next k.1 k.2).map .link

/-- The link function that a recovery reads off an image of the pool. -/
def durableNext (img : PmAddr → Option PmWord) (i x : ℕ) : Option Ptr :=
  match img (.next i x) with
  | some (.link p) => some p
  | _ => none

/-- The links form a skip list over the base list `L`: every level is a finite chain, a subsequence
of the level-0 chain `L`, through nodes taller than the level. -/
structure SkipLinks (nxt : ℕ → ℕ → Option Ptr) (head kMaxHeight : ℕ) (height : ℕ → ℕ)
    (L : List ℕ) : Prop where
  base : Chain (nxt 0) head L
  levels : ∀ i < kMaxHeight, ∃ l, Chain (nxt i) head l ∧ l.Sublist L ∧ ∀ y ∈ l, i < height y

variable {m m' m₀ : Arena Key} {img : PmAddr → Option PmWord} {ops base : List PmOp} {x i : ℕ}
  {p : Ptr} {Q : (ℕ → ℕ → Option Ptr) → Prop}

theorem durableNext_eq (h : (fun k => img (linkAddr k)) = linkWords m) :
    durableNext img = m.next := by
  funext i x
  have hk : img (.next i x) = (m.next i x).map .link := congrFun h (i, x)
  rw [durableNext, hk]
  cases m.next i x <;> rfl

theorem linkWords_setNext (h : m.setNext x i p = some m') :
    linkWords m' = Function.update (linkWords m) (i, x) (some (.link p)) := by
  funext k
  obtain ⟨j, y⟩ := k
  rw [linkWords, Arena.next_setNext h]
  by_cases hk : y = x ∧ j = i
  · obtain ⟨rfl, rfl⟩ := hk
    simp
  · have hne : (j, y) ≠ (i, x) := fun he => hk ⟨congrArg Prod.snd he, congrArg Prod.fst he⟩
    rw [if_neg hk, Function.update_of_ne hne, linkWords]

/-- What holds of the links on the medium at every crash from `base` up to now, and what they are
when no store is outstanding. -/
structure LinksSafe (base ops : List PmOp) (m : Arena Key) (Q : (ℕ → ℕ → Option Ptr) → Prop) :
    Prop where
  settled : Settled linkAddr ops (linkWords m)
  safe : CrashSafe base ops fun img => Q (durableNext img)

namespace LinksSafe

theorem of_avoids (h : LinksSafe base ops m Q) (hm : Q m.next) {os : List PmOp}
    (ho : ∀ o ∈ os, ∀ k, o.Avoids (linkAddr k)) : LinksSafe base (ops ++ os) m Q := by
  induction os using List.reverseRecOn with
  | nil => simpa using h
  | append_singleton os o ih =>
    have hos := ih fun o' ho' => ho o' (by simp [ho'])
    have hsettled : Settled linkAddr (ops ++ os ++ [o]) (linkWords m) :=
      hos.settled.of_avoids fun o' ho' => ho o' (by simp [List.mem_singleton.mp ho'])
    rw [← List.append_assoc]
    refine ⟨hsettled, hos.safe.concat ?_⟩
    intro img hi
    simpa only [durableNext_eq (hsettled.image hi)] using hm

/-- One `SetNext`: a crash between the store and the end of the persist leaves the links of the
memory before or after it. -/
theorem setNext (h : LinksSafe base ops m Q) (hm : m.setNext x i p = some m')
    (hold : Q m.next) (hnew : Q m'.next) :
    LinksSafe base (ops ++ setNextOps x i p) m' Q := by
  have hw := linkWords_setNext hm
  have hsettled : Settled linkAddr (ops ++ [.store (linkAddr (i, x)) (.link p)] ++
      [.persist [linkAddr (i, x)]]) (linkWords m') := by
    rw [hw]
    exact h.settled.store_persist linkAddr_injective
  have hsafe : CrashSafe base (ops ++ [.store (linkAddr (i, x)) (.link p)] ++
      [.persist [linkAddr (i, x)]]) fun img => Q (durableNext img) := by
    refine (h.safe.concat fun img hi => ?_).concat fun img hi => ?_
    · rcases h.settled.image_store linkAddr_injective hi with he | he
      · rwa [durableNext_eq he]
      · rwa [durableNext_eq (he.trans hw.symm)]
    · simpa only [durableNext_eq (hsettled.image hi)] using hnew
  rw [List.append_assoc] at hsettled hsafe
  exact ⟨hsettled, hsafe⟩

end LinksSafe

theorem newNodeOps_avoids (x : ℕ) (key : Key) :
    ∀ o ∈ newNodeOps x key, ∀ k, o.Avoids (linkAddr k) := by
  intro o ho k
  simp only [newNodeOps, List.mem_append, List.mem_map, List.mem_cons, List.not_mem_nil,
    or_false] at ho
  rcases ho with ⟨b, -, rfl⟩ | rfl | rfl
  · simp [Op.Avoids]
  · simp [Op.Avoids]
  · simp [Op.Avoids]

theorem persistNodeOps_avoids (x : ℕ) : ∀ o ∈ persistNodeOps x, ∀ k, o.Avoids (linkAddr k) := by
  intro o ho k
  rw [List.mem_singleton.mp ho]
  simp [Op.Avoids]

variable {head N : ℕ} {A B : List ℕ}

/-- One round of the linking loop: the new node's slot, the finger's slot, and the first word of
the finger. -/
theorem LinksSafe.round {m₁ m₂ : Arena Key} {k p : ℕ} {succ : Ptr} (h : LinksSafe base ops m Q)
    (hr : Round m₀ m m₁ m₂ head x A B N k p succ)
    (hQ : ∀ nxt k, Splicing nxt m₀.height head x A B N k → Q nxt) :
    LinksSafe base (ops ++ (setNextOps x k succ ++ setNextOps p k (some x) ++ persistNodeOps p))
      m₂ Q := by
  have h₁ := h.setNext hr.own (hQ _ k hr.before) (hQ _ k hr.between)
  have h₂ := h₁.setNext hr.link (hQ _ k hr.between) (hQ _ (k + 1) hr.after)
  have h₃ := h₂.of_avoids (hQ _ (k + 1) hr.after) (persistNodeOps_avoids p)
  rwa [List.append_assoc, List.append_assoc, ← List.append_assoc (setNextOps x k succ)] at h₃

/-- A partial splice is a skip list over the old nodes, or over the old nodes and the new one. -/
theorem skipLinks_of_splicing {nxt : ℕ → ℕ → Option Ptr} {height : ℕ → ℕ} {k : ℕ} (hN : 0 < N)
    (hpos : ∀ y ∈ A ++ x :: B, 0 < height y) (hs : Splicing nxt height head x A B N k) :
    SkipLinks nxt head N height (A ++ B) ∨ SkipLinks nxt head N height (A ++ x :: B) := by
  have hsub : (A ++ B).Sublist (A ++ x :: B) := (List.sublist_cons_self x B).append_left A
  have hbase := hs.base hN hpos
  have htall : ∀ i (L : List ℕ), ∀ y ∈ level height i L, i < height y :=
    fun _ _ _ hy => (mem_level.mp hy).2
  by_cases hk : k = 0
  · rw [if_pos hk] at hbase
    refine Or.inl ⟨hbase, fun i hi => ⟨_, hs.unlinked i (by omega) hi, level_sublist i _, ?_⟩⟩
    exact htall i _
  · rw [if_neg hk] at hbase
    refine Or.inr ⟨hbase, ?_⟩
    intro i hi
    by_cases hik : i < k
    · exact ⟨_, hs.linked i hik, level_sublist i _, htall i _⟩
    · exact ⟨_, hs.unlinked i (by omega) hi, (level_sublist i _).trans hsub, htall i _⟩

variable {s s' : PersistentSkipList}

abbrev LinksSettled (s : PersistentSkipList) : Prop := Settled linkAddr s.ops (linkWords s.nodes)

theorem SkipLinks.congr {nxt : ℕ → ℕ → Option Ptr} {height height' : ℕ → ℕ} {L : List ℕ}
    (h : SkipLinks nxt head N height L) (hh : ∀ y ∈ L, height' y = height y) :
    SkipLinks nxt head N height' L where
  base := h.base
  levels i hi := by
    obtain ⟨l, hc, hsub, htall⟩ := h.levels i hi
    refine ⟨l, hc, hsub, ?_⟩
    intro y hy
    rw [hh y (hsub.subset hy)]
    exact htall y hy

theorem headSlots_settled (n : ℕ) :
    Settled linkAddr (newNodeOps 0 [32] ++ (List.range n).flatMap fun i => setNextOps 0 i none)
      fun k => if k.2 = 0 ∧ k.1 < n then some (.link none) else none := by
  induction n with
  | zero =>
    have hempty : Settled linkAddr ([] : List PmOp) fun _ => none := fun _ => rfl
    have h := hempty.of_avoids (newNodeOps_avoids 0 [32])
    simpa using h
  | succ n ih =>
    have h := ih.store_persist (k := (n, 0)) (v := .link none) linkAddr_injective
    have hval : (fun k : ℕ × ℕ => if k.2 = 0 ∧ k.1 < n + 1 then some (PmWord.link none) else none) =
        Function.update (fun k => if k.2 = 0 ∧ k.1 < n then some (.link none) else none) (n, 0)
          (some (.link none)) := by
      funext ⟨i, x⟩
      by_cases hk : (i, x) = (n, 0)
      · obtain ⟨rfl, rfl⟩ := Prod.mk.inj hk
        simp
      · rw [Function.update_of_ne hk]
        have hiff : (x = 0 ∧ i < n + 1) ↔ (x = 0 ∧ i < n) := by
          rw [Prod.mk.injEq] at hk
          omega
        simp only [hiff]
    rw [List.range_succ, List.flatMap_append, List.flatMap_singleton, ← List.append_assoc, hval]
    rw [List.append_assoc] at h
    exact h

theorem new_linksSettled (maxHeight keySize optNum per1gNum : ℕ) :
    LinksSettled (new maxHeight keySize optNum per1gNum) := by
  have h := headSlots_settled (maxHeight % 2 ^ 16)
  have hwords : linkWords (new maxHeight keySize optNum per1gNum).nodes =
      fun k => if k.2 = 0 ∧ k.1 < maxHeight % 2 ^ 16 then some (.link none) else none := by
    funext ⟨i, x⟩
    rw [linkWords, new_next]
    split_ifs <;> rfl
  rw [LinksSettled, hwords]
  exact h

/-- The list after some completed calls, which created the nodes `1, …, n`, with durable links. -/
structure Durable (s : PersistentSkipList) (n : ℕ) (A B : List ℕ) : Prop extends Valid s A B where
  settled : LinksSettled s
  length : s.nodes.length = n + 1
  nodes : (A ++ B).Perm (List.range' 1 n)

theorem Durable.skipLinks {n : ℕ} (hd : Durable s n A B) (hi : CrashImage s.ops img) :
    SkipLinks (durableNext img) s.head s.kMaxHeight s.nodes.height (A ++ B) := by
  rw [durableNext_eq (hd.settled.image hi)]
  exact ⟨hd.located.base, fun i hi => ⟨_, hd.located.chains i hi, level_sublist i _,
    fun y hy => (mem_level.mp hy).2⟩⟩

/-- Every crash inside an `Insert` leaves a skip list over the old nodes, or over the old nodes and
the new one. -/
theorem Linked.linksSafe {key : Key} {height : ℕ} (hlink : Linked s s' key height A B)
    (hs : LinksSettled s) (hl : Located s' (A ++ [s.nodes.length]) B)
    (hold : ∀ i < s.kMaxHeight, Chain (s.nodes.next i) s.head (level s'.nodes.height i (A ++ B)))
    (hN : 0 < s.kMaxHeight) :
    LinksSafe s.ops s'.ops s'.nodes fun nxt =>
      SkipLinks nxt s.head s.kMaxHeight s'.nodes.height (A ++ B) ∨
        SkipLinks nxt s.head s.kMaxHeight s'.nodes.height (A ++ s.nodes.length :: B) := by
  have hheight : s'.nodes.height = (s.nodes.alloc key height).height := funext hlink.heights
  have htall : ∀ y ∈ A ++ s.nodes.length :: B, 0 < s'.nodes.height y := fun y hy =>
    (hl.heights y (by simpa using hy)).1
  have hQ : ∀ nxt k, Splicing nxt (s.nodes.alloc key height).height s.head s.nodes.length A B
      s.kMaxHeight k →
      SkipLinks nxt s.head s.kMaxHeight s'.nodes.height (A ++ B) ∨
        SkipLinks nxt s.head s.kMaxHeight s'.nodes.height (A ++ s.nodes.length :: B) :=
    fun nxt k hsp => skipLinks_of_splicing hN htall (hheight ▸ hsp)
  have hnext : (s.nodes.alloc key height).next = s.nodes.next := by
    funext i y
    exact Arena.next_alloc _ _ _ i y
  have hQ₀ := hQ (s.nodes.alloc key height).next 0 (Splicing.start fun i hi => by
    rw [hnext, ← hheight]
    exact hold i hi)
  have hset : Settled linkAddr s.ops (linkWords (s.nodes.alloc key height)) := by
    have hwords : linkWords (s.nodes.alloc key height) = linkWords s.nodes := by
      funext k
      rw [linkWords, hnext, linkWords]
    rw [hwords]
    exact hs
  refine hlink.rounds (fun _ m ops => LinksSafe s.ops ops m _)
    (fun k m ops p succ m₁ m₂ _ hr h => h.round hr hQ) ?_
  refine LinksSafe.of_avoids ⟨hset, Throughout.refl fun img hi => ?_⟩ hQ₀ (newNodeOps_avoids _ _)
  simpa only [durableNext_eq (hset.image hi)] using hQ₀

theorem Durable.insert {n : ℕ} (hd : Durable s n A B) {c : Call} (hpos : 1 ≤ c.height)
    (hle : c.height ≤ s.kMaxHeight) (he : s.insert c = .ok s') :
    ∃ A' B', A ++ B = A' ++ B' ∧ Linked s s' c.key c.height A' B' ∧
      Durable s' (n + 1) (A' ++ [s.nodes.length]) B' ∧ CrashSafe s.ops s'.ops fun img =>
        SkipLinks (durableNext img) s.head s.kMaxHeight s'.nodes.height (A' ++ B') ∨
          SkipLinks (durableNext img) s.head s.kMaxHeight s'.nodes.height
            (A' ++ s.nodes.length :: B') := by
  rcases insert_spec hd.toValid c hpos hle with ⟨-, herr⟩ | ⟨t, A', B', ht, hsame, hlink, hv, -⟩
  · rw [herr] at he
    cases he
  · obtain rfl : t = s' := Except.ok.inj (ht.symm.trans he)
    have hold : ∀ i < s.kMaxHeight,
        Chain (s.nodes.next i) s.head (level t.nodes.height i (A' ++ B')) := by
      intro i hi
      rw [← hsame, level_congr fun y hy => hlink.height_old
        (hd.located.allocated y (List.mem_cons_of_mem _ hy))]
      exact hd.located.chains i hi
    have hsafe := hlink.linksSafe hd.settled hv.located hold (lt_of_lt_of_le hpos hle)
    refine ⟨A', B', hsame, hlink, ⟨hv, hsafe.settled, ?_, ?_⟩, hsafe.safe⟩
    · rw [hlink.length, hd.length]
    · apply (perm_insert s.nodes.length A' B').trans
      rw [← hsame, hd.length, List.range'_concat, Nat.one_mul, Nat.add_comm 1 n]
      exact hd.nodes.append_right _

theorem new_durable {maxHeight : ℕ} (keySize optNum per1gNum : ℕ) (h : 0 < maxHeight % 2 ^ 16) :
    Durable (new maxHeight keySize optNum per1gNum) 0 [] [] where
  toValid := new_valid keySize optNum per1gNum h
  settled := new_linksSettled maxHeight keySize optNum per1gNum
  length := rfl
  nodes := List.Perm.refl _

theorem Durable.insertAll {n : ℕ} {calls : List Call} (hd : Durable s n A B)
    (hheights : ∀ c ∈ calls, 1 ≤ c.height ∧ c.height ≤ s.kMaxHeight)
    (he : s.insertAll calls = .ok s') :
    s'.kMaxHeight = s.kMaxHeight ∧ ∃ A' B', Durable s' (n + calls.length) A' B' := by
  induction calls generalizing s n A B with
  | nil =>
    cases he
    exact ⟨rfl, A, B, hd⟩
  | cons c calls ih =>
    rw [PersistentSkipList.insertAll, List.foldlM_cons] at he
    obtain ⟨t, ht, he⟩ := bind_eq_ok.mp he
    obtain ⟨hpos, hle⟩ := hheights c (by simp)
    obtain ⟨A', B', -, hlink, hd', -⟩ := hd.insert hpos hle ht
    have hrest : ∀ c' ∈ calls, 1 ≤ c'.height ∧ c'.height ≤ t.kMaxHeight := by
      rw [hlink.sameConfig.kMaxHeight]
      exact fun c' hc' => hheights c' (List.mem_cons_of_mem _ hc')
    obtain ⟨hk, A'', B'', hd''⟩ := ih hd' hrest he
    refine ⟨hk.trans hlink.sameConfig.kMaxHeight, A'', B'', ?_⟩
    rwa [List.length_cons, Nat.add_comm calls.length 1, ← Nat.add_assoc]

/-- The instruction sequences after which a crash can interrupt the call `c`: before its first
store, or anywhere in a call that would run to its end. -/
def CrashPoint (s : PersistentSkipList) (c : Call) (p : List PmOp) : Prop :=
  p = s.ops ∨ ∃ s', s.insert c = .ok s' ∧ s.ops <+: p ∧ p <+: s'.ops

/-- Crash consistency of the links. The completed calls made the nodes `1, …, n`, which the list
holds in the order `A ++ B`; the links on the medium are a skip list over them, or over them and
the new node `n + 1` in the place where the interrupted call puts it. -/
theorem crash_links (maxHeight keySize optNum per1gNum : ℕ) (calls : List Call) (c : Call)
    (hheights : ∀ c' ∈ c :: calls,
      1 ≤ c'.height ∧ c'.height ≤ (new maxHeight keySize optNum per1gNum).kMaxHeight)
    (s : PersistentSkipList)
    (hs : (new maxHeight keySize optNum per1gNum).insertAll calls = .ok s) (p : List PmOp)
    (hp : CrashPoint s c p) (img : PmAddr → Option PmWord) (hi : CrashImage p img) :
    ∃ A B, Chain (s.nodes.next 0) s.head (A ++ B) ∧
      (A ++ B).Perm (List.range' 1 calls.length) ∧
      (SkipLinks (durableNext img) s.head s.kMaxHeight s.nodes.height (A ++ B) ∨
        ∃ s', s.insert c = .ok s' ∧
          Chain (s'.nodes.next 0) s'.head (A ++ (calls.length + 1) :: B) ∧
          SkipLinks (durableNext img) s.head s.kMaxHeight s'.nodes.height
            (A ++ (calls.length + 1) :: B)) := by
  obtain ⟨hpos, hle⟩ := hheights c (by simp)
  have hK : 0 < maxHeight % 2 ^ 16 := lt_of_lt_of_le hpos hle
  obtain ⟨hk, A, B, hd⟩ := (new_durable keySize optNum per1gNum hK).insertAll
    (fun c' hc' => hheights c' (List.mem_cons_of_mem _ hc')) hs
  rw [Nat.zero_add] at hd
  rcases hp with rfl | ⟨s', he, hb, hp⟩
  · exact ⟨A, B, hd.located.base, hd.nodes, Or.inl (hd.skipLinks hi)⟩
  · obtain ⟨A', B', hsame, hlink, hd', hsafe⟩ := hd.insert hpos (hk ▸ hle) he
    have hlen : s.nodes.length = calls.length + 1 := hd.length
    refine ⟨A', B', hsame ▸ hd.located.base, hsame ▸ hd.nodes, (hsafe p hb hp img hi).imp ?_ ?_⟩
    · intro h
      refine h.congr fun y hy => (hlink.height_old ?_).symm
      exact hd.located.allocated y (List.mem_cons_of_mem _ (hsame ▸ hy))
    · intro h
      rw [hlen] at h
      refine ⟨s', he, ?_, h⟩
      have hchain := hd'.located.base
      rwa [List.append_assoc, hlen] at hchain

/-- The first `Insert`, interrupted right after it stored the link of the head, with that store
lost. -/
theorem crash_links_first :
    ∃ L, (L = [] ∨ L = [1]) ∧ Chain (durableNext (fun a => (cell a ((new 1 1 0 1).ops ++
      (newNodeOps 1 [97] ++ setNextOps 1 0 none ++
        [.store (.next 0 0) (.link (some 1))]))).durable) 0) 0 L := by
  obtain ⟨A, B, -, hperm, h⟩ := crash_links 1 1 0 1 [] ⟨⟨1, fun _ => []⟩, [97]⟩
    (by simp [new]) (new 1 1 0 1) rfl
    ((new 1 1 0 1).ops ++ (newNodeOps 1 [97] ++ setNextOps 1 0 none ++
      [.store (.next 0 0) (.link (some 1))]))
    (Or.inr ⟨_, rfl, List.prefix_append _ _,
      [.persist [.next 0 0], .persist [.key 0]], rfl⟩)
    (fun a => (cell a ((new 1 1 0 1).ops ++ (newNodeOps 1 [97] ++ setNextOps 1 0 none ++
      [.store (.next 0 0) (.link (some 1))]))).durable) fun _ => Or.inl rfl
  obtain ⟨rfl, rfl⟩ := List.append_eq_nil_iff.mp (List.perm_nil.mp hperm)
  rcases h with h | ⟨s', -, -, h⟩
  · exact ⟨[], Or.inl rfl, h.base⟩
  · exact ⟨[1], Or.inr rfl, h.base⟩

end PersistTree.PersistentSkipList
