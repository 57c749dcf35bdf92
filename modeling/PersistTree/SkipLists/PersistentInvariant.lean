import PersistTree.SkipLists.PersistentSkipList

/-!
# The representation invariant of the NVM skip list

`Insert` first moves the fingers and then links the new node behind them. The first half keeps
the list as it is and moves the boundary that the fingers mark, whatever the keys are; when the
keys in memory are sorted, the boundary it ends at is a place for the new key. The five ways to
find that place are the five cases of `locate_outcome`.
-/
namespace PersistTree.PersistentSkipList

open Library

variable {s s' : PersistentSkipList} {env : Env} {key : Key} {c : Call}
  {calls : List Call} {A B : List ℕ}

/-- The nodes in level-0 order are `A ++ B`, and the fingers are those of `A`. -/
abbrev Located (s : PersistentSkipList) (A B : List ℕ) : Prop :=
  FingerList s.nodes s.head s.prev s.maxHeight s.kMaxHeight A B

def view (s : PersistentSkipList) (env : Env) (y : ℕ) : List ℕ :=
  strnview s.keySize (s.keyOf y ++ env.junk y)

/-- Two states of the list that differ at most in the fingers and in the statistics. -/
structure SameList (s s' : PersistentSkipList) : Prop where
  nodes : s'.nodes = s.nodes
  head : s'.head = s.head
  kMaxHeight : s'.kMaxHeight = s.kMaxHeight
  maxHeight : s'.maxHeight = s.maxHeight
  keySize : s'.keySize = s.keySize
  per1gNum : s'.per1gNum = s.per1gNum
  ops : s'.ops = s.ops

namespace SameList

theorem refl (s : PersistentSkipList) : SameList s s := ⟨rfl, rfl, rfl, rfl, rfl, rfl, rfl⟩

theorem trans {s'' : PersistentSkipList} (h : SameList s s') (h' : SameList s' s'') :
    SameList s s'' where
  nodes := h'.nodes.trans h.nodes
  head := h'.head.trans h.head
  kMaxHeight := h'.kMaxHeight.trans h.kMaxHeight
  maxHeight := h'.maxHeight.trans h.maxHeight
  keySize := h'.keySize.trans h.keySize
  per1gNum := h'.per1gNum.trans h.per1gNum
  ops := h'.ops.trans h.ops

theorem located (h : SameList s s') {A' B' : List ℕ} :
    Located s' A' B' ↔ FingerList s.nodes s.head s'.prev s.maxHeight s.kMaxHeight A' B' := by
  rw [Located, h.nodes, h.head, h.maxHeight, h.kMaxHeight]

end SameList

/-- The parameters of a list, which no `Insert` changes. -/
structure SameConfig (s s' : PersistentSkipList) : Prop where
  keySize : s'.keySize = s.keySize
  kMaxHeight : s'.kMaxHeight = s.kMaxHeight
  per1gNum : s'.per1gNum = s.per1gNum

theorem SameConfig.refl (s : PersistentSkipList) : SameConfig s s := ⟨rfl, rfl, rfl⟩

theorem SameConfig.trans {s'' : PersistentSkipList} (h : SameConfig s s')
    (h' : SameConfig s' s'') : SameConfig s s'' where
  keySize := h'.keySize.trans h.keySize
  kMaxHeight := h'.kMaxHeight.trans h.kMaxHeight
  per1gNum := h'.per1gNum.trans h.per1gNum

theorem keyOf_eq {y : ℕ} {node : Node Key} (h : s.nodes[y]? = some node) :
    s.keyOf y = node.payload := by
  rw [keyOf, h]
  rfl

theorem keyIsAfterNode_eq {y : ℕ} (hy : y < s.nodes.length) :
    s.keyIsAfterNode env key y = some (decide (s.view env y < strnview s.keySize key)) := by
  have hn := List.getElem?_eq_getElem hy
  rw [keyIsAfterNode, hn, Option.map_some, view, keyOf_eq hn]
  exact congrArg some (decide_eq_decide.mpr strncmp_neg_iff)

theorem compareKeyAndNode_eq (env : Env) (key : Key) {p : ℕ} (hp : p < s.nodes.length) :
    ∃ res, s.compareKeyAndNode env key p = .ok res ∧
      Compares res (strnview s.keySize key) (s.view env p) := by
  have hn := List.getElem?_eq_getElem hp
  refine ⟨strncmp key (s.nodes[p].payload ++ env.junk p) s.keySize, ?_, ?_⟩
  · rw [compareKeyAndNode, hn]
    rfl
  · rw [view, keyOf_eq hn]
    exact compares_strncmp _ _ _

/-- The outcomes of `locate` on a list whose nodes are `A ++ B`: the division by a zero window
length, or the same list with the fingers at some boundary, which fits the key when the list is
sorted. -/
def Outcome (s : PersistentSkipList) (env : Env) (key : Key) (A B : List ℕ)
    (r : Except Fault PersistentSkipList) : Prop :=
  (s.per1gNum = 0 ∧ r = .error .divByZero) ∨
    ∃ s' A' B', r = .ok s' ∧ SameList s s' ∧ A ++ B = A' ++ B' ∧ Located s' A' B' ∧
      (SortedBy (s.view env) (A ++ B) → Cut (s.view env) (strnview s.keySize key) A' B')

theorem Outcome.stay (hl : Located s A B) (hs : SameList s s') (hp : s'.prev = s.prev)
    (hcut : SortedBy (s.view env) (A ++ B) → Cut (s.view env) (strnview s.keySize key) A B) :
    Outcome s env key A B (.ok s') := by
  refine Or.inr ⟨s', A, B, rfl, hs, rfl, hs.located.mpr ?_, hcut⟩
  rw [hp]
  exact hl

theorem searchFrom_eq {x hops : ℕ} {prev' : List ℕ}
    (hd : descend s.nodes.next (s.keyIsAfterNode env key) (s.nodes.length + 1) s.maxHeight x
      s.prev = some (prev', hops)) :
    (s.per1gNum = 0 ∧ s.searchFrom env key x = .error .divByZero) ∨
      ∃ s', s.searchFrom env key x = .ok s' ∧ SameList s s' ∧ s'.prev = prev' := by
  simp only [searchFrom, hd, deref_some]
  by_cases hz : s.per1gNum = 0
  · exact Or.inl ⟨hz, by simp only [hz, if_true]; rfl⟩
  · right
    by_cases hw : s.opt1gNum % s.per1gNum = 0
    · refine ⟨_, by simp only [hz, hw, if_true, if_false]; rfl, ?_, rfl⟩
      exact ⟨rfl, rfl, rfl, rfl, rfl, rfl, rfl⟩
    · refine ⟨_, by simp only [hz, hw, if_false]; rfl, ?_, rfl⟩
      exact ⟨rfl, rfl, rfl, rfl, rfl, rfl, rfl⟩

/-- What a search that starts with a given prefix of the list behind it does. -/
theorem searchFrom_outcome (hs : SameList s s') (hp : s'.prev = s.prev) {x : ℕ} {P : ℕ → Bool}
    (hP : ∀ y, P y = true ↔ s.view env y < strnview s.keySize key) {prev' A' B' : List ℕ}
    {hops : ℕ}
    (hd : descend s.nodes.next (s.keyIsAfterNode env key) (s.nodes.length + 1) s.maxHeight x
      s.prev = some (prev', hops))
    (hsame : A ++ B = A' ++ B')
    (hl : FingerList s.nodes s.head prev' s.maxHeight s.kMaxHeight A' B')
    (hsep : SortedBy (s.view env) (A ++ B) → (∀ a ∈ A', P a = true) ∧ ∀ b ∈ B', P b = false) :
    Outcome s env key A B (s'.searchFrom env key x) := by
  have hafter : s'.keyIsAfterNode env key = s.keyIsAfterNode env key := by
    funext y
    rw [keyIsAfterNode, keyIsAfterNode, hs.nodes, hs.keySize]
  have hd' : descend s'.nodes.next (s'.keyIsAfterNode env key) (s'.nodes.length + 1) s'.maxHeight x
      s'.prev = some (prev', hops) := by
    rw [hafter, hs.nodes, hs.maxHeight, hp, hd]
  rcases searchFrom_eq hd' with ⟨hz, he⟩ | ⟨t, ht, hst, hpt⟩
  · exact Or.inl ⟨hs.per1gNum.symm.trans hz, he⟩
  · refine Or.inr ⟨t, A', B', ht, hs.trans hst, hsame, (hs.trans hst).located.mpr ?_, ?_⟩
    · rw [hpt]
      exact hl
    · intro hv
      obtain ⟨hA, hB⟩ := hsep hv
      exact Cut.of_search hP hA hB

theorem after_spec (hl : Located s A B) (env : Env) (key : Key) : ∀ y ∈ A ++ B,
    s.keyIsAfterNode env key y = some (decide (s.view env y < strnview s.keySize key)) :=
  fun y hy => keyIsAfterNode_eq (hl.allocated y (List.mem_cons_of_mem _ hy))

theorem findLessThan_outcome (hl : Located s A B) :
    Outcome s env key A B (s.findLessThan env key) := by
  obtain ⟨prev', hops, A', B', hd, hsame, hl', hsep⟩ := hl.search_head (after_spec hl env key)
  have hP : ∀ y, decide (s.view env y < strnview s.keySize key) = true ↔ _ := fun y =>
    decide_eq_true_iff
  have hs : SameList s { s with allCnt := s.allCnt + 1, headCnt := s.headCnt + 1 } :=
    ⟨rfl, rfl, rfl, rfl, rfl, rfl, rfl⟩
  exact searchFrom_outcome hs rfl hP hd hsame hl' fun hv => hsep (SortedBy.decreasing hv hP)

theorem findNextNode_outcome (hl : Located s A B)
    (hA : SortedBy (s.view env) (A ++ B) → ∀ a ∈ A, s.view env a < strnview s.keySize key) :
    Outcome s env key A B (s.findNextNode env key) := by
  obtain ⟨x, prev', hops, A', B', hx, hd, hsame, hl', hsep⟩ :=
    hl.search_finger (after_spec hl env key)
  rw [findNextNode, hx, deref_some]
  have hP : ∀ y, decide (s.view env y < strnview s.keySize key) = true ↔ _ := fun y =>
    decide_eq_true_iff
  have hs : SameList s { s with allCnt := s.allCnt + 1 } := ⟨rfl, rfl, rfl, rfl, rfl, rfl, rfl⟩
  exact searchFrom_outcome hs rfl hP hd hsame hl' fun hv =>
    hsep (SortedBy.decreasing hv hP) fun a ha => (hP a).mpr (hA hv a ha)

theorem Outcome.of_sameList {t : PersistentSkipList} {r : Except Fault PersistentSkipList}
    (hs : SameList s t) (h : Outcome t env key A B r) : Outcome s env key A B r := by
  have hv : t.view env = s.view env := by
    funext y
    rw [view, view, keyOf, keyOf, hs.nodes, hs.keySize]
  rcases h with ⟨hz, he⟩ | ⟨s', A', B', hr, hst, hsame, hl, hcut⟩
  · exact Or.inl ⟨hs.per1gNum.symm.trans hz, he⟩
  · rw [hv, hs.keySize] at hcut
    exact Or.inr ⟨s', A', B', hr, hs.trans hst, hsame, hl, hcut⟩

theorem Outcome.count {r : Except Fault PersistentSkipList} (h : Outcome s env key A B r) :
    Outcome s env key A B (do
      let s ← r
      return { s with cntTime := s.cntTime + 1 }) := by
  rcases h with ⟨hz, rfl⟩ | ⟨s', A', B', rfl, hst, hsame, hl, hcut⟩
  · exact Or.inl ⟨hz, rfl⟩
  · refine Or.inr ⟨_, A', B', rfl, hst.trans ?_, hsame, hl, hcut⟩
    exact ⟨rfl, rfl, rfl, rfl, rfl, rfl, rfl⟩

theorem locate_outcome (hl : Located s A B) (hne : A = [] → B = []) (env : Env) (key : Key) :
    Outcome s env key A B (s.locate env key) := by
  have hcount : SameList s { s with opt1gNum := s.opt1gNum + 1 } :=
    ⟨rfl, rfl, rfl, rfl, rfl, rfl, rfl⟩
  rw [locate]
  apply Outcome.of_sameList hcount
  have hl' : Located { s with opt1gNum := s.opt1gNum + 1 } A B := hl
  generalize { s with opt1gNum := s.opt1gNum + 1 } = t at hl' ⊢
  obtain ⟨pos, hpos, hfits⟩ := position_spec (v := t.view env) (k := strnview t.keySize key)
    (fun y hy => compareKeyAndNode_eq env key (hl'.allocated_behind y hy)) hl'.next_finger_zero
  simp only [hl'.finger_zero, deref_some, ok_bind, hpos]
  have hsuit : SameList t { t with suitCnt := t.suitCnt + 1, cntTime := t.cntTime + 1 } :=
    ⟨rfl, rfl, rfl, rfl, rfl, rfl, rfl⟩
  have htime : SameList t { t with cntTime := t.cntTime + 1 } :=
    ⟨rfl, rfl, rfl, rfl, rfl, rfl, rfl⟩
  cases pos with
  | atEnd => exact Outcome.stay hl' hsuit rfl fun hv => hfits.cut hv hne (by simp) (by simp)
  | between => exact Outcome.stay hl' hsuit rfl fun hv => hfits.cut hv hne (by simp) (by simp)
  | onNext => exact Outcome.stay hl' htime rfl fun hv => hfits.cut hv hne (by simp) (by simp)
  | onFinger =>
    exact Outcome.stay hl' (SameList.refl t) rfl fun hv => hfits.cut hv hne (by simp) (by simp)
  | behind => exact findLessThan_outcome hl'
  | ahead =>
    refine Outcome.count (findNextNode_outcome hl' fun hv a ha => ?_)
    have hle := SortedBy.le_lastFrom (List.pairwise_append.mp hv).1 t.head a ha
    exact lt_of_le_of_lt hle hfits.1

/-- What linking a new node between `A` and `B` changes: one more node, with the given key and as
many slots as the given height; the nodes that were there keep theirs. The links and the
instructions are those of the rounds of the linking loop. -/
structure Linked (s s' : PersistentSkipList) (key : Key) (height : ℕ) (A B : List ℕ) : Prop where
  sameConfig : SameConfig s s'
  length : s'.nodes.length = s.nodes.length + 1
  head : s'.head = s.head
  keyOf_new : s'.keyOf s.nodes.length = key
  keyOf_old : ∀ y < s.nodes.length, s'.keyOf y = s.keyOf y
  heights : ∀ y, s'.nodes.height y = (s.nodes.alloc key height).height y
  rounds : Rounds setNextOps persistNodeOps (s.nodes.alloc key height) s.head s.nodes.length A B
    s.kMaxHeight 0 (s.nodes.alloc key height) (s.ops ++ newNodeOps s.nodes.length key)
    s'.nodes s'.ops

namespace Linked

variable {height : ℕ}

theorem of_sameList {t : PersistentSkipList} (hs : SameList s t)
    (h : Linked t s' key height A B) : Linked s s' key height A B where
  sameConfig := SameConfig.trans ⟨hs.keySize, hs.kMaxHeight, hs.per1gNum⟩ h.sameConfig
  length := hs.nodes ▸ h.length
  head := h.head.trans hs.head
  keyOf_new := hs.nodes ▸ h.keyOf_new
  keyOf_old y hy := by
    rw [h.keyOf_old y (hs.nodes ▸ hy), keyOf, keyOf, hs.nodes]
  heights y := by rw [h.heights y, hs.nodes]
  rounds := by
    have hr := h.rounds
    rwa [hs.nodes, hs.head, hs.kMaxHeight, hs.ops] at hr

theorem height_new (h : Linked s s' key height A B) :
    s'.nodes.height s.nodes.length = height := by
  rw [h.heights, Arena.alloc_height_self]

theorem height_old (h : Linked s s' key height A B) {y : ℕ} (hy : y < s.nodes.length) :
    s'.nodes.height y = s.nodes.height y := by
  rw [h.heights, Arena.alloc_height_of_lt hy]

end Linked

theorem linkNode_spec (hl : Located s A B) (key : Key) {height : ℕ} (hpos : 1 ≤ height)
    (hle : height ≤ s.kMaxHeight) :
    ∃ s', s.linkNode key height = .ok s' ∧ Linked s s' key height A B ∧
      Located s' (A ++ [s.nodes.length]) B := by
  have hraised := (hl.raise hle).alloc key height
  have hself := Arena.alloc_height_self s.nodes key height
  obtain ⟨m', prev', ops', he, hm, hlinked, hrounds⟩ :=
    hraised.link hl.fresh_not_mem (by simp) (by rw [hself]; exact hpos)
      (by rw [hself]; exact le_max_right _ _) setNextOps persistNodeOps
      (s.ops ++ newNodeOps s.nodes.length key)
  rw [hself] at he
  refine ⟨_, by simp only [linkNode, he, deref_some, ok_bind]; rfl, ?_, hlinked⟩
  exact {
    sameConfig := ⟨rfl, rfl, rfl⟩
    length := hm.length.trans (Arena.alloc_length _ _ _)
    head := rfl
    keyOf_new := by simp only [keyOf, hm.payload, Arena.alloc_payload_self, Option.getD_some]
    keyOf_old := fun y hy => by simp only [keyOf, hm.payload, Arena.alloc_getElem? hy]
    heights := hm.height
    rounds := hrounds }

/-- The links between two calls of `Insert`: the finger has left the head unless the list is
empty. -/
structure Valid (s : PersistentSkipList) (A B : List ℕ) : Prop where
  located : Located s A B
  started : A = [] → B = []

theorem new_next (maxHeight keySize optNum per1gNum i x : ℕ) :
    (new maxHeight keySize optNum per1gNum).nodes.next i x =
      if x = 0 ∧ i < maxHeight % 2 ^ 16 then some none else none := by
  cases x with
  | succ x => simp [new, Arena.next]
  | zero =>
    simp only [new, Arena.next, List.getElem?_cons_zero, Option.bind_some, List.getElem?_append,
      List.length_replicate, List.getElem?_replicate, true_and]
    by_cases hi : i < maxHeight % 2 ^ 16
    · rw [if_pos hi, if_pos hi, if_pos hi]
      rfl
    · rw [if_neg hi, if_neg hi]
      split_ifs <;> rfl

theorem new_valid {maxHeight : ℕ} (keySize optNum per1gNum : ℕ) (h : 0 < maxHeight % 2 ^ 16) :
    Valid (new maxHeight keySize optNum per1gNum) [] [] where
  located := by
    have hne : maxHeight % 65536 ≠ 0 := Nat.pos_iff_ne_zero.mp h
    exact {
      chains := fun i hi => Chain.nil ((new_next _ _ _ _ i 0).trans (if_pos ⟨rfl, hi⟩))
      nodup := by simp
      allocated := by simp [new]
      headTall := by simp [new, Arena.height]
      heights := by simp
      fingers := fun i hi => by
        obtain rfl : i = 0 := Nat.lt_one_iff.mp hi
        simp [new, List.getElem?_replicate, hne]
      prevLength := by simp [new]
      maxHeight_pos := Nat.one_pos
      maxHeight_le := h }
  started := fun _ => rfl

/-- One `Insert`: the links stay valid whatever the keys are, and the new node stands where its
key belongs when the list was sorted. -/
theorem insert_spec (hv : Valid s A B) (c : Call) (hpos : 1 ≤ c.height)
    (hle : c.height ≤ s.kMaxHeight) :
    (s.per1gNum = 0 ∧ s.insert c = .error .divByZero) ∨
      ∃ s' A' B', s.insert c = .ok s' ∧ A ++ B = A' ++ B' ∧ Linked s s' c.key c.height A' B' ∧
        Valid s' (A' ++ [s.nodes.length]) B' ∧
        (SortedBy (s.view c.toEnv) (A ++ B) →
          Cut (s.view c.toEnv) (strnview s.keySize c.key) A' B') := by
  rcases locate_outcome hv.located hv.started c.toEnv c.key with ⟨hz, he⟩ | h
  · exact Or.inl ⟨hz, by rw [insert, he, error_bind]⟩
  · obtain ⟨t, A', B', ht, hst, hsame, hl, hcut⟩ := h
    obtain ⟨s', hs', hlinked, hl'⟩ := linkNode_spec hl c.key hpos (hst.kMaxHeight ▸ hle)
    rw [hst.nodes] at hl'
    refine Or.inr ⟨s', A', B', ?_, hsame, hlinked.of_sameList hst, ⟨hl', by simp⟩, hcut⟩
    rw [insert, ht, ok_bind, hs']

theorem Valid.insert (hv : Valid s A B) (hheight : 1 ≤ c.height ∧ c.height ≤ s.kMaxHeight)
    (h : s.insert c = .ok s') : SameConfig s s' ∧ s'.nodes.length = s.nodes.length + 1 ∧
      s'.keyOf s.nodes.length = c.key ∧ ∃ A' B', Valid s' (A' ++ [s.nodes.length]) B' := by
  rcases insert_spec hv c hheight.1 hheight.2 with ⟨-, he⟩ | ⟨t, A', B', he, -, hlink, hv', -⟩
  · rw [he] at h
    cases h
  · obtain rfl := Except.ok.inj (h.symm.trans he)
    exact ⟨hlink.sameConfig, hlink.length, hlink.keyOf_new, A', B', hv'⟩

theorem Valid.insertAll (hv : Valid s A B)
    (hheights : ∀ c ∈ calls, 1 ≤ c.height ∧ c.height ≤ s.kMaxHeight)
    (h : s.insertAll calls = .ok s') : SameConfig s s' ∧ ∃ A' B', Valid s' A' B' := by
  induction calls generalizing s A B with
  | nil =>
    obtain rfl := Except.ok.inj h
    exact ⟨SameConfig.refl s, A, B, hv⟩
  | cons c calls ih =>
    obtain ⟨t, ht, h⟩ := bind_eq_ok.mp h
    obtain ⟨hcfg, -, -, A', B', hv'⟩ := hv.insert (hheights c (by simp)) ht
    have hrest : ∀ d ∈ calls, 1 ≤ d.height ∧ d.height ≤ t.kMaxHeight := by
      rw [hcfg.kMaxHeight]
      exact fun d hd => hheights d (List.mem_cons_of_mem c hd)
    obtain ⟨hcfg', hv''⟩ := ih hv' hrest h
    exact ⟨hcfg.trans hcfg', hv''⟩

end PersistTree.PersistentSkipList
