import PersistTree.Library.Seek
import PersistTree.SkipLists.PersistentInvariant

/-!
# FindGreaterOrEqual

The NVM list has a lookup that nothing calls. It compares whole strings with `strcmp`, although the
list is ordered by their first `key_size_` bytes, it takes the first equal node it meets on any
level, and its local `last_bigger` is not initialised: the first node it compares may be taken for a
larger one.
-/
namespace PersistTree.PersistentSkipList

open Library

/-- `strcmp(n->key_, key.c_str())`. -/
def compareStrings (s : PersistentSkipList) (junk : ℕ → List UInt8) (key : Key) (n : ℕ) :
    Option ℤ :=
  s.nodes[n]?.map fun node => strcmp (node.payload ++ junk n) key

/-- `FindGreaterOrEqual`, when `lastBigger` is what the local variable holds at the start. -/
def findGreaterOrEqual (s : PersistentSkipList) (junk : ℕ → List UInt8) (lastBigger : Ptr)
    (key : Key) : Except Fault Ptr :=
  deref (seek s.nodes.next (s.compareStrings junk key) (s.nodes.length + s.maxHeight) s.head
    (s.maxHeight - 1) lastBigger)

/-- The key of node `y` is less than the search key in the order that `Insert` maintains. -/
def Less (s : PersistentSkipList) (junk : ℕ → List UInt8) (key : Key) (y : ℕ) : Prop :=
  strncmp (s.keyOf y ++ junk y) key s.keySize < 0

instance (s : PersistentSkipList) (junk : ℕ → List UInt8) (key : Key) :
    DecidablePred (s.Less junk key) :=
  fun _ => inferInstanceAs (Decidable (_ < _))

/-- `FindGreaterOrEqual` returns the first node in level-0 order whose key is not less than the
search key, or null if there is none. -/
def FindsLowerBound (s : PersistentSkipList) (junk : ℕ → List UInt8) (lastBigger : Ptr)
    (key : Key) : Prop :=
  ∃ L, Chain (s.nodes.next 0) s.head L ∧
    s.findGreaterOrEqual junk lastBigger key = .ok (L.find? fun y => ¬s.Less junk key y)

/-- What has to be so in a list whose nodes are `A` up to the lower bound and `B` from there:
`last_bigger` does not start as a node of `A` on the top level, and the first node of `B` on each
level is larger than the key as a whole string, unless it is the lower bound itself and equal to the
key, or `last_bigger` starts as it and it is on the top level. -/
def SeeksFirst (s : PersistentSkipList) (junk : ℕ → List UInt8) (lastBigger : Ptr) (key : Key)
    (A B : List ℕ) : Prop :=
  (∀ a ∈ A, lastBigger = some a → s.nodes.height a < s.maxHeight) ∧
    ∀ i < s.maxHeight, ∀ y, (level s.nodes.height i B).head? = some y →
      lastBigger = some y ∧ s.maxHeight ≤ s.nodes.height y ∨
        0 < strcmp (s.keyOf y ++ junk y) key ∨
          strcmp (s.keyOf y ++ junk y) key = 0 ∧ B.head? = some y

/-- The same, when `A` are the nodes before the first one that is not less. -/
def Leads (s : PersistentSkipList) (junk : ℕ → List UInt8) (lastBigger : Ptr) (key : Key) : Prop :=
  ∃ L, Chain (s.nodes.next 0) s.head L ∧
    s.SeeksFirst junk lastBigger key (L.takeWhile fun y => s.Less junk key y)
      (L.dropWhile fun y => s.Less junk key y)

variable {s : PersistentSkipList} {junk : ℕ → List UInt8} {lastBigger : Ptr} {key : Key}
  {A B L : List ℕ}

theorem compareStrings_eq {y : ℕ} (hy : y < s.nodes.length) :
    s.compareStrings junk key y = some (strcmp (s.keyOf y ++ junk y) key) := by
  have hn := List.getElem?_eq_getElem hy
  rw [compareStrings, hn, Option.map_some, keyOf_eq hn]

/-- The whole strings of the nodes before the lower bound are smaller too. -/
theorem Less.strcmp_neg {y : ℕ} (h : s.Less junk key y) :
    strcmp (s.keyOf y ++ junk y) key < 0 := by
  rw [strcmp_eq h.ne]
  exact h

theorem find?_not_less (hA : ∀ a ∈ A, s.Less junk key a) (hB : ∀ b, B.head? = some b →
    ¬s.Less junk key b) : ((A ++ B).find? fun y => ¬s.Less junk key y) = B.head? := by
  have hnone : (A.find? fun y => ¬s.Less junk key y) = none := by
    rw [List.find?_eq_none]
    intro a ha
    simpa using hA a ha
  rw [List.find?_append, hnone, Option.none_or]
  cases B with
  | nil => rfl
  | cons b B =>
    have hb := hB b rfl
    simp [hb]

/-- The search in a list whose links are valid: it comes to an end, and `seek_iff` says what it
returns. -/
theorem Located.findGreaterOrEqual {A' B' : List ℕ} (hl : Located s A' B') (hL : A' ++ B' = A ++ B)
    (hA : ∀ a ∈ A, s.Less junk key a) (lastBigger : Ptr) :
    ∃ r, s.findGreaterOrEqual junk lastBigger key = .ok r ∧
      (r = B.head? ↔ s.SeeksFirst junk lastBigger key A B) := by
  have hchains : ∀ i < s.maxHeight,
      Chain (s.nodes.next i) s.head (level s.nodes.height i (A ++ B)) := by
    intro i hi
    rw [← hL]
    exact hl.chains i (lt_of_lt_of_le hi hl.maxHeight_le)
  have hcmp : ∀ y ∈ A ++ B, s.compareStrings junk key y =
      some (strcmp (s.keyOf y ++ junk y) key) := by
    intro y hy
    rw [← hL] at hy
    exact compareStrings_eq (hl.allocated y (List.mem_cons_of_mem _ hy))
  have hnd : (A ++ B).Nodup := hL ▸ (List.nodup_cons.mp hl.nodup).2
  have hpos : ∀ y ∈ A ++ B, 0 < s.nodes.height y := fun y hy => (hl.heights y (hL ▸ hy)).1
  have hfuel : (A ++ B).length + s.maxHeight ≤ s.nodes.length + s.maxHeight := by
    have := hl.length_lt
    rw [hL] at this
    omega
  obtain ⟨r, hr, hiff⟩ : ∃ r, seek s.nodes.next (s.compareStrings junk key) _ s.head
      (s.maxHeight - 1) lastBigger = some r ∧ _ :=
    seek_iff hchains hcmp hnd hpos (fun a ha => (hA a ha).strcmp_neg) hl.maxHeight_pos hfuel
  refine ⟨r, by rw [PersistentSkipList.findGreaterOrEqual, hr, deref_some], hiff.trans ?_⟩
  refine and_congr_right fun _ => forall_congr' fun i => ?_
  have hmh := hl.maxHeight_pos
  rw [show i ≤ s.maxHeight - 1 ↔ i < s.maxHeight by omega]
  refine imp_congr_right fun _ => forall_congr' fun y => imp_congr_right fun _ => ?_
  rw [show s.maxHeight - 1 < s.nodes.height y ↔ s.maxHeight ≤ s.nodes.height y by omega]

theorem Located.lowerBound_iff {A' B' : List ℕ} (hl : Located s A' B') :
    s.FindsLowerBound junk lastBigger key ↔ s.Leads junk lastBigger key := by
  have hA : ∀ a ∈ (A' ++ B').takeWhile (fun y => s.Less junk key y), s.Less junk key a := by
    intro a ha
    have hless : decide (s.Less junk key a) = true :=
      List.mem_takeWhile_imp (p := fun y => decide (s.Less junk key y)) ha
    exact of_decide_eq_true hless
  have hB : ∀ b, ((A' ++ B').dropWhile fun y => s.Less junk key y).head? = some b →
      ¬s.Less junk key b := by
    intro b hb hless
    have := List.head?_dropWhile_not (fun y => decide (s.Less junk key y)) (A' ++ B')
    rw [hb] at this
    simp [hless] at this
  have hsplit := (List.takeWhile_append_dropWhile
    (p := fun y => decide (s.Less junk key y)) (l := A' ++ B')).symm
  obtain ⟨r, hr, hiff⟩ := hl.findGreaterOrEqual hsplit hA lastBigger
  have hfind := find?_not_less hA hB
  rw [← hsplit] at hfind
  constructor
  · rintro ⟨L, hc, he⟩
    obtain rfl := hc.unique hl.base
    rw [hr, hfind] at he
    exact ⟨A' ++ B', hl.base, hiff.mp (Except.ok.inj he)⟩
  · rintro ⟨L, hc, hs⟩
    obtain rfl := hc.unique hl.base
    refine ⟨A' ++ B', hl.base, ?_⟩
    rw [hr, hfind, hiff.mpr hs]

theorem new_findsLowerBound_iff {maxHeight : ℕ} (keySize optNum per1gNum : ℕ)
    (h : maxHeight % 2 ^ 16 = 0) :
    (new maxHeight keySize optNum per1gNum).FindsLowerBound junk lastBigger key ↔
      (new maxHeight keySize optNum per1gNum).Leads junk lastBigger key := by
  have hnone : ∀ L, ¬Chain ((new maxHeight keySize optNum per1gNum).nodes.next 0) 0 L := by
    intro L hc
    have hn := hc.next_eq
    rw [new_next, if_neg (by omega)] at hn
    cases hn
  constructor
  · rintro ⟨L, hc, -⟩
    exact absurd hc (hnone L)
  · rintro ⟨L, hc, -⟩
    exact absurd hc (hnone L)

/-- In every list that `Insert` can build, `FindGreaterOrEqual` is a lower bound exactly if its
uninitialised local does not start as a node of the top level that is less than the key, and
`strcmp` finds no node before the lower bound. -/
theorem findsLowerBound_iff (maxHeight keySize optNum per1gNum : ℕ) (calls : List Call)
    (hheights : ∀ c ∈ calls,
      1 ≤ c.height ∧ c.height ≤ (new maxHeight keySize optNum per1gNum).kMaxHeight)
    (hs : (new maxHeight keySize optNum per1gNum).insertAll calls = .ok s)
    (junk : ℕ → List UInt8) (lastBigger : Ptr) (key : Key) :
    s.FindsLowerBound junk lastBigger key ↔ s.Leads junk lastBigger key := by
  rcases Nat.eq_zero_or_pos (maxHeight % 2 ^ 16) with h0 | hpos
  · cases calls with
    | nil =>
      obtain rfl := Except.ok.inj hs
      exact new_findsLowerBound_iff keySize optNum per1gNum h0
    | cons c calls =>
      obtain ⟨h1, hle⟩ := hheights c (by simp)
      have hk : (new maxHeight keySize optNum per1gNum).kMaxHeight = maxHeight % 2 ^ 16 := rfl
      omega
  · obtain ⟨-, A, B, hv⟩ := (new_valid keySize optNum per1gNum hpos).insertAll hheights hs
    exact hv.located.lowerBound_iff

/-- Three keys on two levels. -/
def threeCalls : List Call :=
  [⟨⟨2, fun _ => []⟩, [97]⟩, ⟨⟨1, fun _ => []⟩, [99]⟩, ⟨⟨2, fun _ => []⟩, [100]⟩]

def threeKeys : PersistentSkipList :=
  ((new 2 1 0 1).insertAll threeCalls).toOption.getD (new 2 1 0 1)

/-- The local starts as the last key: the lookup goes down in front of it and finds the middle
one. -/
theorem findsLowerBound_iff_three :
    (new 2 1 0 1).insertAll threeCalls = .ok threeKeys ∧
      threeKeys.FindsLowerBound (fun _ => []) (some 3) [98] ∧
      threeKeys.findGreaterOrEqual (fun _ => []) (some 3) [98] = .ok (some 2) := by
  have hs : (new 2 1 0 1).insertAll threeCalls = .ok threeKeys := rfl
  have hA : ([1, 2, 3].takeWhile fun y => threeKeys.Less (fun _ => []) [98] y) = [1] := rfl
  have hB : ([1, 2, 3].dropWhile fun y => threeKeys.Less (fun _ => []) [98] y) = [2, 3] := rfl
  refine ⟨hs, ?_, rfl⟩
  rw [findsLowerBound_iff 2 1 0 1 threeCalls (by decide) hs]
  refine ⟨[1, 2, 3], Chain.cons rfl (Chain.cons rfl (Chain.cons rfl (Chain.nil rfl))), ?_, ?_⟩
  · intro a ha hlast
    rw [hA, List.mem_singleton] at ha
    rw [ha] at hlast
    cases hlast
  · intro i hi y hy
    rw [hB] at hy
    have hmax : threeKeys.maxHeight = 2 := rfl
    obtain rfl | rfl : i = 0 ∨ i = 1 := by omega
    · -- on level 0 the middle key is compared
      obtain rfl : 2 = y := Option.some.inj hy
      exact Or.inr (Or.inl (by decide))
    · -- on level 1 the local is met
      obtain rfl : 3 = y := Option.some.inj hy
      exact Or.inl ⟨rfl, by decide⟩

/-- A list of one key, looked up for a larger one when the local starts as its node: that node is
returned as larger than the key. -/
theorem not_findsLowerBound : ¬∀ (maxHeight keySize optNum per1gNum : ℕ) (calls : List Call),
    (∀ c ∈ calls, 1 ≤ c.height ∧ c.height ≤ (new maxHeight keySize optNum per1gNum).kMaxHeight) →
    ∀ s, (new maxHeight keySize optNum per1gNum).insertAll calls = .ok s →
    ∀ (junk : ℕ → List UInt8) (lastBigger : Ptr) (key : Key),
      s.FindsLowerBound junk lastBigger key := by
  intro h
  obtain ⟨L, hc, he⟩ := h 1 1 0 1 [⟨⟨1, fun _ => []⟩, [97]⟩] (by simp [new]) _ rfl (fun _ => [])
    (some 1) [98]
  obtain rfl : L = [1] := hc.unique (Chain.cons rfl (Chain.nil rfl))
  have hr := Except.ok.inj he
  revert hr
  decide

end PersistTree.PersistentSkipList
