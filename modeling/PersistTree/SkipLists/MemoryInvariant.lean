import PersistTree.SkipLists.Filled
import PersistTree.SkipLists.MemorySkipList

/-!
# The representation invariant of the DRAM skip list

A key that is not in the list yet and lies behind the sentinel `" "` never takes the branch that
copies over a node. On such keys `Insert` is the insertion of the NVM list without its statistics,
and the fingers of all levels follow the same invariant.
-/
namespace PersistTree.MemorySkipList

open Library

variable {s s' : MemorySkipList} {env : Env} {key : Key} {A B : List ℕ} {done calls : List Call}

/-- The nodes in level-0 order are `A ++ B`, and the fingers are those of `A`. -/
abbrev Located (s : MemorySkipList) (A B : List ℕ) : Prop :=
  FingerList s.nodes s.head s.prev s.maxHeight s.kMaxHeight A B

/-- No node has lost the pointer to its key. -/
def Intact (s : MemorySkipList) : Prop := ∀ y < s.nodes.length, s.keyAt y = some (s.keyOf y)

def view (s : MemorySkipList) (env : Env) (y : ℕ) : List ℕ :=
  strnview s.keySize (s.keyOf y ++ env.junk y)

theorem keyIsAfterNode_eq (hi : s.Intact) {y : ℕ} (hy : y < s.nodes.length) :
    s.keyIsAfterNode env key y = some (decide (s.view env y < strnview s.keySize key)) := by
  rw [keyIsAfterNode, hi y hy, Option.map_some]
  exact congrArg some (decide_eq_decide.mpr strncmp_neg_iff)

theorem compareKeyAndNode_eq (hi : s.Intact) (env : Env) (key : Key) {y : ℕ}
    (hy : y < s.nodes.length) :
    ∃ res, s.compareKeyAndNode env key y = .ok res ∧
      Compares res (strnview s.keySize key) (s.view env y) := by
  refine ⟨_, ?_, compares_strncmp key (s.keyOf y ++ env.junk y) s.keySize⟩
  rw [compareKeyAndNode, hi y hy]
  rfl

theorem after_spec (hl : Located s A B) (hi : s.Intact) (env : Env) (key : Key) : ∀ y ∈ A ++ B,
    s.keyIsAfterNode env key y = some (decide (s.view env y < strnview s.keySize key)) :=
  fun y hy => keyIsAfterNode_eq hi (hl.allocated y (List.mem_cons_of_mem _ hy))

theorem findLessThan_spec (hl : Located s A B) (hi : s.Intact) (env : Env) (key : Key)
    (hv : SortedBy (s.view env) (A ++ B)) :
    ∃ prev' A' B', s.findLessThan env key = .ok { s with prev := prev' } ∧ A ++ B = A' ++ B' ∧
      FingerList s.nodes s.head prev' s.maxHeight s.kMaxHeight A' B' ∧
      Cut (s.view env) (strnview s.keySize key) A' B' := by
  obtain ⟨prev', hops, A', B', hd, hsame, hl', hsep⟩ := hl.search_head (after_spec hl hi env key)
  have hP : ∀ y, decide (s.view env y < strnview s.keySize key) = true ↔ _ := fun y =>
    decide_eq_true_iff
  obtain ⟨hA, hB⟩ := hsep (SortedBy.decreasing hv hP)
  refine ⟨prev', A', B', ?_, hsame, hl', Cut.of_search hP hA hB⟩
  simp only [findLessThan, searchFrom, hd, deref_some, ok_bind, pure_eq_ok]

theorem findNextNode_spec (hl : Located s A B) (hi : s.Intact) (env : Env) (key : Key)
    (hv : SortedBy (s.view env) (A ++ B))
    (hA : ∀ a ∈ A, s.view env a < strnview s.keySize key) :
    ∃ prev' A' B', s.findNextNode env key = .ok { s with prev := prev' } ∧ A ++ B = A' ++ B' ∧
      FingerList s.nodes s.head prev' s.maxHeight s.kMaxHeight A' B' ∧
      Cut (s.view env) (strnview s.keySize key) A' B' := by
  obtain ⟨x, prev', hops, A', B', hx, hd, hsame, hl', hsep⟩ :=
    hl.search_finger (after_spec hl hi env key)
  have hP : ∀ y, decide (s.view env y < strnview s.keySize key) = true ↔ _ := fun y =>
    decide_eq_true_iff
  obtain ⟨hA', hB'⟩ := hsep (SortedBy.decreasing hv hP) fun a ha => (hP a).mpr (hA a ha)
  refine ⟨prev', A', B', ?_, hsame, hl', Cut.of_search hP hA' hB'⟩
  simp only [findNextNode, searchFrom, hx, hd, deref_some, ok_bind, pure_eq_ok]

/-- The first half of `Insert`, for a key that differs from all keys in the list. The sentinel is
compared with only while the list is empty, and then it may have the same key. -/
theorem locate_cases (hl : Located s A B) (hne : A = [] → B = []) (hi : s.Intact)
    (hdiff : ∀ y ∈ A ++ B, s.view env y ≠ strnview s.keySize key)
    (hv : SortedBy (s.view env) (A ++ B)) :
    (A = [] ∧ s.view env s.head = strnview s.keySize key ∧ s.locate env key = .ok (s, true)) ∨
      ∃ prev' A' B', s.locate env key = .ok ({ s with prev := prev' }, false) ∧
        A ++ B = A' ++ B' ∧ FingerList s.nodes s.head prev' s.maxHeight s.kMaxHeight A' B' ∧
        Cut (s.view env) (strnview s.keySize key) A' B' := by
  obtain ⟨pos, hpos, hfits⟩ := position_spec (v := s.view env) (k := strnview s.keySize key)
    (fun y hy => compareKeyAndNode_eq hi env key (hl.allocated_behind y hy)) hl.next_finger_zero
  simp only [locate, hl.finger_zero, deref_some, ok_bind, hpos, pure_eq_ok]
  cases pos with
  | atEnd =>
    exact Or.inr ⟨s.prev, A, B, rfl, rfl, hl, hfits.cut hv hne (by simp) (by simp)⟩
  | between =>
    exact Or.inr ⟨s.prev, A, B, rfl, rfl, hl, hfits.cut hv hne (by simp) (by simp)⟩
  | onNext =>
    obtain ⟨-, n, hn, he⟩ := hfits
    exact absurd he (hdiff n (List.mem_append_right _ (List.mem_of_mem_head? hn)))
  | onFinger =>
    rcases List.eq_nil_or_concat' A with rfl | ⟨A', a, rfl⟩
    · exact Or.inl ⟨rfl, hfits, rfl⟩
    · have hlast := lastFrom_mem_of_ne_nil s.head (show A' ++ [a] ≠ [] by simp)
      exact absurd hfits (hdiff _ (List.mem_append_left _ hlast))
  | behind =>
    obtain ⟨prev', A', B', he, hrest⟩ := findLessThan_spec hl hi env key hv
    exact Or.inr ⟨prev', A', B', by simp only [he, ok_bind], hrest⟩
  | ahead =>
    obtain ⟨prev', A', B', he, hrest⟩ := findNextNode_spec hl hi env key hv fun a ha => by
      have hle := SortedBy.le_lastFrom (List.pairwise_append.mp hv).1 s.head a ha
      exact lt_of_le_of_lt hle hfits.1
    exact Or.inr ⟨prev', A', B', by simp only [he, ok_bind], hrest⟩

structure Linked (s s' : MemorySkipList) (key : Key) (height : ℕ) : Prop where
  length : s'.nodes.length = s.nodes.length + 1
  head : s'.head = s.head
  kMaxHeight : s'.kMaxHeight = s.kMaxHeight
  keySize : s'.keySize = s.keySize
  keyAt_new : s'.keyAt s.nodes.length = some key
  keyAt_old : ∀ y < s.nodes.length, s'.keyAt y = s.keyAt y
  height_new : s'.nodes.height s.nodes.length = height
  height_old : ∀ y < s.nodes.length, s'.nodes.height y = s.nodes.height y

theorem keyAt_eq (s : MemorySkipList) (y : ℕ) :
    s.keyAt y = (s.nodes[y]?.map Node.payload).bind DramNode.key := by
  rw [keyAt, Option.bind_map]
  rfl

theorem linkNode_spec (hl : Located s A B) (key : Key) {height : ℕ} (hpos : 1 ≤ height)
    (hle : height ≤ s.kMaxHeight) :
    ∃ s', s.linkNode key height = .ok s' ∧ Linked s s' key height ∧
      Located s' (A ++ [s.nodes.length]) B := by
  have hraised := (hl.raise hle).alloc (newNode key height) height
  have hself := Arena.alloc_height_self s.nodes (newNode key height) height
  obtain ⟨m', prev', log', he, hm, hlinked, -⟩ :=
    hraised.link hl.fresh_not_mem (by simp) (by rw [hself]; exact hpos)
      (by rw [hself]; exact le_max_right _ _) (fun _ _ _ => ([] : List Unit)) (fun _ => []) []
  rw [hself] at he
  refine ⟨_, by simp only [linkNode, he, deref_some, ok_bind]; rfl, ?_, hlinked⟩
  exact {
    length := hm.length.trans (Arena.alloc_length _ _ _)
    head := rfl
    kMaxHeight := rfl
    keySize := rfl
    keyAt_new := by
      rw [keyAt_eq]
      simp only [hm.payload, Arena.alloc_payload_self, Option.bind_some, newNode]
    keyAt_old := fun y hy => by
      rw [keyAt_eq, keyAt_eq]
      simp only [hm.payload, Arena.alloc_getElem? hy]
    height_new := (hm.height _).trans hself
    height_old := fun y hy => (hm.height y).trans (Arena.alloc_height_of_lt hy _ height) }

/-- The list between two calls of `Insert`, after the calls `done`. -/
structure Sorted (s : MemorySkipList) (done : List Call) (A B : List ℕ) : Prop where
  located : Located s A B
  started : A = [] → B = []
  intact : s.Intact
  sentinel : s.keyOf s.head = [32]
  filled : Filled s.keySize s.keyOf s.nodes.height done A B

theorem new_next {maxHeight : ℕ} (keySize : ℕ) {i : ℕ} (hi : i < maxHeight % 2 ^ 16) :
    (new maxHeight keySize).nodes.next i 0 = some none := by
  have hi' : i < (List.replicate (maxHeight % 2 ^ 16) (some (none : Ptr))).length := by
    rwa [List.length_replicate]
  simp only [new, Arena.next, List.getElem?_cons_zero, Option.bind_some]
  rw [List.getElem?_append_left hi', List.getElem?_replicate, if_pos hi]
  rfl

theorem new_sorted {maxHeight : ℕ} (keySize : ℕ) (h : 0 < maxHeight % 2 ^ 16) :
    Sorted (new maxHeight keySize) [] [] [] where
  located := by
    have hne : maxHeight % 65536 ≠ 0 := Nat.pos_iff_ne_zero.mp h
    exact {
      chains := fun i hi => Chain.nil (new_next keySize hi)
      nodup := by simp
      allocated := by simp [new]
      headTall := by simp [new, Arena.height]
      heights := by simp
      fingers := fun i hi => by
        obtain rfl : i = 0 := Nat.lt_one_iff.mp hi
        simp [new, List.getElem?_replicate, hne]
      prevLength := by simp [new]
      maxHeight_pos := Nat.one_pos
      maxHeight_le := h }
  started _ := rfl
  intact y hy := by
    obtain rfl : y = 0 := Nat.lt_one_iff.mp hy
    rfl
  sentinel := rfl
  filled := Filled.empty _ _ _

/-- A key whose window starts with a byte above the blank. -/
def Printable (keySize : ℕ) (key : Key) : Prop :=
  ∃ b, (key.take keySize).head? = some b ∧ 32 < b

/-- Whatever follows the sentinel in memory, such a key lies behind it. -/
theorem sentinel_lt {keySize : ℕ} (h : Printable keySize key) (junk : List UInt8) :
    strnview keySize ([32] ++ junk) < strnview keySize key := by
  obtain ⟨b, hb, hlt⟩ := h
  have hb0 : b ≠ 0 := by
    rintro rfl
    exact absurd hlt (by decide)
  have hlt' : (32 : UInt8).toNat < b.toNat := UInt8.lt_iff_toNat_lt.mp hlt
  have hn : 0 < keySize := by
    rcases Nat.eq_zero_or_pos keySize with rfl | hn
    · simp at hb
    · exact hn
  have hfirst : key.headD 0 = b := by
    cases key with
    | nil => simp at hb
    | cons a key =>
      obtain ⟨n, rfl⟩ : ∃ n, keySize = n + 1 := ⟨keySize - 1, by omega⟩
      simpa using hb
  rw [strnview_cons_eq_cons (x := 32) rfl (by decide) hn, strnview_cons_eq_cons hfirst hb0 hn]
  exact List.cons_lt_cons_iff.mpr (Or.inl hlt')

/-- One `Insert`, from where its first half has found a place for the key. -/
theorem Sorted.insert_located (hs : Sorted s done A B) (c : Call) {prev' A' B' : List ℕ}
    (ht : s.locate c.toEnv c.key = .ok ({ s with prev := prev' }, false))
    (hsame : A ++ B = A' ++ B')
    (hl : FingerList s.nodes s.head prev' s.maxHeight s.kMaxHeight A' B')
    (hcut : Cut (s.view c.toEnv) (strnview s.keySize c.key) A' B')
    (hkey : s.keySize ≤ c.key.length) (hpos : 1 ≤ c.height) (hle : c.height ≤ s.kMaxHeight) :
    ∃ s' A' B', s.insert c = .ok s' ∧ s'.keySize = s.keySize ∧ s'.kMaxHeight = s.kMaxHeight ∧
      Sorted s' (done ++ [c]) A' B' := by
  obtain ⟨s', he, hlink, hl'⟩ :=
    linkNode_spec (s := { s with prev := prev' }) hl c.key hpos hle
  have hlt : ∀ y ∈ A' ++ B', y < s.nodes.length := fun y hy =>
    hs.located.allocated y (List.mem_cons_of_mem _ (hsame ▸ hy))
  have hold : ∀ y < s.nodes.length, s'.keyOf y = s.keyOf y := fun y hy => by
    rw [keyOf, hlink.keyAt_old y hy]
    rfl
  have hnew : s'.keyOf s.nodes.length = c.key := by
    rw [keyOf, hlink.keyAt_new]
    rfl
  have hfilled := hs.filled.insert hsame c.toEnv hcut hkey hnew hlink.height_new fun y hy =>
    ⟨hold y (hlt y hy), hlink.height_old y (hlt y hy)⟩
  refine ⟨s', A' ++ [s.nodes.length], B', ?_, hlink.keySize, hlink.kMaxHeight, hl', by simp, ?_,
    ?_, ?_⟩
  · simp only [MemorySkipList.insert, ht, ok_bind]
    exact he
  · intro y hy
    rw [hlink.length] at hy
    rcases Nat.lt_succ_iff_lt_or_eq.mp hy with hy | rfl
    · rw [hold y hy, hlink.keyAt_old y hy]
      exact hs.intact y hy
    · exact hlink.keyAt_new.trans (congrArg some hnew.symm)
  · rw [hlink.head, hold _ (hs.located.allocated _ (by simp))]
    exact hs.sentinel
  · rw [hlink.keySize]
    exact hfilled

theorem Sorted.insert_of_ne (hs : Sorted s done A B) (c : Call)
    (hkey : s.keySize ≤ c.key.length) (hdiff : ∀ d ∈ done, strncmp d.key c.key s.keySize ≠ 0)
    (hhead : A = [] → s.view c.toEnv s.head ≠ strnview s.keySize c.key)
    (hpos : 1 ≤ c.height) (hle : c.height ≤ s.kMaxHeight) :
    ∃ s' A' B', s.insert c = .ok s' ∧ s'.keySize = s.keySize ∧ s'.kMaxHeight = s.kMaxHeight ∧
      Sorted s' (done ++ [c]) A' B' := by
  rcases locate_cases hs.located hs.started hs.intact
    (fun y hy => hs.filled.view_ne c.toEnv hdiff hy) (hs.filled.sorted_view c.toEnv) with
    ⟨hA, he, -⟩ | ⟨prev', A', B', ht, hsame, hl, hcut⟩
  · exact absurd he (hhead hA)
  · exact hs.insert_located c ht hsame hl hcut hkey hpos hle

theorem Sorted.insert (hs : Sorted s done A B) (c : Call) (hkey : s.keySize ≤ c.key.length)
    (hdiff : ∀ d ∈ done, strncmp d.key c.key s.keySize ≠ 0) (hfirst : Printable s.keySize c.key)
    (hpos : 1 ≤ c.height) (hle : c.height ≤ s.kMaxHeight) :
    ∃ s' A' B', s.insert c = .ok s' ∧ s'.keySize = s.keySize ∧ s'.kMaxHeight = s.kMaxHeight ∧
      Sorted s' (done ++ [c]) A' B' := by
  apply hs.insert_of_ne c hkey hdiff _ hpos hle
  intro _
  rw [view, hs.sentinel]
  exact (sentinel_lt hfirst _).ne

/-- A run of `Insert` calls on keys that are pairwise different and not in the list yet. The
sentinel matters to the first key of an empty list only. -/
theorem Sorted.insertAll_of_first (hs : Sorted s done A B)
    (hdiff : (done ++ calls).Pairwise fun c d => strncmp c.key d.key s.keySize ≠ 0)
    (hcalls : ∀ c ∈ calls, s.keySize ≤ c.key.length ∧ 1 ≤ c.height ∧ c.height ≤ s.kMaxHeight)
    (hfirst : A = [] → ∀ c, calls.head? = some c →
      s.view c.toEnv s.head ≠ strnview s.keySize c.key) :
    ∃ s' A' B', s.insertAll calls = .ok s' ∧ s'.keySize = s.keySize ∧
      s'.kMaxHeight = s.kMaxHeight ∧ Sorted s' (done ++ calls) A' B' := by
  induction calls generalizing s done A B with
  | nil =>
    refine ⟨s, A, B, rfl, rfl, rfl, ?_⟩
    rw [List.append_nil]
    exact hs
  | cons c calls ih =>
    obtain ⟨hkey, hpos, hle⟩ := hcalls c (by simp)
    have hnew : ∀ d ∈ done, strncmp d.key c.key s.keySize ≠ 0 := fun d hd =>
      (List.pairwise_append.mp hdiff).2.2 d hd c (by simp)
    obtain ⟨t, A', B', he, hsize, hk, ht⟩ :=
      hs.insert_of_ne c hkey hnew (fun hA => hfirst hA c rfl) hpos hle
    have hA' : A' ≠ [] := by
      intro hA'
      apply ht.filled.ne_nil (by simp)
      rw [hA', ht.started hA', List.append_nil]
    rw [List.append_cons, ← hsize] at hdiff
    obtain ⟨s', A'', B'', he', hsize', hk', hs'⟩ := ih ht hdiff (by
      rw [hsize, hk]
      exact fun c' hc' => hcalls c' (List.mem_cons_of_mem _ hc')) fun hnil => absurd hnil hA'
    rw [← List.append_cons] at hs'
    refine ⟨s', A'', B'', ?_, hsize'.trans hsize, hk'.trans hk, hs'⟩
    rw [MemorySkipList.insertAll, List.foldlM_cons, he, ok_bind]
    exact he'

theorem Sorted.insertAll (hs : Sorted s done A B)
    (hdiff : (done ++ calls).Pairwise fun c d => strncmp c.key d.key s.keySize ≠ 0)
    (hcalls : ∀ c ∈ calls, s.keySize ≤ c.key.length ∧ Printable s.keySize c.key ∧
      1 ≤ c.height ∧ c.height ≤ s.kMaxHeight) :
    ∃ s' A' B', s.insertAll calls = .ok s' ∧ s'.keySize = s.keySize ∧
      s'.kMaxHeight = s.kMaxHeight ∧ Sorted s' (done ++ calls) A' B' := by
  apply hs.insertAll_of_first hdiff
  · intro c hc
    exact ⟨(hcalls c hc).1, (hcalls c hc).2.2⟩
  · intro _ c hc
    rw [view, hs.sentinel]
    exact (sentinel_lt (hcalls c (List.mem_of_mem_head? hc)).2.1 _).ne

/-- What a list that was filled by `calls` represents: their layout, in increasing order. -/
structure Represents (s : MemorySkipList) (calls : List Call) (L : List ℕ) : Prop
    extends Layout s.nodes s.keyOf s.head s.prev s.maxHeight s.kMaxHeight calls L where
  increasing : L.Pairwise fun a b => strncmp (s.keyOf a) (s.keyOf b) s.keySize < 0

end PersistTree.MemorySkipList
