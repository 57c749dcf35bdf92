import PersistTree.SkipLists.Filled
import PersistTree.SkipLists.PersistentInvariant

/-!
# The contents of the NVM skip list

Every `Insert` of a key at least `key_size_` bytes long keeps the list sorted, and by induction so
does every sequence of them. Equal keys are inserted again next to each other.
-/
namespace PersistTree.PersistentSkipList

open Library

variable {s s' : PersistentSkipList} {A B : List ℕ} {done calls : List Call}

/-- The list between two calls of `Insert`, after the calls `done`. -/
structure Sorted (s : PersistentSkipList) (done : List Call) (A B : List ℕ) : Prop
    extends Valid s A B where
  filled : Filled s.keySize s.keyOf s.nodes.height done A B

theorem new_sorted {maxHeight : ℕ} (keySize optNum per1gNum : ℕ) (h : 0 < maxHeight % 2 ^ 16) :
    Sorted (new maxHeight keySize optNum per1gNum) [] [] [] where
  toValid := new_valid keySize optNum per1gNum h
  filled := Filled.empty _ _ _

theorem Sorted.insert (hs : Sorted s done A B) (c : Call) (hkey : s.keySize ≤ c.key.length)
    (hpos : 1 ≤ c.height) (hle : c.height ≤ s.kMaxHeight) :
    (s.per1gNum = 0 ∧ s.insert c = .error .divByZero) ∨
      ∃ s' A' B', s.insert c = .ok s' ∧ Linked s s' c.key c.height A' B' ∧
        Sorted s' (done ++ [c]) (A' ++ [s.nodes.length]) B' := by
  apply (insert_spec hs.toValid c hpos hle).imp id
  rintro ⟨s', A', B', he, hsame, hlink, hvalid, hcut⟩
  have hlt : ∀ y ∈ A' ++ B', y < s.nodes.length := fun y hy =>
    hs.located.allocated y (List.mem_cons_of_mem _ (hsame ▸ hy))
  have hfilled := hs.filled.insert hsame c.toEnv (hcut (hs.filled.sorted_view c.toEnv)) hkey
    hlink.keyOf_new hlink.height_new fun y hy =>
      ⟨hlink.keyOf_old y (hlt y hy), hlink.height_old (hlt y hy)⟩
  rw [← hlink.sameConfig.keySize] at hfilled
  exact ⟨s', A', B', he, hlink, hvalid, hfilled⟩

theorem Sorted.insertAll (hs : Sorted s done A B)
    (hcalls : ∀ c ∈ calls, s.keySize ≤ c.key.length ∧ 1 ≤ c.height ∧ c.height ≤ s.kMaxHeight) :
    (s.per1gNum = 0 ∧ s.insertAll calls = .error .divByZero) ∨
      ∃ s' A' B', s.insertAll calls = .ok s' ∧ SameConfig s s' ∧
        Sorted s' (done ++ calls) A' B' := by
  induction calls generalizing s done A B with
  | nil =>
    refine Or.inr ⟨s, A, B, rfl, SameConfig.refl s, ?_⟩
    rw [List.append_nil]
    exact hs
  | cons c calls ih =>
    obtain ⟨hkey, hpos, hle⟩ := hcalls c (by simp)
    rw [PersistentSkipList.insertAll, List.foldlM_cons]
    rcases hs.insert c hkey hpos hle with ⟨hz, he⟩ | ⟨t, A', B', he, hlink, ht⟩
    · exact Or.inl ⟨hz, by rw [he, error_bind]⟩
    · rw [he, ok_bind, List.append_cons]
      have hcfg := hlink.sameConfig
      have hrest : ∀ c' ∈ calls, t.keySize ≤ c'.key.length ∧ 1 ≤ c'.height ∧
          c'.height ≤ t.kMaxHeight := by
        rw [hcfg.keySize, hcfg.kMaxHeight]
        exact fun c' hc' => hcalls c' (List.mem_cons_of_mem _ hc')
      apply (ih ht hrest).imp (fun h => ⟨hcfg.per1gNum.symm.trans h.1, h.2⟩)
      rintro ⟨s', A'', B'', he', hcfg', hs'⟩
      exact ⟨s', A'', B'', he', hcfg.trans hcfg', hs'⟩

/-- What a list that was filled by `calls` represents: their layout, in non-decreasing order. -/
structure Represents (s : PersistentSkipList) (calls : List Call) (L : List ℕ) : Prop
    extends Layout s.nodes s.keyOf s.head s.prev s.maxHeight s.kMaxHeight calls L where
  sorted : L.Pairwise fun a b => strncmp (s.keyOf a) (s.keyOf b) s.keySize ≤ 0

theorem Sorted.represents (hs : Sorted s done A B) (hne : done ≠ []) :
    Represents s done (A ++ B) where
  toLayout := hs.filled.layout hs.located hs.started hne
  sorted := hs.filled.pairwise_le

/-- After every `Insert` the list represents exactly the calls made, unless a search divided by a
zero window length. -/
theorem insertAll_represents (maxHeight keySize optNum per1gNum : ℕ) (calls : List Call)
    (hne : calls ≠ []) (hkeys : ∀ c ∈ calls, keySize ≤ c.key.length)
    (hheights : ∀ c ∈ calls,
      1 ≤ c.height ∧ c.height ≤ (new maxHeight keySize optNum per1gNum).kMaxHeight) :
    (per1gNum = 0 ∧
        (new maxHeight keySize optNum per1gNum).insertAll calls = .error .divByZero) ∨
      ∃ s L, (new maxHeight keySize optNum per1gNum).insertAll calls = .ok s ∧
        s.keySize = keySize ∧ Represents s calls L := by
  obtain ⟨c, hc⟩ := List.exists_mem_of_ne_nil calls hne
  have hpos : 0 < maxHeight % 2 ^ 16 := lt_of_lt_of_le (hheights c hc).1 (hheights c hc).2
  have h := (new_sorted keySize optNum per1gNum hpos).insertAll fun c hc =>
    ⟨hkeys c hc, hheights c hc⟩
  apply h.imp id
  rintro ⟨s, A, B, he, hcfg, hs⟩
  exact ⟨s, A ++ B, he, hcfg.keySize, hs.represents hne⟩

/-- Three keys in falling order, the last two of them equal. -/
theorem insertAll_represents_repeated :
    ∃ s L, (new 2 1 0 1).insertAll
        [⟨⟨2, fun _ => [7]⟩, [99]⟩, ⟨⟨1, fun _ => []⟩, [98]⟩, ⟨⟨2, fun _ => []⟩, [98]⟩] = .ok s ∧
      s.keySize = 1 ∧ Represents s
        [⟨⟨2, fun _ => [7]⟩, [99]⟩, ⟨⟨1, fun _ => []⟩, [98]⟩, ⟨⟨2, fun _ => []⟩, [98]⟩] L := by
  refine (insertAll_represents 2 1 0 1 _ (by simp) ?_ ?_).resolve_left (by simp)
  · simp
  · simp [new]

end PersistTree.PersistentSkipList
