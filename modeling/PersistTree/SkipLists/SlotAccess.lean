import PersistTree.Library.SlotTrace
import PersistTree.SkipLists.MemoryInvariant
import PersistTree.SkipLists.MemoryOverwrite
import PersistTree.SkipLists.PersistentInvariant

/-!
# The slot accesses of the two lists

Every `Next` and `SetNext` of `Insert`, of the searches and of `PrintLevelNum`, in program order,
read off the same case distinctions and loops. `NewNode` reserves slots without writing them. That
each access is to a slot that is there, and each read to one that was written, follows from the
fingers: the finger of a level is always a node taller than the level.
-/
namespace PersistTree

open Library

/-- The reads of `prev_[0]->Next(0)` at the start of `Insert`: for the test against null, and again
for the comparison. -/
def positionSlots (compareKeyAndNode : ℕ → Except Fault ℤ) (next : ℕ → Option Ptr) (p : ℕ) :
    List SlotOp :=
  match compareKeyAndNode p with
  | .ok res =>
    if 0 < res then
      .next p 0 :: match next p with
        | some (some _) => [.next p 0]
        | _ => []
    else []
  | .error _ => []

def searchSlots (next : ℕ → ℕ → Option Ptr) (after : ℕ → Option Bool) (fuel maxHeight x : ℕ) :
    List SlotOp :=
  (descendSlots next after fuel maxHeight x).map fun r => .next r.2 r.1

def locateSlots (compareKeyAndNode : ℕ → Except Fault ℤ) (next : ℕ → ℕ → Option Ptr)
    (after : ℕ → Option Bool) (fuel maxHeight head : ℕ) (prev : List ℕ) : List SlotOp :=
  match prev[0]? with
  | none => []
  | some p =>
    positionSlots compareKeyAndNode (next 0) p ++
      match position compareKeyAndNode (next 0) p with
      | .ok .ahead =>
        match prev[maxHeight - 1]? with
        | some x => searchSlots next after fuel maxHeight x
        | none => []
      | .ok .behind => searchSlots next after fuel maxHeight head
      | _ => []

def linkSlots (x height head maxHeight : ℕ) (prev : List ℕ) : List SlotOp :=
  .newNode x height ::
    spliceSlots x height 0 (raiseFingers head maxHeight (height - maxHeight) prev)

def newSlots (maxHeight : ℕ) : List SlotOp :=
  .newNode 0 maxHeight :: (List.range (maxHeight % 2 ^ 16)).map (.setNext 0)

section

variable {δ : Type} {m : Arena δ} {cmp : ℕ → Except Fault ℤ} {after : ℕ → Option Bool}
  {P : ℕ → Bool} {head mh N p : ℕ} {prev A B : List ℕ} {next : ℕ → Option Ptr} {op : SlotOp}

theorem positionSlots_readable {pos : Position} (h : position cmp next p = .ok pos)
    (hop : op ∈ positionSlots cmp next p) : op = .next p 0 ∧ ∃ q, next p = some q := by
  obtain ⟨res, hres, h⟩ := bind_eq_ok.mp h
  simp only [positionSlots, hres] at hop
  by_cases hlt : 0 < res
  · rw [if_pos hlt] at h hop
    obtain ⟨q, hq, -⟩ := bind_eq_ok.mp h
    have hq' := deref_eq_ok.mp hq
    refine ⟨?_, q, hq'⟩
    rw [hq'] at hop
    cases q with
    | none => simpa using hop
    | some q => simpa using hop
  · rw [if_neg hlt] at hop
    cases hop

theorem searchSlots_readable {x fuel : ℕ} {r : List ℕ × ℕ}
    (h : descend m.next after fuel mh x prev = some r)
    (hop : op ∈ searchSlots m.next after fuel mh x) :
    ∃ y i q, op = .next y i ∧ m.next i y = some q := by
  obtain ⟨⟨i, y⟩, hy, rfl⟩ := List.mem_map.mp hop
  obtain ⟨q, hq⟩ := descend_readable h hy
  exact ⟨y, i, q, rfl, hq⟩

theorem locateSlots_readable (hl : FingerList m head prev mh N A B)
    (hafter : ∀ y ∈ A ++ B, after y = some (P y)) {pos : Position}
    (hpos : position cmp (m.next 0) (lastFrom head A) = .ok pos)
    (hop : op ∈ locateSlots cmp m.next after (m.length + 1) mh head prev) :
    ∃ y i q, op = .next y i ∧ m.next i y = some q := by
  rw [locateSlots, hl.finger_zero] at hop
  simp only [hpos] at hop
  rcases List.mem_append.mp hop with hop | hop
  · obtain ⟨rfl, q, hq⟩ := positionSlots_readable hpos hop
    exact ⟨_, _, q, rfl, hq⟩
  · cases pos with
    | ahead =>
      obtain ⟨x, prev', hops, -, -, hx, hd, -⟩ := hl.search_finger hafter
      simp only [hx] at hop
      exact searchSlots_readable hd hop
    | behind =>
      obtain ⟨prev', hops, -, -, hd, -⟩ := hl.search_head hafter
      exact searchSlots_readable hd hop
    | atEnd | between | onNext | onFinger => cases hop

end

namespace PersistentSkipList

variable {s s' t : PersistentSkipList} {c : Call} {calls : List Call} {A B : List ℕ}
  {ops : List SlotOp}

def locateSlots (s : PersistentSkipList) (env : Env) (key : Key) : List SlotOp :=
  PersistTree.locateSlots (s.compareKeyAndNode env key) s.nodes.next (s.keyIsAfterNode env key)
    (s.nodes.length + 1) s.maxHeight s.head s.prev

def linkSlots (s : PersistentSkipList) (height : ℕ) : List SlotOp :=
  PersistTree.linkSlots s.nodes.length height s.head s.maxHeight s.prev

def insertSlots (s : PersistentSkipList) (c : Call) : List SlotOp :=
  s.locateSlots c.toEnv c.key ++ match s.locate c.toEnv c.key with
    | .ok s => s.linkSlots c.height
    | .error _ => []

/-- A run that a fault ends has no accesses after it. -/
def insertAllSlots (s : PersistentSkipList) : List Call → List SlotOp
  | [] => []
  | c :: calls =>
    s.insertSlots c ++ match s.insert c with
      | .ok s => insertAllSlots s calls
      | .error _ => []

/-- `PrintLevelNum`: the number of nodes on each level. -/
def printLevelNum (s : PersistentSkipList) : Except Fault (List ℕ) :=
  (List.range s.kMaxHeight).mapM fun i => do
    let r ← deref (walk (s.nodes.next i) (fun _ => some true) (s.nodes.length + 1) s.head)
    return r.2

def printLevelSlots (s : PersistentSkipList) : List SlotOp :=
  (List.range s.kMaxHeight).flatMap fun i =>
    (walkSlots (s.nodes.next i) (fun _ => some true) (s.nodes.length + 1) s.head).map (.next · i)

theorem Located.locateSlots_readable (hl : Located s A B) {env : Env} {key : Key} {op : SlotOp}
    (hop : op ∈ s.locateSlots env key) : ∃ y i q, op = .next y i ∧ s.nodes.next i y = some q := by
  obtain ⟨pos, hpos, -⟩ := position_spec (v := s.view env) (k := strnview s.keySize key)
    (fun y hy => compareKeyAndNode_eq env key (hl.allocated_behind y hy)) hl.next_finger_zero
  exact PersistTree.locateSlots_readable hl (after_spec hl env key) hpos hop

theorem recorded_linkNode {key : Key} {height : ℕ} (h : Recorded ops s.nodes)
    (hs : s.linkNode key height = .ok s') : Recorded (ops ++ s.linkSlots height) s'.nodes := by
  obtain ⟨⟨m, prev, log⟩, hr, hs⟩ := bind_eq_ok.mp hs
  obtain rfl := Except.ok.inj hs
  have hnew := (h.alloc key height).splice (deref_eq_ok.mp hr)
  rwa [List.append_assoc] at hnew

theorem Valid.recorded_insert (hv : Valid s A B) (h : Recorded ops s.nodes)
    (hheight : 1 ≤ c.height ∧ c.height ≤ s.kMaxHeight) :
    ∃ m, Recorded (ops ++ s.insertSlots c) m ∧ ∀ s', s.insert c = .ok s' → s'.nodes = m := by
  have hlocate : Recorded (ops ++ s.locateSlots c.toEnv c.key) s.nodes :=
    h.reads fun op hop => hv.located.locateSlots_readable hop
  rw [insertSlots, PersistentSkipList.insert, ← List.append_assoc]
  rcases locate_outcome hv.located hv.started c.toEnv c.key with
    ⟨-, he⟩ | ⟨t, A', B', ht, hst, -, hl, -⟩
  · rw [he, List.append_nil]
    exact ⟨s.nodes, hlocate, fun s' hs' => by cases hs'⟩
  · rw [← hst.nodes] at hlocate
    obtain ⟨s', hs', -⟩ := linkNode_spec hl c.key hheight.1 (hst.kMaxHeight ▸ hheight.2)
    simp only [ht, ok_bind, hs']
    exact ⟨s'.nodes, recorded_linkNode hlocate hs', fun u hu => by rw [Except.ok.inj hu]⟩

theorem Valid.recorded_insertAll (hv : Valid s A B) (h : Recorded ops s.nodes)
    (hheights : ∀ c ∈ calls, 1 ≤ c.height ∧ c.height ≤ s.kMaxHeight) :
    ∃ m, Recorded (ops ++ s.insertAllSlots calls) m ∧
      ∀ s', s.insertAll calls = .ok s' → s'.nodes = m := by
  induction calls generalizing s A B ops with
  | nil =>
    refine ⟨s.nodes, ?_, fun s' hs' => by rw [Except.ok.inj hs']⟩
    rw [insertAllSlots, List.append_nil]
    exact h
  | cons c calls ih =>
    have hheight := hheights c (by simp)
    obtain ⟨m, hm, hnodes⟩ := hv.recorded_insert h hheight
    rw [insertAllSlots, PersistentSkipList.insertAll, List.foldlM_cons, ← List.append_assoc]
    rcases hins : s.insert c with e | t
    · rw [List.append_nil]
      exact ⟨m, hm, fun s' hs' => by cases hs'⟩
    · obtain ⟨hcfg, -, -, A', B', hv'⟩ := hv.insert hheight hins
      rw [← hnodes t hins] at hm
      have hrest : ∀ d ∈ calls, 1 ≤ d.height ∧ d.height ≤ t.kMaxHeight := by
        rw [hcfg.kMaxHeight]
        exact fun d hd => hheights d (List.mem_cons_of_mem c hd)
      exact ih hv' hm hrest

theorem Located.walk_level (hl : Located s A B) {i : ℕ} (hi : i < s.kMaxHeight) :
    walk (s.nodes.next i) (fun _ => some true) (s.nodes.length + 1) s.head =
      some (lastFrom s.head (level s.nodes.height i (A ++ B)),
        (level s.nodes.height i (A ++ B)).length) := by
  have hlen : (level s.nodes.height i (A ++ B)).length < s.nodes.length + 1 :=
    lt_of_le_of_lt (level_sublist i _).length_le hl.length_lt
  have hall : (level s.nodes.height i (A ++ B)).takeWhile (fun _ => true) =
      level s.nodes.height i (A ++ B) := List.takeWhile_eq_self_iff.mpr fun _ _ => rfl
  rw [walk_eq (P := fun _ => true) (hl.chains i hi) (fun _ _ => rfl) hlen, hall]

theorem Located.printLevelNum_eq (hl : Located s A B) : s.printLevelNum =
    .ok ((List.range s.kMaxHeight).map fun i => (level s.nodes.height i (A ++ B)).length) := by
  refine mapM_eq_ok fun i hi => ?_
  rw [hl.walk_level (List.mem_range.mp hi), deref_some, ok_bind]
  rfl

theorem Located.printLevelSlots_readable (hl : Located s A B) {op : SlotOp}
    (hop : op ∈ s.printLevelSlots) : ∃ y i q, op = .next y i ∧ s.nodes.next i y = some q := by
  obtain ⟨i, hi, hop⟩ := List.mem_flatMap.mp hop
  obtain ⟨y, hy, rfl⟩ := List.mem_map.mp hop
  obtain ⟨q, hq⟩ := walk_readable (hl.walk_level (List.mem_range.mp hi)) hy
  exact ⟨y, i, q, rfl, hq⟩

theorem recorded_new (maxHeight keySize optNum per1gNum : ℕ) :
    Recorded (newSlots maxHeight) (new maxHeight keySize optNum per1gNum).nodes :=
  Recorded.head [32] (Nat.mod_le _ _)

end PersistentSkipList

namespace MemorySkipList

variable {s s' t : MemorySkipList} {c : Call} {calls : List Call} {A B : List ℕ}
  {ops : List SlotOp} {env : Env} {key : Key}

def locateSlots (s : MemorySkipList) (env : Env) (key : Key) : List SlotOp :=
  PersistTree.locateSlots (s.compareKeyAndNode env key) s.nodes.next (s.keyIsAfterNode env key)
    (s.nodes.length + 1) s.maxHeight s.head s.prev

def linkSlots (s : MemorySkipList) (height : ℕ) : List SlotOp :=
  PersistTree.linkSlots s.nodes.length height s.head s.maxHeight s.prev

/-- The copy over a node goes through no `SetNext`. -/
def insertSlots (s : MemorySkipList) (c : Call) : List SlotOp :=
  s.locateSlots c.toEnv c.key ++ match s.locate c.toEnv c.key with
    | .ok (s, false) => s.linkSlots c.height
    | _ => []

def insertAllSlots (s : MemorySkipList) : List Call → List SlotOp
  | [] => []
  | c :: calls =>
    s.insertSlots c ++ match s.insert c with
      | .ok s => insertAllSlots s calls
      | .error _ => []

/-- The list between two calls of `Insert`, as long as no node has been damaged. -/
structure Sound (s : MemorySkipList) (A B : List ℕ) : Prop where
  located : Located s A B
  intact : s.Intact

/-- Up to a node whose key cannot be read, the slots of level 0 can be. -/
def Flushable (s : MemorySkipList) : Prop :=
  ∃ nxt L, Chain nxt s.head L ∧
    ∀ y, s.nodes.next 0 y = nxt y ∨ s.nodes.next 0 y = none ∧ s.keyAt y = none

theorem Sound.flushable (hs : Sound s A B) : s.Flushable :=
  ⟨_, _, hs.located.base, fun _ => Or.inl rfl⟩

theorem Sound.position (hs : Sound s A B) (env : Env) (key : Key) : ∃ pos,
    PersistTree.position (s.compareKeyAndNode env key) (s.nodes.next 0) (lastFrom s.head A) =
      .ok pos := by
  obtain ⟨pos, hpos, -⟩ := position_spec (v := s.view env) (k := strnview s.keySize key)
    (fun y hy => compareKeyAndNode_eq hs.intact env key (hs.located.allocated_behind y hy))
    hs.located.next_finger_zero
  exact ⟨pos, hpos⟩

theorem Sound.locate (hs : Sound s A B) (env : Env) (key : Key) : ∃ prev' A' B' same,
    s.locate env key = .ok ({ s with prev := prev' }, same) ∧ (same = true → prev' = s.prev) ∧
      FingerList s.nodes s.head prev' s.maxHeight s.kMaxHeight A' B' := by
  obtain ⟨pos, hpos⟩ := hs.position env key
  have hafter := after_spec hs.located hs.intact env key
  simp only [MemorySkipList.locate, hs.located.finger_zero, deref_some, ok_bind, hpos, pure_eq_ok]
  cases pos with
  | atEnd | between => exact ⟨s.prev, A, B, false, rfl, fun _ => rfl, hs.located⟩
  | onNext | onFinger => exact ⟨s.prev, A, B, true, rfl, fun _ => rfl, hs.located⟩
  | behind =>
    obtain ⟨prev', hops, A', B', hd, -, hl, -⟩ := hs.located.search_head hafter
    refine ⟨prev', A', B', false, ?_, by simp, hl⟩
    simp only [findLessThan, searchFrom, hd, deref_some, ok_bind, pure_eq_ok]
  | ahead =>
    obtain ⟨x, prev', hops, A', B', hx, hd, -, hl, -⟩ := hs.located.search_finger hafter
    refine ⟨prev', A', B', false, ?_, by simp, hl⟩
    simp only [findNextNode, searchFrom, hx, hd, deref_some, ok_bind, pure_eq_ok]

theorem Sound.locateSlots_readable (hs : Sound s A B) {op : SlotOp}
    (hop : op ∈ s.locateSlots env key) : ∃ y i q, op = .next y i ∧ s.nodes.next i y = some q := by
  obtain ⟨pos, hpos⟩ := hs.position env key
  exact PersistTree.locateSlots_readable hs.located (after_spec hs.located hs.intact env key) hpos
    hop

theorem recorded_linkNode {height : ℕ} (h : Recorded ops s.nodes)
    (hs : s.linkNode key height = .ok s') : Recorded (ops ++ s.linkSlots height) s'.nodes := by
  obtain ⟨⟨m, prev, log⟩, hr, hs⟩ := bind_eq_ok.mp hs
  obtain rfl := Except.ok.inj hs
  have hnew := (h.alloc (newNode key height) height).splice (deref_eq_ok.mp hr)
  rwa [List.append_assoc] at hnew

/-- After a copy over the finger's node the next `Insert` ends at once. -/
theorem Blocked.insertSlots (hd : s.Blocked) (c : Call) : s.insertSlots c = [] := by
  obtain ⟨p, hp, hkey⟩ := hd
  have hcmp : s.compareKeyAndNode c.toEnv c.key p = .error .badAccess := by
    rw [compareKeyAndNode, hkey]
    rfl
  have hpos : PersistTree.position (s.compareKeyAndNode c.toEnv c.key) (s.nodes.next 0) p =
      .error .badAccess := by
    rw [PersistTree.position, hcmp, error_bind]
  have hlocate : s.locate c.toEnv c.key = .error .badAccess := by
    rw [MemorySkipList.locate, hp, deref_some, ok_bind, hpos, error_bind]
  simp only [MemorySkipList.insertSlots, locateSlots, PersistTree.locateSlots, hp, positionSlots,
    hcmp, hpos, hlocate, List.append_nil]

/-- The copy reserves no slot and makes no link. -/
theorem recorded_overwriteFinger {p : ℕ} (hp : s.prev[0]? = some p) (h : Recorded ops s.nodes)
    (ht : s.overwriteFinger key = .ok t) : Recorded ops t.nodes := by
  obtain ⟨-, -, hnext⟩ := overwriteFinger_ok hp ht
  obtain ⟨n, n', hn, hn', rfl⟩ := overwriteFinger_nodes hp ht
  obtain ⟨hlt, -⟩ := List.getElem?_eq_some_iff.mp hn
  refine h.erase (List.length_set ..) (fun y => ?_) hnext
  by_cases hy : y = p
  · subst y
    simp only [Arena.height, List.getElem?_set_self hlt, hn, Option.map_some, overwrite_length hn']
  · simp only [Arena.height, List.getElem?_set_ne (Ne.symm hy)]

theorem map_getElem?_set {β γ : Type} {l : List β} {p : ℕ} {n n' : β} {f : β → γ}
    (hn : l[p]? = some n) (hf : f n' = f n) (y : ℕ) : (l.set p n')[y]?.map f = l[y]?.map f := by
  obtain ⟨hlt, -⟩ := List.getElem?_eq_some_iff.mp hn
  by_cases hy : y = p
  · rw [hy, List.getElem?_set_self hlt, hn, Option.map_some, Option.map_some, hf]
  · rw [List.getElem?_set_ne (Ne.symm hy)]

theorem Sound.overwrite_nil (hs : Sound s A B) (ht : s.overwriteFinger [] = .ok t) :
    Sound t A B := by
  obtain ⟨n, n', hn, hn', rfl⟩ := overwriteFinger_nodes hs.located.finger_zero ht
  obtain ⟨hkey, hslots⟩ := MemorySkipList.overwrite_nil hn'
  have hlen : (s.nodes.set (lastFrom s.head A) n').length = s.nodes.length := List.length_set ..
  have hnext : Arena.next (s.nodes.set (lastFrom s.head A) n') = s.nodes.next := by
    funext i y
    have h := congrArg (·.bind fun slots => slots[i]?.join)
      (map_getElem?_set (f := Node.slots) hn hslots y)
    simp only [Option.bind_map] at h
    exact h
  have hheight : Arena.height (s.nodes.set (lastFrom s.head A) n') = s.nodes.height := by
    funext y
    have h := map_getElem?_set (f := fun n => n.slots.length) hn (congrArg List.length hslots) y
    exact congrArg (·.getD 0) h
  have hkeyAt : ∀ y, MemorySkipList.keyAt { s with nodes := s.nodes.set (lastFrom s.head A) n' } y =
      s.keyAt y := by
    intro y
    have h := congrArg (·.bind id) (map_getElem?_set (f := fun n => n.payload.key) hn hkey y)
    simp only [Option.bind_map] at h
    exact h
  refine ⟨hs.located.congr hnext hheight hlen, ?_⟩
  intro y hy
  rw [MemorySkipList.keyOf, hkeyAt]
  exact hs.intact y (hlen ▸ hy)

/-- What the copy leaves: a list that can still be walked up to the damaged node. -/
theorem Sound.overwriteFinger (hs : Sound s A B) (ht : s.overwriteFinger key = .ok t) :
    t.head = s.head ∧ t.kMaxHeight = s.kMaxHeight ∧ t.Flushable ∧ (t.Blocked ∨ Sound t A B) := by
  by_cases hne : key = []
  · subst hne
    have ht' := hs.overwrite_nil ht
    obtain ⟨n, n', -, -, rfl⟩ := overwriteFinger_nodes hs.located.finger_zero ht
    exact ⟨rfl, rfl, ht'.flushable, Or.inr ht'⟩
  · have hp := hs.located.finger_zero
    obtain ⟨⟨n, rfl⟩, hkey, hnext⟩ := overwriteFinger_ok hp ht
    refine ⟨rfl, rfl, ⟨s.nodes.next 0, _, hs.located.base, fun y => ?_⟩, Or.inl ⟨_, hp, hkey hne⟩⟩
    by_cases hy : y = lastFrom s.head A
    · subst hy
      rcases hq : Arena.next (s.nodes.set (lastFrom s.head A) n) 0 (lastFrom s.head A) with _ | q
      · exact Or.inr ⟨rfl, hkey hne⟩
      · exact Or.inl (hnext 0 _ q hq).symm
    · refine Or.inl ?_
      simp only [Arena.next, List.getElem?_set_ne (Ne.symm hy)]

/-- The list between two calls of `Insert`, whatever the keys are. -/
structure Steady (s : MemorySkipList) : Prop where
  flushable : s.Flushable
  links : s.Blocked ∨ ∃ A B, Sound s A B

theorem Sound.steady (hs : Sound s A B) : s.Steady := ⟨hs.flushable, Or.inr ⟨A, B, hs⟩⟩

theorem Sound.link {height : ℕ} {prev' A' B' : List ℕ} (hi : s.Intact)
    (hlink : Linked { s with prev := prev' } s' key height)
    (hl : Located s' (A' ++ [s.nodes.length]) B') : Sound s' (A' ++ [s.nodes.length]) B' where
  located := hl
  intact y hy := by
    rw [hlink.length] at hy
    rcases Nat.lt_succ_iff_lt_or_eq.mp hy with hy | rfl
    · have hold : s'.keyAt y = s.keyAt y := hlink.keyAt_old y hy
      rw [keyOf, hold]
      exact hi y hy
    · have hnew : s'.keyAt s.nodes.length = some key := hlink.keyAt_new
      rw [keyOf, hnew]
      rfl

theorem Sound.recorded_insert (hs : Sound s A B) (h : Recorded ops s.nodes)
    (hheight : 1 ≤ c.height ∧ c.height ≤ s.kMaxHeight) :
    ∃ m, Recorded (ops ++ s.insertSlots c) m ∧ ∀ s', s.insert c = .ok s' →
      s'.nodes = m ∧ s'.head = s.head ∧ s'.kMaxHeight = s.kMaxHeight ∧ s'.Steady := by
  have hlocate : Recorded (ops ++ s.locateSlots c.toEnv c.key) s.nodes :=
    h.reads fun op hop => hs.locateSlots_readable hop
  obtain ⟨prev', A', B', same, hloc, hprev, hl⟩ := hs.locate c.toEnv c.key
  rw [insertSlots, MemorySkipList.insert, ← List.append_assoc, hloc]
  cases same with
  | true =>
    obtain rfl := hprev rfl
    rw [List.append_nil]
    rcases ht : s.overwriteFinger c.key with e | t
    · exact ⟨s.nodes, hlocate, fun s' hs' => by cases ht.symm.trans hs'⟩
    · obtain ⟨hhead, hk, hflush, hlinks⟩ := hs.overwriteFinger ht
      refine ⟨t.nodes, recorded_overwriteFinger hs.located.finger_zero hlocate ht, ?_⟩
      intro s' hs'
      obtain rfl := Except.ok.inj (ht.symm.trans hs')
      exact ⟨rfl, hhead, hk, hflush, hlinks.imp_right fun hs' => ⟨A, B, hs'⟩⟩
  | false =>
    obtain ⟨t, ht, hlink, hl'⟩ :=
      linkNode_spec (s := { s with prev := prev' }) hl c.key hheight.1 hheight.2
    refine ⟨t.nodes, recorded_linkNode (s := { s with prev := prev' }) hlocate ht, ?_⟩
    intro s' hs'
    obtain rfl := Except.ok.inj (ht.symm.trans hs')
    exact ⟨rfl, hlink.head, hlink.kMaxHeight, (Sound.link hs.intact hlink hl').steady⟩

theorem Steady.recorded_insertAll (hs : s.Steady) (h : Recorded ops s.nodes)
    (hheights : ∀ c ∈ calls, 1 ≤ c.height ∧ c.height ≤ s.kMaxHeight) :
    ∃ m, Recorded (ops ++ s.insertAllSlots calls) m ∧ ∀ s', s.insertAll calls = .ok s' →
      s'.nodes = m ∧ s'.head = s.head ∧ s'.Flushable := by
  induction calls generalizing s ops with
  | nil =>
    rw [insertAllSlots, List.append_nil]
    refine ⟨s.nodes, h, fun s' hs' => ?_⟩
    obtain rfl := Except.ok.inj hs'
    exact ⟨rfl, rfl, hs.flushable⟩
  | cons c calls ih =>
    rw [insertAllSlots, MemorySkipList.insertAll, List.foldlM_cons, ← List.append_assoc]
    rcases hs.links with hblocked | ⟨A, B, hsound⟩
    · rcases hins : s.insert c with e | t
      · rw [hblocked.insertSlots, List.append_nil, List.append_nil]
        exact ⟨s.nodes, h, fun s' hs' => by cases hs'⟩
      · exact absurd hins (hblocked.insert c)
    · obtain ⟨m, hm, hnext⟩ := hsound.recorded_insert h (hheights c (by simp))
      rcases hins : s.insert c with e | t
      · rw [List.append_nil]
        exact ⟨m, hm, fun s' hs' => by cases hs'⟩
      · obtain ⟨rfl, hhead, hk, ht⟩ := hnext t hins
        have hrest : ∀ d ∈ calls, 1 ≤ d.height ∧ d.height ≤ t.kMaxHeight := by
          rw [hk]
          exact fun d hd => hheights d (List.mem_cons_of_mem c hd)
        obtain ⟨m, hm', hall⟩ := ih ht hm hrest
        refine ⟨m, hm', fun s' hs' => ?_⟩
        obtain ⟨hnodes, hhead', hflush⟩ := hall s' hs'
        exact ⟨hnodes, hhead'.trans hhead, hflush⟩

theorem recorded_new (maxHeight keySize : ℕ) :
    Recorded (newSlots maxHeight) (new maxHeight keySize).nodes :=
  Recorded.head (newNode [32] maxHeight) (Nat.mod_le _ _)

end MemorySkipList

end PersistTree
