import Mathlib.Data.List.Perm.Subperm
import PersistTree.Library.FingerSearch
import PersistTree.Library.Splice

/-!
# Skip lists with fingers in an arena

The invariant of a skip list that keeps one finger per level: the nodes in base order are
`A ++ B`, level `i` links exactly the nodes taller than `i`, and the finger of level `i` is the
last node taller than `i` in `A`. The three parts of an insertion keep it: a search moves the
boundary between `A` and `B`, raising the list's height adds fingers at the head, and linking a
new node puts it at the end of `A`. None of them refers to keys.
-/
namespace PersistTree.Library

variable {δ ω : Type}

structure FingerList (m : Arena δ) (head : ℕ) (prev : List ℕ) (maxHeight N : ℕ)
    (A B : List ℕ) : Prop where
  chains : ∀ i < N, Chain (m.next i) head (level m.height i (A ++ B))
  nodup : (head :: (A ++ B)).Nodup
  allocated : ∀ y ∈ head :: (A ++ B), y < m.length
  headTall : N ≤ m.height head
  heights : ∀ y ∈ A ++ B, 0 < m.height y ∧ m.height y ≤ maxHeight
  fingers : ∀ i < maxHeight, prev[i]? = some (finger m.height head i A)
  prevLength : prev.length = N
  maxHeight_pos : 0 < maxHeight
  maxHeight_le : maxHeight ≤ N

theorem perm_insert (x : ℕ) (A B : List ℕ) : ((A ++ [x]) ++ B).Perm ((A ++ B) ++ [x]) := by
  rw [List.append_assoc, List.append_assoc]
  exact List.perm_append_comm.append_left A

/-- `for (i = lo; i < lo + n; i++) prev[i] = head`. -/
def raiseFingers (head : ℕ) : ℕ → ℕ → List ℕ → List ℕ
  | _, 0, prev => prev
  | lo, n + 1, prev => raiseFingers head (lo + 1) n (prev.set lo head)

theorem raiseFingers_length (head : ℕ) (n : ℕ) :
    ∀ (lo : ℕ) (prev : List ℕ), (raiseFingers head lo n prev).length = prev.length := by
  induction n with
  | zero => exact fun _ _ => rfl
  | succ n ih =>
    intro lo prev
    rw [raiseFingers, ih, List.length_set]

theorem raiseFingers_getElem? (head : ℕ) (n : ℕ) :
    ∀ (lo : ℕ) (prev : List ℕ), lo + n ≤ prev.length → ∀ j, (raiseFingers head lo n prev)[j]? =
      if lo ≤ j ∧ j < lo + n then some head else prev[j]? := by
  induction n with
  | zero =>
    intro lo prev _ j
    rw [if_neg (by omega), raiseFingers]
  | succ n ih =>
    intro lo prev hlen j
    rw [raiseFingers, ih (lo + 1) _ (by rw [List.length_set]; omega) j]
    by_cases hj : j = lo
    · subst j
      have hlt : lo < prev.length := by omega
      rw [if_neg (by omega), if_pos (by omega), List.getElem?_set_self hlt]
    · rw [List.getElem?_set_ne (Ne.symm hj)]
      by_cases hj' : lo ≤ j ∧ j < lo + (n + 1)
      · rw [if_pos hj', if_pos (by omega)]
      · rw [if_neg hj', if_neg (by omega)]

theorem raiseFingers_below (head : ℕ) (n : ℕ) :
    ∀ (lo : ℕ) (prev : List ℕ), ∀ j < lo, (raiseFingers head lo n prev)[j]? = prev[j]? := by
  induction n with
  | zero => exact fun _ _ _ _ => rfl
  | succ n ih =>
    intro lo prev j hj
    rw [raiseFingers, ih (lo + 1) _ j (by omega), List.getElem?_set_ne (by omega)]

namespace FingerList

variable {m : Arena δ} {head mh N : ℕ} {prev A B : List ℕ}

theorem finger_zero (hl : FingerList m head prev mh N A B) :
    prev[0]? = some (lastFrom head A) := by
  rw [hl.fingers 0 hl.maxHeight_pos,
    Library.finger_zero fun a ha => (hl.heights a (List.mem_append_left _ ha)).1]

theorem base (hl : FingerList m head prev mh N A B) : Chain (m.next 0) head (A ++ B) := by
  have hc := hl.chains 0 (lt_of_lt_of_le hl.maxHeight_pos hl.maxHeight_le)
  rwa [level_zero fun a ha => (hl.heights a ha).1] at hc

theorem length_lt (hl : FingerList m head prev mh N A B) : (A ++ B).length < m.length + 1 :=
  Nat.lt_succ_of_le (Arena.chain_length_le hl.base)

theorem next_finger_zero (hl : FingerList m head prev mh N A B) :
    m.next 0 (lastFrom head A) = some B.head? :=
  hl.base.next_lastFrom

theorem allocated_behind (hl : FingerList m head prev mh N A B) :
    ∀ y ∈ lastFrom head A :: B, y < m.length := by
  intro y hy
  apply hl.allocated y
  rcases List.mem_cons.mp hy with rfl | hy
  · rcases lastFrom_mem head A with he | hA
    · simp [he]
    · simp [hA]
  · simp [hy]

theorem congr {ε : Type} {m' : Arena ε} (hl : FingerList m head prev mh N A B)
    (hnext : m'.next = m.next) (hheight : m'.height = m.height) (hlen : m'.length = m.length) :
    FingerList m' head prev mh N A B where
  chains := by
    rw [hnext, hheight]
    exact hl.chains
  nodup := hl.nodup
  allocated := by
    rw [hlen]
    exact hl.allocated
  headTall := by
    rw [hheight]
    exact hl.headTall
  heights := by
    rw [hheight]
    exact hl.heights
  fingers := by
    rw [hheight]
    exact hl.fingers
  prevLength := hl.prevLength
  maxHeight_pos := hl.maxHeight_pos
  maxHeight_le := hl.maxHeight_le

variable {after : ℕ → Option Bool} {P : ℕ → Bool}

theorem of_searched (hl : FingerList m head prev mh N A B) {prev' A' B' : List ℕ}
    (hsame : A ++ B = A' ++ B') (hlen : prev'.length = prev.length)
    (hs : Searched m.height head P 0 mh prev' A' B') : FingerList m head prev' mh N A' B' where
  chains := hsame ▸ hl.chains
  nodup := hsame ▸ hl.nodup
  allocated := hsame ▸ hl.allocated
  headTall := hl.headTall
  heights := hsame ▸ hl.heights
  fingers i hi := hs.fingers i (Nat.zero_le i) hi
  prevLength := hlen.trans hl.prevLength
  maxHeight_pos := hl.maxHeight_pos
  maxHeight_le := hl.maxHeight_le

/-- A search that starts right after a prefix `A₀` of the list, at a node of the top level. -/
theorem search (hl : FingerList m head prev mh N A B)
    (ha : ∀ y ∈ A ++ B, after y = some (P y)) {A₀ B₀ : List ℕ} (hcut : A ++ B = A₀ ++ B₀)
    (htop : A₀ = [] ∨ mh ≤ m.height (lastFrom head A₀)) :
    ∃ prev' hops A' B',
      descend m.next after (m.length + 1) mh (lastFrom head A₀) prev = some (prev', hops) ∧
      A ++ B = A' ++ B' ∧ FingerList m head prev' mh N A' B' ∧
      (Decreasing P (A ++ B) → (∀ a ∈ A₀, P a = true) →
        (∀ a ∈ A', P a = true) ∧ ∀ d ∈ B', P d = false) := by
  have hstart : Searched m.height head P mh mh prev A₀ B₀ :=
    ⟨fun j h₁ h₂ => absurd h₂ (by omega), fun j h₁ h₂ => absurd h₂ (by omega)⟩
  obtain ⟨prev', hops, C, D, hd, hB, hlen, -, hs, hlast⟩ :=
    descend_spec (fun i hi => hl.chains i (lt_of_lt_of_le hi hl.maxHeight_le)) ha hl.length_lt
      mh prev A₀ B₀ le_rfl (hl.prevLength ▸ hl.maxHeight_le) hcut htop hstart
  have hsame : A ++ B = (A₀ ++ C) ++ D := by rw [hcut, hB, List.append_assoc]
  refine ⟨prev', hops, A₀ ++ C, D, hd, hsame, hl.of_searched hsame hlen hs, ?_⟩
  intro hm hA₀
  refine hs.separates hl.maxHeight_pos (fun d hd => ?_) ?_ hA₀ hlast
  · exact (hl.heights d (by rw [hsame]; exact List.mem_append_right _ hd)).1
  · rw [← List.append_assoc, ← hsame]
    exact hm

theorem search_head (hl : FingerList m head prev mh N A B)
    (ha : ∀ y ∈ A ++ B, after y = some (P y)) :
    ∃ prev' hops A' B', descend m.next after (m.length + 1) mh head prev = some (prev', hops) ∧
      A ++ B = A' ++ B' ∧ FingerList m head prev' mh N A' B' ∧
      (Decreasing P (A ++ B) → (∀ a ∈ A', P a = true) ∧ ∀ d ∈ B', P d = false) := by
  obtain ⟨prev', hops, A', B', hd, hsame, hl', hsep⟩ :=
    hl.search ha (show A ++ B = [] ++ (A ++ B) from rfl) (Or.inl rfl)
  exact ⟨prev', hops, A', B', hd, hsame, hl', fun hm => hsep hm (by simp)⟩

theorem search_finger (hl : FingerList m head prev mh N A B)
    (ha : ∀ y ∈ A ++ B, after y = some (P y)) :
    ∃ x prev' hops A' B', prev[mh - 1]? = some x ∧
      descend m.next after (m.length + 1) mh x prev = some (prev', hops) ∧
      A ++ B = A' ++ B' ∧ FingerList m head prev' mh N A' B' ∧
      (Decreasing P (A ++ B) → (∀ a ∈ A, P a = true) →
        (∀ a ∈ A', P a = true) ∧ ∀ d ∈ B', P d = false) := by
  have hmh := hl.maxHeight_pos
  obtain ⟨A₀, A₁, hA, hlast, -, hcut⟩ := exists_cut_at_finger m.height head (mh - 1) A
  have htop : A₀ = [] ∨ mh ≤ m.height (lastFrom head A₀) := hcut.imp id fun h => by omega
  have hstart : A ++ B = A₀ ++ (A₁ ++ B) := by rw [hA, List.append_assoc]
  obtain ⟨prev', hops, A', B', hd, hsame, hl', hsep⟩ := hl.search ha hstart htop
  refine ⟨_, prev', hops, A', B', hl.fingers (mh - 1) (by omega), ?_, hsame, hl',
    fun hm hP => hsep hm fun a ha => hP a (by rw [hA]; exact List.mem_append_left _ ha)⟩
  rw [← hlast]
  exact hd

theorem raise (hl : FingerList m head prev mh N A B) {height : ℕ} (hN : height ≤ N) :
    FingerList m head (raiseFingers head mh (height - mh) prev) (max mh height) N A B where
  chains := hl.chains
  nodup := hl.nodup
  allocated := hl.allocated
  headTall := hl.headTall
  heights y hy := ⟨(hl.heights y hy).1, le_trans (hl.heights y hy).2 (le_max_left _ _)⟩
  fingers i hi := by
    have hle := hl.maxHeight_le
    rw [raiseFingers_getElem? head _ _ _ (by rw [hl.prevLength]; omega)]
    by_cases hmh : i < mh
    · rw [if_neg (by omega), hl.fingers i hmh]
    · rw [if_pos (by omega), finger_of_le]
      intro a ha
      exact le_trans (hl.heights a (List.mem_append_left _ ha)).2 (by omega)
  prevLength := (raiseFingers_length _ _ _ _).trans hl.prevLength
  maxHeight_pos := lt_of_lt_of_le hl.maxHeight_pos (le_max_left _ _)
  maxHeight_le := max_le hl.maxHeight_le hN

theorem alloc (hl : FingerList m head prev mh N A B) (d : δ) (height : ℕ) :
    FingerList (m.alloc d height) head prev mh N A B := by
  have hh : ∀ y ∈ head :: (A ++ B), (m.alloc d height).height y = m.height y :=
    fun y hy => Arena.alloc_height_of_lt (hl.allocated y hy) d height
  have hh' : ∀ y ∈ A ++ B, (m.alloc d height).height y = m.height y :=
    fun y hy => hh y (List.mem_cons_of_mem _ hy)
  exact {
    chains := fun i hi => by
      rw [level_congr hh']
      exact (hl.chains i hi).congr fun y _ => Arena.next_alloc m d height i y
    nodup := hl.nodup
    allocated := fun y hy => by
      rw [Arena.alloc_length]
      exact Nat.lt_succ_of_lt (hl.allocated y hy)
    headTall := by
      rw [hh head (by simp)]
      exact hl.headTall
    heights := fun y hy => by
      rw [hh' y hy]
      exact hl.heights y hy
    fingers := fun i hi => by
      rw [hl.fingers i hi, finger_congr fun a ha => hh' a (List.mem_append_left _ ha)]
    prevLength := hl.prevLength
    maxHeight_pos := hl.maxHeight_pos
    maxHeight_le := hl.maxHeight_le }

theorem fresh_not_mem (hl : FingerList m head prev mh N A B) : m.length ∉ head :: (A ++ B) :=
  fun h => lt_irrefl _ (hl.allocated _ h)

/-- Linking a node that is allocated but not in the list puts it between `A` and `B` and moves the
fingers of its levels onto it. -/
theorem link {m₀ : Arena δ} (hl : FingerList m₀ head prev mh N A B) {x : ℕ}
    (hx : x ∉ head :: (A ++ B)) (hxm : x < m₀.length) (hpos : 0 < m₀.height x)
    (hle : m₀.height x ≤ mh) (onSet : ℕ → ℕ → Ptr → List ω) (onLink : ℕ → List ω)
    (log : List ω) :
    ∃ m' prev' log',
      spliceFrom onSet onLink x (m₀.height x) 0 m₀ prev log = some (m', prev', log') ∧
      SameNodes m₀ m' ∧ FingerList m' head prev' mh N (A ++ [x]) B ∧
      Rounds onSet onLink m₀ head x A B N 0 m₀ log m' log' := by
  have hnd := hl.nodup
  have hN : m₀.height x ≤ N := le_trans hle hl.maxHeight_le
  obtain ⟨m', prev', log', he, hm', hs', hlen, hp', hrounds⟩ :=
    spliceFrom_spec onSet onLink hnd hx hN hl.headTall (m₀.height x) 0 m₀
      prev log (Nat.zero_add _) (SameNodes.refl m₀) (Splicing.start hl.chains)
      fun j _ hj => hl.fingers j (by omega)
  have hh : m'.height = m₀.height := funext hm'.height
  refine ⟨m', prev', log', he, hm', ?_, hrounds⟩
  exact {
    chains := fun i hi => by
      rw [hh, List.append_assoc]
      exact hs'.finish i hi
    nodup := by
      rw [List.append_assoc]
      have hperm : (x :: (head :: (A ++ B))).Perm (head :: (A ++ ([x] ++ B))) := by
        refine (List.Perm.swap head x (A ++ B)).trans (List.Perm.cons head ?_)
        exact List.perm_middle.symm
      exact hperm.nodup_iff.mp (List.nodup_cons.mpr ⟨hx, hnd⟩)
    allocated := fun y hy => by
      rw [hm'.length]
      have hy' : y = x ∨ y ∈ head :: (A ++ B) := by
        simp only [List.mem_cons, List.mem_append, List.not_mem_nil, or_false] at hy ⊢
        tauto
      rcases hy' with rfl | hy'
      · exact hxm
      · exact hl.allocated y hy'
    headTall := by
      rw [hh]
      exact hl.headTall
    heights := fun y hy => by
      rw [hh]
      have hy' : y = x ∨ y ∈ A ++ B := by
        simp only [List.mem_append, List.mem_singleton] at hy ⊢
        tauto
      rcases hy' with rfl | hy'
      · exact ⟨hpos, hle⟩
      · exact hl.heights y hy'
    fingers := fun i hi => by
      rw [hp' i, hh, finger_concat]
      by_cases hix : i < m₀.height x
      · rw [if_pos ⟨Nat.zero_le i, hix⟩, if_pos hix]
      · rw [if_neg (fun h => hix h.2), if_neg hix]
        exact hl.fingers i hi
    prevLength := hlen.trans hl.prevLength
    maxHeight_pos := hl.maxHeight_pos
    maxHeight_le := hl.maxHeight_le }

end FingerList

end PersistTree.Library
