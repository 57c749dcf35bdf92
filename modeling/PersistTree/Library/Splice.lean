import PersistTree.Library.Arena
import PersistTree.Library.Levels

/-!
# Linking a node into a skip list one level at a time

The linking loop rewires one level per round: it stores the successor into the new node's slot
and then the new node into the slot of the level's finger. Between rounds the levels below the
loop counter contain the new node and the others do not, and this is all that an observer of any
intermediate memory can see. The loop may keep a log of what it does; logging does not influence
the memory it computes.
-/
namespace PersistTree.Library

section Links

variable {α : Type*}

/-- The link function after a store into slot `i` of node `x`. -/
def setLink [DecidableEq α] (nxt : ℕ → α → Option (Option α)) (x : α) (i : ℕ) (p : Option α) :
    ℕ → α → Option (Option α) :=
  fun j y => if y = x ∧ j = i then some p else nxt j y

/-- Levels below `k` have the new node `x` between `A` and `B`, the levels from `k` on do not. -/
structure Splicing (nxt : ℕ → α → Option (Option α)) (h : α → ℕ) (head x : α) (A B : List α)
    (N k : ℕ) : Prop where
  linked : ∀ i < k, Chain (nxt i) head (level h i (A ++ x :: B))
  unlinked : ∀ i, k ≤ i → i < N → Chain (nxt i) head (level h i (A ++ B))

namespace Splicing

variable {nxt : ℕ → α → Option (Option α)} {h : α → ℕ} {head x : α} {A B : List α} {N k : ℕ}

theorem start (hc : ∀ i < N, Chain (nxt i) head (level h i (A ++ B))) :
    Splicing nxt h head x A B N 0 :=
  ⟨fun _ hi => absurd hi (Nat.not_lt_zero _), fun i _ hi => hc i hi⟩

theorem setOwn [DecidableEq α] (hs : Splicing nxt h head x A B N k)
    (hx : x ∉ head :: (A ++ B)) (p : Option α) : Splicing (setLink nxt x k p) h head x A B N k := by
  constructor
  · intro i hi
    apply (hs.linked i hi).congr
    intro y _
    simp [setLink, Nat.ne_of_lt hi]
  · intro i hk hi
    apply (hs.unlinked i hk hi).congr
    intro y hy
    have hne : y ≠ x := by
      rintro rfl
      refine hx (List.mem_cons.mpr ((List.mem_cons.mp hy).imp id fun hm => ?_))
      exact (mem_level.mp hm).1
    simp [setLink, hne]

theorem setFinger [DecidableEq α] (hs : Splicing nxt h head x A B N k)
    (hnd : (head :: (A ++ B)).Nodup) (hx : x ∉ head :: (A ++ B)) (hk : k < N) (hhx : k < h x)
    (hown : nxt k x = some (level h k B).head?) :
    Splicing (setLink nxt (finger h head k A) k (some x)) h head x A B N (k + 1) := by
  have hc := hs.unlinked k le_rfl hk
  rw [level_append] at hc
  have hsub : (head :: (level h k A ++ level h k B)).Sublist (head :: (A ++ B)) := by
    rw [← level_append]
    exact (level_sublist k _).cons_cons _
  have hxk : x ≠ finger h head k A := by
    rintro he
    rcases lastFrom_mem head (level h k A) with hm | hm
    · exact hx (by rw [he]; simp [finger, hm])
    · exact hx (by rw [he]; exact hsub.subset (by simp [finger, hm]))
  have hlevel : level h k (A ++ x :: B) = level h k A ++ x :: level h k B := by
    rw [level_append, level_cons_of_lt hhx]
  constructor
  · intro i hi
    rcases Nat.eq_or_lt_of_le (Nat.lt_succ_iff.mp hi) with rfl | hi
    · rw [hlevel]
      refine hc.splice (hnd.sublist hsub) ?_ ?_ fun y _ hy => ?_
      · simpa [setLink, hxk] using hown
      · simp [setLink, finger]
      · have : y ≠ finger h head i A := hy
        simp [setLink, this]
    · apply (hs.linked i hi).congr
      intro y _
      simp [setLink, Nat.ne_of_lt hi]
  · intro i hik hi
    apply (hs.unlinked i (by omega) hi).congr
    intro y _
    have : i ≠ k := by omega
    simp [setLink, this]

/-- The base list changes at the end of the first round. -/
theorem base (hs : Splicing nxt h head x A B N k) (hN : 0 < N)
    (hpos : ∀ y ∈ A ++ x :: B, 0 < h y) :
    Chain (nxt 0) head (if k = 0 then A ++ B else A ++ x :: B) := by
  have hsub : (A ++ B).Sublist (A ++ x :: B) := (List.sublist_cons_self x B).append_left A
  by_cases hk : k = 0
  · have hc := hs.unlinked 0 (by omega) hN
    rw [level_zero fun y hy => hpos y (hsub.subset hy)] at hc
    rwa [if_pos hk]
  · have hc := hs.linked 0 (by omega)
    rw [level_zero hpos] at hc
    rwa [if_neg hk]

/-- After as many rounds as the new node is tall, every level is that of the longer list. -/
theorem finish (hs : Splicing nxt h head x A B N (h x)) :
    ∀ i < N, Chain (nxt i) head (level h i (A ++ x :: B)) := by
  intro i hi
  by_cases hx : i < h x
  · exact hs.linked i hx
  · have := hs.unlinked i (Nat.le_of_not_lt hx) hi
    rwa [level_append, level_cons_of_le (Nat.le_of_not_lt hx), ← level_append]

end Splicing

end Links

variable {δ ω : Type}

/-- The linking loop for node `x`: `n` rounds from level `i` on. `onSet` is what each store adds
to the log and `onLink` what a finished round adds for the predecessor it rewired. -/
def spliceFrom (onSet : ℕ → ℕ → Ptr → List ω) (onLink : ℕ → List ω) (x : ℕ) :
    ℕ → ℕ → Arena δ → List ℕ → List ω → Option (Arena δ × List ℕ × List ω)
  | 0, _, m, prev, log => some (m, prev, log)
  | n + 1, i, m, prev, log => do
    let p ← prev[i]?
    let succ ← m.next i p
    let m ← m.setNext x i succ
    let m ← m.setNext p i (some x)
    spliceFrom onSet onLink x n (i + 1) m (prev.set i x)
      (log ++ (onSet x i succ ++ onSet p i (some x) ++ onLink p))

theorem Arena.next_eq_setLink {m m' : Arena δ} {x i : ℕ} {p : Ptr}
    (h : m.setNext x i p = some m') : m'.next = setLink m.next x i p := by
  funext j y
  exact Arena.next_setNext h j y

/-- The memory facts that every round of the linking loop needs and keeps: the heights are the
ones the list was built with, and payloads and addresses are untouched. -/
structure SameNodes (m₀ m : Arena δ) : Prop where
  length : m.length = m₀.length
  height : ∀ y, m.height y = m₀.height y
  payload : ∀ y : ℕ, m[y]?.map Node.payload = m₀[y]?.map Node.payload

namespace SameNodes

variable {m₀ m m' : Arena δ} {x i : ℕ} {p : Ptr}

theorem refl (m : Arena δ) : SameNodes m m := ⟨rfl, fun _ => rfl, fun _ => rfl⟩

theorem setNext (hs : SameNodes m₀ m) (h : m.setNext x i p = some m') : SameNodes m₀ m' where
  length := (Arena.setNext_length h).trans hs.length
  height y := (Arena.setNext_height h y).trans (hs.height y)
  payload y := (Arena.setNext_payload h y).trans (hs.payload y)

theorem trans {m'' : Arena δ} (hs : SameNodes m₀ m) (hs' : SameNodes m m'') :
    SameNodes m₀ m'' where
  length := hs'.length.trans hs.length
  height y := (hs'.height y).trans (hs.height y)
  payload y := (hs'.payload y).trans (hs.payload y)

end SameNodes

variable {onSet : ℕ → ℕ → Ptr → List ω} {onLink : ℕ → List ω} {head x N : ℕ} {A B : List ℕ}

theorem spliceFrom_some {m' : Arena δ} {prev' : List ℕ} {log' : List ω} :
    ∀ {n i : ℕ} {m : Arena δ} {prev : List ℕ} {log : List ω},
      spliceFrom onSet onLink x n i m prev log = some (m', prev', log') →
        SameNodes m m' ∧ (∀ j < i, prev'[j]? = prev[j]?) ∧
          ∀ j, i ≤ j → j < i + n → prev'[j]? = some x := by
  intro n
  induction n with
  | zero =>
    intro i m prev log h
    cases h
    exact ⟨SameNodes.refl _, fun _ _ => rfl, fun j h₁ h₂ => absurd h₂ (by omega)⟩
  | succ n ih =>
    intro i m prev log h
    simp only [spliceFrom, Option.bind_eq_bind, Option.bind_eq_some_iff] at h
    obtain ⟨p, hp, succ, -, m₁, h₁, m₂, h₂, h⟩ := h
    obtain ⟨hm, hbelow, hlinked⟩ := ih h
    have hlen : i < prev.length := (List.getElem?_eq_some_iff.mp hp).1
    refine ⟨?_, ?_, ?_⟩
    · exact ((SameNodes.refl m).setNext h₁ |>.setNext h₂).trans hm
    · intro j hj
      rw [hbelow j (by omega), List.getElem?_set_ne (by omega)]
    · intro j h₁ h₂
      rcases Nat.eq_or_lt_of_le h₁ with rfl | h₁
      · rw [hbelow i (by omega), List.getElem?_set_self hlen]
      · exact hlinked j h₁ (by omega)

/-- A link between older nodes may be redirected by the loop, but it does not become null. -/
theorem spliceFrom_links {m' : Arena δ} {prev' : List ℕ} {log' : List ω} {j y z : ℕ} (hy : y ≠ x) :
    ∀ {n i : ℕ} {m : Arena δ} {prev : List ℕ} {log : List ω},
      spliceFrom onSet onLink x n i m prev log = some (m', prev', log') →
        m.next j y = some (some z) → ∃ z', m'.next j y = some (some z') := by
  intro n
  induction n generalizing z with
  | zero =>
    intro i m prev log h hz
    cases h
    exact ⟨z, hz⟩
  | succ n ih =>
    intro i m prev log h hz
    simp only [spliceFrom, Option.bind_eq_bind, Option.bind_eq_some_iff] at h
    obtain ⟨p, hp, succ, -, m₁, h₁, m₂, h₂, h⟩ := h
    have hz₁ : m₁.next j y = some (some z) := by
      rw [Arena.next_setNext h₁, if_neg fun hx => hy hx.1]
      exact hz
    by_cases hp : y = p ∧ j = i
    · exact ih h (z := x) (by rw [Arena.next_setNext h₂, if_pos hp])
    · exact ih h (z := z) (by rw [Arena.next_setNext h₂, if_neg hp]; exact hz₁)

theorem spliceFrom_first {m' : Arena δ} {prev' : List ℕ} {log' : List ω} {n i p : ℕ} {m : Arena δ}
    {prev : List ℕ} {log : List ω} (hp : prev[i]? = some p) (hpx : p ≠ x)
    (h : spliceFrom onSet onLink x (n + 1) i m prev log = some (m', prev', log')) :
    ∃ z, m'.next i p = some (some z) := by
  simp only [spliceFrom, hp, Option.bind_eq_bind, Option.bind_some, Option.bind_eq_some_iff] at h
  obtain ⟨succ, -, m₁, h₁, m₂, h₂, h⟩ := h
  exact spliceFrom_links hpx h (z := x) (by rw [Arena.next_setNext h₂, if_pos ⟨rfl, rfl⟩])

/-- One round of the linking loop on level `k`: from `m` it goes through `m₁`, where the new node's
own slot is written, to `m₂`, where the slot of its predecessor `p` is written too. -/
structure Round (m₀ m m₁ m₂ : Arena δ) (head x : ℕ) (A B : List ℕ) (N k p : ℕ) (succ : Ptr) :
    Prop where
  pred : p ∈ head :: A
  succ_eq : m.next k p = some succ
  own : m.setNext x k succ = some m₁
  link : m₁.setNext p k (some x) = some m₂
  before : Splicing m.next m₀.height head x A B N k
  between : Splicing m₁.next m₀.height head x A B N k
  after : Splicing m₂.next m₀.height head x A B N (k + 1)
  sameNodes : SameNodes m₀ m₂

theorem splice_round {m₀ m : Arena δ} {k : ℕ} {prev : List ℕ} (hm : SameNodes m₀ m)
    (hs : Splicing m.next m₀.height head x A B N k) (hnd : (head :: (A ++ B)).Nodup)
    (hx : x ∉ head :: (A ++ B)) (hk : k < m₀.height x) (hN : m₀.height x ≤ N)
    (hhead : N ≤ m₀.height head) (hp : prev[k]? = some (finger m₀.height head k A)) :
    ∃ p succ m₁ m₂, prev[k]? = some p ∧ Round m₀ m m₁ m₂ head x A B N k p succ := by
  have hc := hs.unlinked k le_rfl (by omega)
  rw [level_append] at hc
  have hnext : m.next k (finger m₀.height head k A) = some (level m₀.height k B).head? :=
    hc.next_lastFrom
  obtain ⟨m₁, h₁⟩ := Arena.setNext_eq (m := m) (x := x) (i := k)
    (p := (level m₀.height k B).head?) (by rw [hm.height]; exact hk)
  have hm₁ := hm.setNext h₁
  have hmem := finger_mem (h := m₀.height) head k A
  obtain ⟨m₂, h₂⟩ := Arena.setNext_eq (m := m₁) (x := finger m₀.height head k A) (i := k)
    (p := some x) (by
      rw [hm₁.height]
      rcases hmem with he | hA
      · rw [he]
        omega
      · exact hA.2)
  have hs₁ : Splicing m₁.next m₀.height head x A B N k := by
    rw [Arena.next_eq_setLink h₁]
    exact hs.setOwn hx _
  refine ⟨_, _, m₁, m₂, hp, List.mem_cons.mpr (hmem.imp id And.left), hnext, h₁, h₂, hs, hs₁, ?_,
    hm₁.setNext h₂⟩
  rw [Arena.next_eq_setLink h₂]
  apply hs₁.setFinger hnd hx (by omega) hk
  simp [Arena.next_setNext h₁]

/-- What the linking loop turns `m₀` and `log` into satisfies every relation between the loop
counter, the memory and the log that holds at the start and that every round keeps. -/
def Rounds (onSet : ℕ → ℕ → Ptr → List ω) (onLink : ℕ → List ω) (m₀ : Arena δ) (head x : ℕ)
    (A B : List ℕ) (N k : ℕ) (m : Arena δ) (log : List ω) (m' : Arena δ) (log' : List ω) : Prop :=
  ∀ I : ℕ → Arena δ → List ω → Prop,
    (∀ k m log p succ m₁ m₂, k < m₀.height x → Round m₀ m m₁ m₂ head x A B N k p succ →
      I k m log → I (k + 1) m₂ (log ++ (onSet x k succ ++ onSet p k (some x) ++ onLink p))) →
    I k m log → I (m₀.height x) m' log'

variable (onSet onLink) in
/-- The linking loop as a whole, from level `k` up to the height of the new node. -/
theorem spliceFrom_spec {m₀ : Arena δ} (hnd : (head :: (A ++ B)).Nodup)
    (hx : x ∉ head :: (A ++ B)) (hN : m₀.height x ≤ N) (hhead : N ≤ m₀.height head) :
    ∀ (n k : ℕ) (m : Arena δ) (prev : List ℕ) (log : List ω), k + n = m₀.height x →
      SameNodes m₀ m → Splicing m.next m₀.height head x A B N k →
      (∀ j, k ≤ j → j < m₀.height x → prev[j]? = some (finger m₀.height head j A)) →
      ∃ m' prev' log', spliceFrom onSet onLink x n k m prev log = some (m', prev', log') ∧
        SameNodes m₀ m' ∧ Splicing m'.next m₀.height head x A B N (m₀.height x) ∧
        prev'.length = prev.length ∧
        (∀ j, prev'[j]? = if k ≤ j ∧ j < m₀.height x then some x else prev[j]?) ∧
        Rounds onSet onLink m₀ head x A B N k m log m' log' := by
  intro n
  induction n with
  | zero =>
    intro k m prev log hk hm hs _
    obtain rfl : k = m₀.height x := by omega
    refine ⟨m, prev, log, rfl, hm, hs, rfl, ?_, fun _ _ hI => hI⟩
    intro j
    rw [if_neg (by omega)]
  | succ n ih =>
    intro k m prev log hk hm hs hp
    have hkx : k < m₀.height x := by omega
    obtain ⟨p, succ, m₁, m₂, hpk, hr⟩ := splice_round hm hs hnd hx hkx hN hhead (hp k le_rfl hkx)
    have hlen : k < prev.length := (List.getElem?_eq_some_iff.mp hpk).1
    obtain ⟨m', prev', log', he, hm', hs', hl', hp', hI'⟩ :=
      ih (k + 1) m₂ (prev.set k x) (log ++ (onSet x k succ ++ onSet p k (some x) ++ onLink p))
        (by omega) hr.sameNodes hr.after fun j hj hjx => by
          rw [List.getElem?_set_ne (by omega)]
          exact hp j (by omega) hjx
    refine ⟨m', prev', log', ?_, hm', hs', by simpa using hl', ?_, fun I hround hI =>
      hI' I hround (hround k m log p succ m₁ m₂ hkx hr hI)⟩
    · simp only [spliceFrom, hpk, hr.succ_eq, hr.own, hr.link, Option.bind_eq_bind,
        Option.bind_some]
      exact he
    · intro j
      rw [hp' j]
      by_cases hj : j = k
      · subst j
        simp [hlen, hkx]
      · rw [List.getElem?_set_ne (Ne.symm hj)]
        by_cases hj' : k ≤ j ∧ j < m₀.height x
        · rw [if_pos hj', if_pos ⟨by omega, hj'.2⟩]
        · rw [if_neg hj', if_neg (by omega)]

end PersistTree.Library
