import PersistTree.Library.FingerSearch
import PersistTree.Library.Splice

/-!
# The slot accesses of a skip list

What a program does to the link slots of its nodes, in program order: a node is reserved with a
number of slots, a slot is written, a slot is read. The lists below follow the recursions of the
walk, the descent and the linking loop. A trace is safe if every access is to a slot that has been
reserved before it, and every read is of a slot that has been written before it.
-/
namespace PersistTree.Library

inductive SlotOp where
  | newNode (x height : ℕ)
  | setNext (x i : ℕ)
  | next (x i : ℕ)
  deriving DecidableEq, Repr

/-- Node `x` has been reserved with more than `i` slots. -/
def Reserved (ops : List SlotOp) (x i : ℕ) : Prop := ∃ height, .newNode x height ∈ ops ∧ i < height

/-- What an operation needs of those before it. -/
def SlotOp.Allowed (ops : List SlotOp) : SlotOp → Prop
  | .newNode x _ => ∀ height, .newNode x height ∉ ops
  | .setNext x i => Reserved ops x i
  | .next x i => Reserved ops x i ∧ .setNext x i ∈ ops

def SafeTrace (ops : List SlotOp) : Prop := ∀ before op, before ++ [op] <+: ops → op.Allowed before

/-- The reads of a walk. -/
def walkSlots {α : Type*} (nxt : α → Option (Option α)) (after : α → Option Bool) : ℕ → α → List α
  | 0, _ => []
  | fuel + 1, x =>
    x :: match nxt x with
      | some (some y) => if after y = some true then walkSlots nxt after fuel y else []
      | _ => []

/-- The reads of a descent, each with its level. -/
def descendSlots {α : Type*} (nxt : ℕ → α → Option (Option α)) (after : α → Option Bool)
    (fuel : ℕ) : ℕ → α → List (ℕ × α)
  | 0, _ => []
  | i + 1, x =>
    (walkSlots (nxt i) after fuel x).map (Prod.mk i) ++
      match walk (nxt i) after fuel x with
      | some r => descendSlots nxt after fuel i r.1
      | none => []

/-- The accesses of the linking loop. -/
def spliceSlots (x : ℕ) : ℕ → ℕ → List ℕ → List SlotOp
  | 0, _, _ => []
  | n + 1, i, prev =>
    (match prev[i]? with
      | some p => [.next p i, .setNext x i, .setNext p i]
      | none => []) ++ spliceSlots x n (i + 1) (prev.set i x)

section

variable {α : Type*} {after : α → Option Bool} {fuel : ℕ}

theorem walk_readable {nxt : α → Option (Option α)} {x y : α} {r : α × ℕ}
    (h : walk nxt after fuel x = some r) (hy : y ∈ walkSlots nxt after fuel x) :
    ∃ p, nxt y = some p := by
  induction fuel generalizing x r with
  | zero => cases h
  | succ fuel ih =>
    rw [walk] at h
    rw [walkSlots] at hy
    rcases hx : nxt x with _ | _ | z
    · simp [hx] at h
    · simp only [hx, List.mem_singleton] at hy
      exact ⟨none, hy ▸ hx⟩
    · simp only [hx] at h hy
      rcases List.mem_cons.mp hy with rfl | hy
      · exact ⟨some z, hx⟩
      · split_ifs at hy with hz
        · simp only [hz] at h
          obtain ⟨q, hq, -⟩ := Option.map_eq_some_iff.mp h
          exact ih hq hy
        · cases hy

theorem descend_readable {nxt : ℕ → α → Option (Option α)} {i j : ℕ} {x y : α} {prev : List α}
    {r : List α × ℕ} (h : descend nxt after fuel i x prev = some r)
    (hy : (j, y) ∈ descendSlots nxt after fuel i x) : ∃ p, nxt j y = some p := by
  induction i generalizing x prev r with
  | zero => cases hy
  | succ i ih =>
    obtain ⟨q, hq, h⟩ := Option.bind_eq_some_iff.mp h
    obtain ⟨q', hq', -⟩ := Option.map_eq_some_iff.mp h
    simp only [descendSlots, hq, List.mem_append, List.mem_map, Prod.mk.injEq] at hy
    rcases hy with ⟨z, hz, rfl, rfl⟩ | hy
    · exact walk_readable hq hz
    · exact ih hq' hy

end

variable {δ ω : Type} {ops : List SlotOp} {m m' : Arena δ} {x i : ℕ}

theorem Reserved.mono {ops' : List SlotOp} (hsub : ops ⊆ ops') (h : Reserved ops x i) :
    Reserved ops' x i := by
  obtain ⟨height, hmem, hi⟩ := h
  exact ⟨height, hsub hmem, hi⟩

namespace SafeTrace

theorem nil : SafeTrace [] := by
  intro before op h
  simp at h

theorem concat {op : SlotOp} (h : SafeTrace ops) (hop : op.Allowed ops) :
    SafeTrace (ops ++ [op]) := by
  intro before op' h'
  rcases List.prefix_concat_iff.mp h' with heq | hpre
  · obtain ⟨rfl, he⟩ := List.append_inj' heq rfl
    obtain rfl := List.singleton_inj.mp he
    exact hop
  · exact h before op' hpre

theorem reads {rs : List SlotOp} (h : SafeTrace ops)
    (hrs : ∀ op ∈ rs, ∃ x i, op = .next x i ∧ op.Allowed ops) : SafeTrace (ops ++ rs) := by
  induction rs using List.reverseRecOn with
  | nil =>
    rw [List.append_nil]
    exact h
  | append_singleton rs op ih =>
    obtain ⟨x, i, rfl, hres, hset⟩ := hrs op (by simp)
    rw [← List.append_assoc]
    refine (ih fun op' hop' => hrs op' (List.mem_append_left _ hop')).concat ⟨?_, ?_⟩
    · exact hres.mono (List.subset_append_left ops rs)
    · exact List.mem_append_left rs hset

end SafeTrace

/-- A safe trace that has led to the memory `m`: its reservations are the nodes of `m`, and what can
be read in `m` has been written. -/
structure Recorded (ops : List SlotOp) (m : Arena δ) : Prop where
  safe : SafeTrace ops
  reserved : ∀ x height, .newNode x height ∈ ops ↔ x < m.length ∧ m.height x = height
  written : ∀ i x p, m.next i x = some p → .setNext x i ∈ ops

theorem Arena.lt_height_of_next {p : Ptr} (h : m.next i x = some p) : i < m.height x := by
  obtain ⟨n, hn, hi⟩ := Option.bind_eq_some_iff.mp h
  have hlt : i < n.slots.length := by
    by_contra hle
    rw [List.getElem?_eq_none (Nat.le_of_not_lt hle)] at hi
    cases hi
  rw [Arena.height, hn]
  exact hlt

namespace Recorded

theorem empty : Recorded [] ([] : Arena δ) where
  safe := SafeTrace.nil
  reserved x height := by simp
  written i x p h := by simp [Arena.next] at h

theorem reserved_of_lt (h : Recorded ops m) (hi : i < m.height x) : Reserved ops x i :=
  ⟨m.height x, (h.reserved x _).mpr ⟨Arena.lt_length_of_height hi, rfl⟩, hi⟩

theorem next_allowed (h : Recorded ops m) {p : Ptr} (hp : m.next i x = some p) :
    (SlotOp.next x i).Allowed ops :=
  ⟨h.reserved_of_lt (Arena.lt_height_of_next hp), h.written i x p hp⟩

theorem reads (h : Recorded ops m) {rs : List SlotOp}
    (hrs : ∀ op ∈ rs, ∃ x i p, op = .next x i ∧ m.next i x = some p) :
    Recorded (ops ++ rs) m where
  safe := h.safe.reads fun op hop => by
    obtain ⟨x, i, p, rfl, hp⟩ := hrs op hop
    exact ⟨x, i, rfl, h.next_allowed hp⟩
  reserved y height := by
    rw [List.mem_append, ← h.reserved, or_iff_left]
    intro hmem
    obtain ⟨x, i, p, hop, -⟩ := hrs _ hmem
    cases hop
  written j y p hp := List.mem_append_left _ (h.written j y p hp)

theorem setNext (h : Recorded ops m) {p : Ptr} (hset : m.setNext x i p = some m') :
    Recorded (ops ++ [.setNext x i]) m' where
  safe := by
    obtain ⟨n, hn, hi, -⟩ := Arena.setNext_some hset
    refine h.safe.concat (h.reserved_of_lt ?_)
    rw [Arena.height, hn]
    exact hi
  reserved y height := by
    rw [List.mem_append, Arena.setNext_length hset, Arena.setNext_height hset, ← h.reserved]
    simp
  written j y q hq := by
    rw [Arena.next_setNext hset] at hq
    split_ifs at hq with hy
    · rw [hy.1, hy.2]
      simp
    · exact List.mem_append_left _ (h.written j y q hq)

theorem alloc (h : Recorded ops m) (d : δ) (height : ℕ) :
    Recorded (ops ++ [.newNode m.length height]) (m.alloc d height) where
  safe := by
    refine h.safe.concat fun height' hmem => ?_
    exact lt_irrefl _ ((h.reserved _ _).mp hmem).1
  reserved y height' := by
    rw [List.mem_append, List.mem_singleton, SlotOp.newNode.injEq, h.reserved, Arena.alloc_length]
    rcases lt_trichotomy y m.length with hy | rfl | hy
    · rw [Arena.alloc_height_of_lt hy]
      simp [hy, hy.ne, Nat.lt_succ_of_lt hy]
    · rw [Arena.alloc_height_self]
      simp [eq_comm]
    · have hle : ¬y < m.length + 1 := by omega
      simp [hy.not_gt, hy.ne', hle]
  written j y q hq := by
    rw [Arena.next_alloc] at hq
    exact List.mem_append_left _ (h.written j y q hq)

theorem erase (h : Recorded ops m) (hlen : m'.length = m.length)
    (hheight : ∀ y, m'.height y = m.height y)
    (hnext : ∀ i y q, m'.next i y = some q → m.next i y = some q) : Recorded ops m' where
  safe := h.safe
  reserved y height := by rw [h.reserved, hlen, hheight]
  written i y q hq := h.written i y q (hnext i y q hq)

theorem head (d : δ) {k height : ℕ} (hk : k ≤ height) :
    Recorded (.newNode 0 height :: (List.range k).map (.setNext 0))
      [{ payload := d
         slots := List.replicate k (some none) ++ List.replicate (height - k) none }] := by
  induction k with
  | zero => exact empty.alloc d height
  | succ k ih =>
    have hset : Arena.setNext
        [⟨d, List.replicate k (some none) ++ List.replicate (height - k) none⟩] 0 k none =
        some [⟨d, List.replicate (k + 1) (some none) ++
          List.replicate (height - (k + 1)) none⟩] := by
      obtain ⟨rest, rfl⟩ : ∃ rest, height = k + 1 + rest := ⟨height - (k + 1), by omega⟩
      have hslots : k + 1 + rest - k = rest + 1 := by omega
      have hrest : k + 1 + rest - (k + 1) = rest := by omega
      rw [hslots, hrest, List.replicate_succ (n := rest), List.replicate_succ' (n := k)]
      simp [Arena.setNext]
    have h := (ih (by omega)).setNext hset
    rwa [List.range_succ, List.map_append, ← List.cons_append]

/-- The linking loop as a whole. -/
theorem splice {onSet : ℕ → ℕ → Ptr → List ω} {onLink : ℕ → List ω} {prev' : List ℕ}
    {log' : List ω} {n k : ℕ} {prev : List ℕ} {log : List ω} (h : Recorded ops m)
    (hs : spliceFrom onSet onLink x n k m prev log = some (m', prev', log')) :
    Recorded (ops ++ spliceSlots x n k prev) m' := by
  induction n generalizing k m prev log ops with
  | zero =>
    cases hs
    rw [spliceSlots, List.append_nil]
    exact h
  | succ n ih =>
    simp only [spliceFrom, Option.bind_eq_bind, Option.bind_eq_some_iff] at hs
    obtain ⟨p, hp, succ, hsucc, m₁, h₁, m₂, h₂, hs⟩ := hs
    have hread : Recorded (ops ++ [.next p k]) m := h.reads fun op hop =>
      ⟨p, k, succ, List.mem_singleton.mp hop, hsucc⟩
    have hround := (hread.setNext h₁).setNext h₂
    have hrest := ih hround hs
    simp only [List.append_assoc] at hrest
    simpa only [spliceSlots, hp, List.cons_append, List.nil_append] using hrest

end Recorded

end PersistTree.Library
