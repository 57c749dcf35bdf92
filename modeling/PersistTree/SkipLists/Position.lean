import PersistTree.Library.SortedCut
import PersistTree.SkipLists.Common

/-!
# Where a key lies relative to the finger

`Insert` of both lists starts with the same comparisons: the key against the node of the level-0
finger and, when it lies behind that node, against the node's successor. The six outcomes decide
whether the fingers can stay, or have to be moved by a search.
-/
namespace PersistTree

open Library

inductive Position where
  /-- Behind the finger, which is the last node. -/
  | atEnd
  /-- Between the finger and its successor. -/
  | between
  /-- Behind the successor. -/
  | ahead
  /-- Equal to the successor. -/
  | onNext
  /-- Before the finger. -/
  | behind
  /-- Equal to the finger. -/
  | onFinger
  deriving DecidableEq, Repr

/-- The comparisons at the start of `Insert`, for a finger at `p`. -/
def position (compareKeyAndNode : ℕ → Except Fault ℤ) (next : ℕ → Option Ptr) (p : ℕ) :
    Except Fault Position := do
  let res ← compareKeyAndNode p
  if 0 < res then
    match ← deref (next p) with
    | none => return .atEnd
    | some n =>
      let resNext ← compareKeyAndNode n
      if resNext < 0 then return .between
      else if 0 < resNext then return .ahead
      else return .onNext
  else if res < 0 then return .behind
  else return .onFinger

variable {v : ℕ → List ℕ} {k : List ℕ} {p z : ℕ} {A B : List ℕ} {pos : Position}

/-- What each outcome says about the key `k`, when `v` is what the comparisons see of a node and
`B` are the nodes behind `p`. -/
def Position.Fits (v : ℕ → List ℕ) (k : List ℕ) (p : ℕ) (B : List ℕ) : Position → Prop
  | .atEnd => v p < k ∧ B = []
  | .between => v p < k ∧ ∃ n, B.head? = some n ∧ k < v n
  | .ahead => v p < k ∧ ∃ n, B.head? = some n ∧ v n < k
  | .onNext => v p < k ∧ ∃ n, B.head? = some n ∧ v n = k
  | .behind => k < v p
  | .onFinger => v p = k

/-- A result of `strncmp` with the sign of the comparison of `k` and `u`. -/
structure Compares (res : ℤ) (k u : List ℕ) : Prop where
  pos : 0 < res → u < k
  zero : res = 0 → u = k
  neg : res < 0 → k < u

theorem compares_strncmp (a b : List UInt8) (n : ℕ) :
    Compares (strncmp a b n) (strnview n a) (strnview n b) where
  pos := strncmp_pos_iff.mp
  zero h := (strncmp_eq_zero_iff.mp h).symm
  neg := strncmp_neg_iff.mp

theorem position_spec {compareKeyAndNode : ℕ → Except Fault ℤ} {next : ℕ → Option Ptr}
    (hc : ∀ y ∈ p :: B, ∃ res, compareKeyAndNode y = .ok res ∧ Compares res k (v y))
    (hn : next p = some B.head?) :
    ∃ pos, position compareKeyAndNode next p = .ok pos ∧ pos.Fits v k p B := by
  obtain ⟨res, hres, hsign⟩ := hc p (by simp)
  simp only [position, hres, hn, ok_bind, deref_some, pure_eq_ok]
  split_ifs with hgt hlt
  · cases hB : B.head? with
    | none => exact ⟨.atEnd, rfl, hsign.pos hgt, List.head?_eq_none_iff.mp hB⟩
    | some n =>
      obtain ⟨resNext, hresNext, hsignNext⟩ :=
        hc n (List.mem_cons_of_mem _ (List.mem_of_mem_head? hB))
      simp only [hresNext, ok_bind]
      split_ifs with hltNext hgtNext
      · exact ⟨.between, rfl, hsign.pos hgt, n, hB, hsignNext.neg hltNext⟩
      · exact ⟨.ahead, rfl, hsign.pos hgt, n, hB, hsignNext.pos hgtNext⟩
      · exact ⟨.onNext, rfl, hsign.pos hgt, n, hB, hsignNext.zero (by omega)⟩
  · exact ⟨.behind, rfl, hsign.neg hlt⟩
  · exact ⟨.onFinger, rfl, hsign.zero (by omega)⟩

/-- In four of the outcomes the finger already marks a place for the key. The finger is the head
only while the list is empty, so what the comparisons see of the head decides nothing. -/
theorem Position.Fits.cut (h : pos.Fits v k (lastFrom z A) B) (hs : SortedBy v (A ++ B))
    (hne : A = [] → B = []) (hahead : pos ≠ .ahead) (hbehind : pos ≠ .behind) : Cut v k A B := by
  cases pos with
  | ahead => exact absurd rfl hahead
  | behind => exact absurd rfl hbehind
  | onFinger => exact Cut.of_lastFrom_eq hs hne fun _ => h
  | atEnd =>
    apply Cut.of_neighbours hs (fun _ => h.1.le)
    intro n hn
    rw [h.2] at hn
    cases hn
  | between =>
    obtain ⟨hlast, n, hn, hk⟩ := h
    apply Cut.of_neighbours hs (fun _ => hlast.le)
    intro n' hn'
    obtain rfl : n = n' := Option.some.inj (hn.symm.trans hn')
    exact hk.le
  | onNext =>
    obtain ⟨hlast, n, hn, hk⟩ := h
    apply Cut.of_neighbours hs (fun _ => hlast.le)
    intro n' hn'
    obtain rfl : n = n' := Option.some.inj (hn.symm.trans hn')
    exact hk.ge

end PersistTree
