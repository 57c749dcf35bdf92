import Mathlib.Data.List.TakeWhile
import PersistTree.Library.Levels

/-!
# Searching a skip list level by level

`walk` is the inner loop of a skip-list search: it follows one level as long as the next node
lies before the key. `descend` runs it from a given level down to level 0, carrying the node
reached on one level down to the next and recording it as that level's finger. A search may
start at the head or at a finger left by an earlier search. The specification does not assume
that the predicate is monotone along the list: the fingers recorded are always those of one
prefix of the base list. Monotonicity only decides which prefix it is.
-/
namespace PersistTree.Library

variable {α : Type*}

/-- Follow one level from `x` while the next node satisfies `after`; also count the hops.
`none` stands for an unreadable slot, an unreadable node or exhausted fuel. -/
def walk (nxt : α → Option (Option α)) (after : α → Option Bool) : ℕ → α → Option (α × ℕ)
  | 0, _ => none
  | fuel + 1, x =>
    match nxt x with
    | none => none
    | some none => some (x, 0)
    | some (some y) =>
      match after y with
      | none => none
      | some false => some (x, 0)
      | some true => (walk nxt after fuel y).map fun r => (r.1, r.2 + 1)

/-- Walk the levels `i - 1, …, 0` in turn, starting each at the node reached on the level above,
and record the node reached on level `j` in `prev[j]`. -/
def descend (nxt : ℕ → α → Option (Option α)) (after : α → Option Bool) (fuel : ℕ) :
    ℕ → α → List α → Option (List α × ℕ)
  | 0, _, prev => some (prev, 0)
  | i + 1, x, prev =>
    (walk (nxt i) after fuel x).bind fun r =>
      (descend nxt after fuel i r.1 (prev.set i r.1)).map fun s => (s.1, r.2 + s.2)

variable {after : α → Option Bool} {P : α → Bool}

theorem walk_eq {nxt : α → Option (Option α)} {x : α} {l : List α} (hc : Chain nxt x l)
    (ha : ∀ y ∈ l, after y = some (P y)) {fuel : ℕ} (hf : l.length < fuel) :
    walk nxt after fuel x = some (lastFrom x (l.takeWhile P), (l.takeWhile P).length) := by
  induction hc generalizing fuel with
  | nil h =>
    obtain ⟨fuel, rfl⟩ : ∃ n, fuel = n + 1 := ⟨fuel - 1, by omega⟩
    simp [walk, h]
  | @cons x y l h _ ih =>
    obtain ⟨fuel, rfl⟩ : ∃ n, fuel = n + 1 := ⟨fuel - 1, by omega⟩
    have hy := ha y (by simp)
    cases hP : P y with
    | false => simp [walk, h, hy, hP]
    | true =>
      have hlen : l.length < fuel := by
        simp only [List.length_cons] at hf
        omega
      have ht := ih (fun z hz => ha z (by simp [hz])) hlen
      simp [walk, h, hy, hP, ht]

variable {h : α → ℕ}

theorem exists_advance (h : α → ℕ) (P : α → Bool) (i : ℕ) (B : List α) :
    ∃ C D, B = C ++ D ∧ level h i C = (level h i B).takeWhile P ∧
      level h i D = (level h i B).dropWhile P ∧
      (C = [] ∨ ∀ z, i < h (lastFrom z C) ∧ P (lastFrom z C) = true) := by
  induction B with
  | nil => exact ⟨[], [], rfl, rfl, rfl, Or.inl rfl⟩
  | cons b B ih =>
    obtain ⟨C, D, rfl, hC, hD, hlast⟩ := ih
    by_cases hb : i < h b
    · cases hP : P b with
      | false => exact ⟨[], b :: (C ++ D), rfl, by simp [level_cons, hb, hP], by
          simp only [level_cons, hb, if_true, List.dropWhile_cons, hP, Bool.false_eq_true,
            if_false], Or.inl rfl⟩
      | true =>
        refine ⟨b :: C, D, rfl, ?_, ?_, Or.inr ?_⟩
        · simp only [level_cons, hb, if_true, hC, List.takeWhile_cons, hP]
        · simp only [level_cons, hb, if_true, hD, List.dropWhile_cons, hP]
        · intro z
          rcases hlast with rfl | hlast
          · exact ⟨hb, hP⟩
          · exact hlast b
    · have hlow : level h i (b :: (C ++ D)) = level h i (C ++ D) := by rw [level_cons, if_neg hb]
      rw [hlow]
      rcases hlast with rfl | hlast
      · -- nothing is passed, so the low node stays ahead of the cut
        exact ⟨[], b :: D, rfl, hC, by rw [level_cons, if_neg hb]; exact hD, Or.inl rfl⟩
      · refine ⟨b :: C, D, rfl, ?_, hD, Or.inr fun z => hlast b⟩
        rw [level_cons, if_neg hb]
        exact hC

/-- What a search knows after it has recorded the fingers of the levels from `i` up to `N`:
they are those of the prefix `A`, and on each of these levels the next node stops the walk. -/
structure Searched (h : α → ℕ) (head : α) (P : α → Bool) (i N : ℕ) (prev A B : List α) :
    Prop where
  fingers : ∀ j, i ≤ j → j < N → prev[j]? = some (finger h head j A)
  stopped : ∀ j, i ≤ j → j < N → ∀ y, (level h j B).head? = some y → P y = false

theorem head?_dropWhile_false {l : List α} {y : α} (hy : (l.dropWhile P).head? = some y) :
    P y = false := by
  have := List.head?_dropWhile_not P l
  rw [hy] at this
  simpa using this

/-- One more level: walking level `i` from the end of `A` passes `C`, which no level above
reaches into. -/
theorem Searched.walk_level {head : α} {i N : ℕ} {prev A B C D : List α}
    (hs : Searched h head P (i + 1) N prev A B) (hB : B = C ++ D)
    (hC : level h i C = (level h i B).takeWhile P) (hD : level h i D = (level h i B).dropWhile P)
    (hlen : i < prev.length) {y : α} (hy : y = finger h head i (A ++ C)) :
    Searched h head P i N (prev.set i y) (A ++ C) D := by
  have hclear : ∀ j, i < j → j < N → level h j C = [] := by
    intro j hij hj
    rcases hl : level h j C with _ | ⟨c, l⟩
    · rfl
    · have hc : c ∈ level h j C := by simp [hl]
      have hstop := hs.stopped j hij hj c (by simp [hB, hl])
      have hpass : c ∈ (level h i B).takeWhile P := by
        rw [← hC, mem_level]
        exact ⟨(mem_level.mp hc).1, lt_trans hij (mem_level.mp hc).2⟩
      have hPc := List.mem_takeWhile_imp hpass
      rw [hstop] at hPc
      cases hPc
  constructor
  · intro j hij hj
    rcases Nat.eq_or_lt_of_le hij with rfl | hij
    · simp [hlen, hy]
    · rw [List.getElem?_set_ne (by omega), hs.fingers j hij hj,
        finger_append_of_level_eq_nil (hclear j hij hj)]
  · intro j hij hj z hz
    rcases Nat.eq_or_lt_of_le hij with rfl | hij
    · rw [hD] at hz
      exact head?_dropWhile_false hz
    · exact hs.stopped j hij hj z (by simpa [hB, hclear j hij hj] using hz)

/-- The whole descent. It starts at the last node of `A` and ends with the fingers of a longer
prefix `A ++ C`, where `C` is empty or ends in a node the search walked over. -/
theorem descend_spec {nxt : ℕ → α → Option (Option α)} {head : α} {N fuel : ℕ} {L : List α}
    (hchain : ∀ i < N, Chain (nxt i) head (level h i L))
    (ha : ∀ y ∈ L, after y = some (P y)) (hfuel : L.length < fuel) :
    ∀ (i : ℕ) (prev A B : List α), i ≤ N → N ≤ prev.length → L = A ++ B →
      (A = [] ∨ i ≤ h (lastFrom head A)) → Searched h head P i N prev A B →
      ∃ prev' hops C D, descend nxt after fuel i (lastFrom head A) prev = some (prev', hops) ∧
        B = C ++ D ∧ prev'.length = prev.length ∧ (∀ j, N ≤ j → prev'[j]? = prev[j]?) ∧
        Searched h head P 0 N prev' (A ++ C) D ∧ (C = [] ∨ P (lastFrom head C) = true) := by
  intro i
  induction i with
  | zero =>
    intro prev A B _ _ _ _ hs
    exact ⟨prev, 0, [], B, rfl, rfl, rfl, fun _ _ => rfl, by simpa using hs, Or.inl rfl⟩
  | succ i ih =>
    intro prev A B hi hlen hL hA hs
    -- the start of the walk is the level-`i` finger of `A`
    have hx : lastFrom head A = finger h head i A := by
      rcases List.eq_nil_or_concat' A with rfl | ⟨A', a, rfl⟩
      · rfl
      · have ha' : i < h a := by
          rcases hA with hA | hA
          · simp at hA
          · rw [lastFrom_append] at hA
            exact hA
        simp [finger_concat, ha']
    have hcB : Chain (nxt i) (lastFrom head A) (level h i B) := by
      have := hchain i (by omega)
      rw [hL, level_append] at this
      rw [hx]
      exact this.suffix
    have hlB : (level h i B).length < fuel := by
      have h₁ := (level_sublist (h := h) i B).length_le
      have h₂ : L.length = A.length + B.length := by simp [hL]
      omega
    have hw := walk_eq hcB (P := P) (fun y hy => ha y (by
      rw [hL]
      exact List.mem_append_right _ (mem_level.mp hy).1)) hlB
    obtain ⟨C, D, hB, hC, hD, hlast⟩ := exists_advance h P i B
    have hend : lastFrom (lastFrom head A) ((level h i B).takeWhile P) =
        lastFrom head (A ++ C) := by
      rw [← hC, lastFrom_append]
      rcases List.eq_nil_or_concat' C with rfl | ⟨C', c, rfl⟩
      · rfl
      · have hc : i < h c := by
          rcases hlast with hlast | hlast
          · simp at hlast
          · simpa using (hlast head).1
        simp [level_cons, hc]
    have hfin : lastFrom head (A ++ C) = finger h head i (A ++ C) := by
      rw [finger_append, ← hx, ← hend, ← hC]
      rfl
    have hs' := hs.walk_level hB hC hD (by omega) hfin
    have hA' : A ++ C = [] ∨ i ≤ h (lastFrom head (A ++ C)) := by
      rw [lastFrom_append]
      rcases hlast with rfl | hlast
      · rcases hA with rfl | hA
        · exact Or.inl rfl
        · exact Or.inr (by rw [lastFrom_nil]; omega)
      · exact Or.inr (hlast _).1.le
    obtain ⟨prev', hops, C', D', hd, rfl, hl', hrest, hs'', hlast'⟩ :=
      ih (prev.set i (lastFrom head (A ++ C))) (A ++ C) D (by omega) (by simpa using hlen)
        (by rw [hL, hB, List.append_assoc]) hA' hs'
    refine ⟨prev', ((level h i B).takeWhile P).length + hops, C ++ C', D', ?_,
      by rw [hB, List.append_assoc], by simpa using hl', ?_,
      by rw [← List.append_assoc]; exact hs'', ?_⟩
    · rw [descend, hw, Option.bind_some, hend, hd, Option.map_some]
    · intro j hj
      rw [hrest j hj, List.getElem?_set_ne (by omega)]
    · rcases hlast' with rfl | hlast'
      · rw [List.append_nil]
        exact hlast.imp_right fun hl => (hl _).2
      · rcases List.eq_nil_or_concat' C' with rfl | ⟨C'', c, rfl⟩
        · rw [List.append_nil]
          exact hlast.imp_right fun hl => (hl _).2
        · exact Or.inr (by simpa using hlast')

section Monotone

/-- `P` is decreasing along the list: true on a prefix and false from there on. -/
abbrev Decreasing (P : α → Bool) (L : List α) : Prop :=
  L.Pairwise fun a b => P b = true → P a = true

theorem forall_of_lastFrom {C : List α} (hm : Decreasing P C) {z : α}
    (hl : C = [] ∨ P (lastFrom z C) = true) : ∀ c ∈ C, P c = true := by
  rcases List.eq_nil_or_concat' C with rfl | ⟨C', d, rfl⟩
  · simp
  · have hd : P d = true := by simpa using hl
    intro c hc
    rcases List.mem_append.mp hc with hc | hc
    · exact (List.pairwise_append.mp hm).2.2 c hc d (by simp) hd
    · rw [List.mem_singleton.mp hc]
      exact hd

theorem forall_not_of_head? {D : List α} (hm : Decreasing P D)
    (hd : ∀ y, D.head? = some y → P y = false) : ∀ d ∈ D, P d = false := by
  cases D with
  | nil => simp
  | cons a D =>
    have ha := hd a rfl
    intro d hd
    rcases List.mem_cons.mp hd with rfl | hd
    · exact ha
    · have := (List.pairwise_cons.mp hm).1 d hd
      cases hPd : P d with
      | false => rfl
      | true => simp [this hPd] at ha

/-- When every node before the start satisfies `P` and `P` decreases along the list, the search
cuts the list exactly where `P` turns false. -/
theorem Searched.separates {head : α} {N : ℕ} {prev A C D : List α} {z : α}
    (hs : Searched h head P 0 N prev (A ++ C) D) (hN : 0 < N)
    (hpos : ∀ d ∈ D, 0 < h d) (hm : Decreasing P (A ++ (C ++ D)))
    (hA : ∀ a ∈ A, P a = true) (hl : C = [] ∨ P (lastFrom z C) = true) :
    (∀ a ∈ A ++ C, P a = true) ∧ ∀ d ∈ D, P d = false := by
  have hCD := (List.pairwise_append.mp hm).2.1
  have hC := (List.pairwise_append.mp hCD).1
  have hD := (List.pairwise_append.mp hCD).2.1
  refine ⟨?_, forall_not_of_head? hD ?_⟩
  · intro a ha
    rcases List.mem_append.mp ha with ha | ha
    · exact hA a ha
    · exact forall_of_lastFrom hC hl a ha
  · intro y hy
    exact hs.stopped 0 le_rfl hN y (by rw [level_zero hpos]; exact hy)

end Monotone

end PersistTree.Library
