import PersistTree.Library.FingerSearch

/-!
# Searching a skip list for a lower bound

`seek` looks for the first node that is not smaller than a key. Unlike a search that moves fingers
it stops at an equal node on any level, and it does not compare a node again that has already ended
the walk on the level above: it remembers that node as `lastBigger`. What it remembers at the start
is up to the caller, and nothing is assumed about the comparisons of the nodes behind the first one
that is not smaller.
-/
namespace PersistTree.Library

variable {α : Type*}

/-- The loop, for a comparison `cmp` of the nodes with the key. `none` stands for an unreadable slot
or node or exhausted fuel. -/
def seek [DecidableEq α] (nxt : ℕ → α → Option (Option α)) (cmp : α → Option ℤ) :
    ℕ → α → ℕ → Option α → Option (Option α)
  | 0, _, _, _ => none
  | fuel + 1, x, level, lastBigger =>
    (nxt level x).bind fun next =>
      (if next = none ∨ next = lastBigger then some 1 else next.bind cmp).bind fun c =>
        if c = 0 ∨ 0 < c ∧ level = 0 then some next
        else if c < 0 then next.bind fun y => seek nxt cmp fuel y level lastBigger
        else seek nxt cmp fuel x (level - 1) next

section

variable {nxt : α → Option (Option α)} {h : α → ℕ} {head : α} {P Q : List α} {i : ℕ}

theorem finger_of_tall (hP : P = [] ∨ i < h (lastFrom head P)) :
    finger h head i P = lastFrom head P := by
  rcases List.eq_nil_or_concat' P with rfl | ⟨P, y, rfl⟩
  · rfl
  · have hy : i < h y := by
      simpa using hP
    rw [finger_concat, if_pos hy, lastFrom_append]
    rfl

theorem chain_behind (hc : Chain nxt head (level h i (P ++ Q)))
    (hP : P = [] ∨ i < h (lastFrom head P)) : Chain nxt (lastFrom head P) (level h i Q) := by
  rw [level_append] at hc
  rw [← finger_of_tall hP]
  exact hc.suffix

theorem head?_level_of_tall {B : List α} {y : α} {j k : ℕ} (hy : (level h j B).head? = some y)
    (hjk : j ≤ k) (hk : k < h y) : (level h k B).head? = some y := by
  induction B with
  | nil => cases hy
  | cons b B ih =>
    rw [level_cons] at hy ⊢
    by_cases hb : j < h b
    · rw [if_pos hb] at hy
      obtain rfl : b = y := Option.some.inj hy
      rw [if_pos hk]
      rfl
    · rw [if_neg hb] at hy
      rw [if_neg (by omega)]
      exact ih hy

theorem lt_of_head?_level {B : List α} {y : α} (hy : (level h i B).head? = some y) :
    y ∈ B ∧ i < h y :=
  mem_level.mp (List.mem_of_mem_head? hy)

variable {B : List α} {c : α → ℤ} {lastBigger : Option α} {y : α}

/-- On the levels from `i` down, the first node of `B` ends the walk: it is larger than the key, or
it is the node remembered from a higher level, or it is the first node of all and equal to the key.
-/
def Stops (h : α → ℕ) (c : α → ℤ) (lastBigger : Option α) (B : List α) (i : ℕ) : Prop :=
  ∀ j ≤ i, ∀ y, (level h j B).head? = some y →
    lastBigger = some y ∧ i < h y ∨ 0 < c y ∨ c y = 0 ∧ B.head? = some y

theorem stops_succ {n : Option α} (hn : (level h (i + 1) B).head? = n)
    (hstop : ∀ y, n = some y → lastBigger = some y ∨ 0 < c y) :
    Stops h c lastBigger B (i + 1) ↔ Stops h c n B i := by
  constructor
  · intro hs j hj y hy
    refine (hs j (Nat.le_succ_of_le hj) y hy).imp_left ?_
    rintro ⟨-, htall⟩
    have hfirst := head?_level_of_tall hy (Nat.le_succ_of_le hj) htall
    exact ⟨hn.symm.trans hfirst, Nat.lt_of_succ_lt htall⟩
  · intro hs j hj y hy
    rcases Nat.le_succ_iff.mp hj with hj | rfl
    · rcases hs j hj y hy with ⟨hny, -⟩ | hrest
      · have htall := (lt_of_head?_level (hn.trans hny)).2
        exact (hstop y hny).imp (fun hlb => ⟨hlb, htall⟩) Or.inl
      · exact Or.inr hrest
    · exact (hstop y (hn.symm.trans hy)).imp (fun hlb => ⟨hlb, (lt_of_head?_level hy).2⟩) Or.inl

theorem stops_iff_of_equal (hpos : ∀ y ∈ B, 0 < h y) (hfirst : (level h i B).head? = some y)
    (hlb : lastBigger ≠ some y) (hzero : c y = 0) :
    Stops h c lastBigger B i ↔ B.head? = some y := by
  constructor
  · intro hs
    rcases hs i le_rfl y hfirst with ⟨he, -⟩ | hgt | ⟨-, hhead⟩
    · exact absurd he hlb
    · omega
    · exact hhead
  · intro hhead j hj z hz
    have hbase : (level h 0 B).head? = some y := by rw [level_zero hpos, hhead]
    have htall := (lt_of_head?_level hfirst).2
    have hy := head?_level_of_tall hbase (Nat.zero_le j) (lt_of_le_of_lt hj htall)
    obtain rfl : y = z := Option.some.inj (hy.symm.trans hz)
    exact Or.inr (Or.inr ⟨hzero, hhead⟩)

end

variable [DecidableEq α]

variable {nxt : ℕ → α → Option (Option α)} {cmp : α → Option ℤ} {x y : α} {fuel i : ℕ}
  {lastBigger : Option α}

theorem seek_stop {next : Option α} (hn : nxt i x = some next)
    (hstop : next = none ∨ next = lastBigger) : seek nxt cmp (fuel + 1) x i lastBigger =
      if i = 0 then some next else seek nxt cmp fuel x (i - 1) next := by
  rw [seek, hn, Option.bind_some, if_pos hstop]
  simp

theorem seek_compare {c : ℤ} (hn : nxt i x = some (some y)) (hy : some y ≠ lastBigger)
    (hc : cmp y = some c) : seek nxt cmp (fuel + 1) x i lastBigger =
      if c = 0 ∨ 0 < c ∧ i = 0 then some (some y)
      else if c < 0 then seek nxt cmp fuel y i lastBigger
      else seek nxt cmp fuel x (i - 1) (some y) := by
  have hnot : ¬(some y = none ∨ some y = lastBigger) := by simp [hy]
  rw [seek, hn, Option.bind_some, if_neg hnot, Option.bind_some, hc]
  rfl

theorem seek_walk {l m : List α} (hc : Chain (nxt i) x (l ++ m))
    (hl : ∀ y ∈ l, some y ≠ lastBigger ∧ ∃ c, cmp y = some c ∧ c < 0) (fuel : ℕ) :
    seek nxt cmp (fuel + l.length) x i lastBigger =
      seek nxt cmp fuel (lastFrom x l) i lastBigger := by
  induction l generalizing x with
  | nil => rfl
  | cons y l ih =>
    obtain ⟨hy, c, hcy, hneg⟩ := hl y (by simp)
    have hnot : ¬(c = 0 ∨ 0 < c ∧ i = 0) := by omega
    cases hc with
    | cons hn ht =>
      rw [List.length_cons, ← Nat.add_assoc, seek_compare hn hy hcy, if_neg hnot, if_pos hneg,
        lastFrom_cons]
      exact ih ht fun z hz => hl z (List.mem_cons_of_mem y hz)

variable {h : α → ℕ} {head : α} {A B L P Q R : List α} {c : α → ℤ} {mh : ℕ}

theorem seek_behind (hc : ∀ i < mh, Chain (nxt i) head (level h i L))
    (hcmp : ∀ y ∈ L, cmp y = some (c y)) (hL : L = P ++ Q)
    (hP : P = [] ∨ i < h (lastFrom head P)) (hi : i < mh) (hf : Q.length + i < fuel) :
    ∃ r, seek nxt cmp fuel (lastFrom head P) i lastBigger = some r ∧ ∀ y, r = some y → y ∈ Q := by
  induction fuel generalizing P Q i lastBigger with
  | zero => exact absurd hf (Nat.not_lt_zero _)
  | succ fuel ih =>
    have hchain : Chain (nxt i) (lastFrom head P) (level h i Q) := chain_behind (hL ▸ hc i hi) hP
    have hdown : ∀ lb, i ≠ 0 → ∃ r, seek nxt cmp fuel (lastFrom head P) (i - 1) lb = some r ∧
        ∀ y, r = some y → y ∈ Q := fun lb h0 =>
      ih hL (hP.imp_right fun hlt => by omega) (by omega) (by omega)
    cases hQ : level h i Q with
    | nil =>
      rw [hQ] at hchain
      rw [seek_stop hchain.next_eq (Or.inl rfl)]
      split_ifs with h0
      · exact ⟨none, rfl, nofun⟩
      · exact hdown none h0
    | cons y l =>
      rw [hQ] at hchain
      have hn : nxt i (lastFrom head P) = some (some y) := hchain.next_eq
      have hmem : y ∈ Q ∧ i < h y := mem_level.mp (by rw [hQ]; simp)
      by_cases hy : some y = lastBigger
      · rw [seek_stop hn (Or.inr hy)]
        split_ifs with h0
        · exact ⟨some y, rfl, fun z hz => Option.some.inj hz ▸ hmem.1⟩
        · exact hdown (some y) h0
      · have hcy := hcmp y (hL ▸ List.mem_append_right P hmem.1)
        rw [seek_compare hn hy hcy]
        split_ifs with hret hneg
        · exact ⟨some y, rfl, fun z hz => Option.some.inj hz ▸ hmem.1⟩
        · obtain ⟨Q₁, Q₂, rfl⟩ := List.append_of_mem hmem.1
          have hlen : Q₂.length + i < fuel := by
            simp only [List.length_append, List.length_cons] at hf
            omega
          have hlast : lastFrom head (P ++ Q₁ ++ [y]) = y := by simp
          have hrest : ∃ r, seek nxt cmp fuel (lastFrom head (P ++ Q₁ ++ [y])) i lastBigger =
              some r ∧ ∀ z, r = some z → z ∈ Q₂ :=
            ih (by simp [hL]) (Or.inr (by rw [hlast]; exact hmem.2)) hi hlen
          rw [hlast] at hrest
          obtain ⟨r, hr, hin⟩ := hrest
          exact ⟨r, hr, fun z hz => List.mem_append_right _ (List.mem_cons_of_mem _ (hin z hz))⟩
        · exact hdown (some y) (by omega)

theorem seek_past (hc : ∀ i < mh, Chain (nxt i) head (level h i (A ++ B)))
    (hcmp : ∀ y ∈ A ++ B, cmp y = some (c y)) (hnd : (A ++ B).Nodup) (hi : i < mh)
    (hy : y ∈ B) (htall : i < h y) (hf : B.length + i ≤ fuel) :
    ∃ r, seek nxt cmp fuel y i lastBigger = some r ∧ r ≠ B.head? := by
  obtain ⟨B₁, B₂, rfl⟩ := List.append_of_mem hy
  have hsplit : A ++ (B₁ ++ y :: B₂) = A ++ B₁ ++ [y] ++ B₂ := by simp
  have hlast : lastFrom head (A ++ B₁ ++ [y]) = y := by simp
  have hlen : B₂.length + i < fuel := by
    simp only [List.length_append, List.length_cons] at hf
    omega
  have hrest : ∃ r, seek nxt cmp fuel (lastFrom head (A ++ B₁ ++ [y])) i lastBigger = some r ∧
      ∀ z, r = some z → z ∈ B₂ :=
    seek_behind hc hcmp hsplit (Or.inr (by rw [hlast]; exact htall)) hi hlen
  obtain ⟨r, hr, hin⟩ := hrest
  rw [hlast] at hr
  refine ⟨r, hr, ?_⟩
  rintro rfl
  have hnd' : (B₁ ++ [y] ++ B₂).Nodup := by
    rw [List.append_assoc]
    exact (List.nodup_append.mp hnd).2.1
  have hhead : (B₁ ++ y :: B₂).head? = (B₁ ++ [y]).head? := by
    cases B₁ with
    | nil => rfl
    | cons b B₁ => rfl
  obtain ⟨b, hb⟩ : ∃ b, (B₁ ++ [y]).head? = some b := by
    cases B₁ with
    | nil => exact ⟨y, rfl⟩
    | cons b B₁ => exact ⟨b, rfl⟩
  exact (List.nodup_append.mp hnd').2.2 b (List.mem_of_mem_head? hb) b
    (hin b (hhead.trans hb)) rfl

theorem seek_down {n : Option α} (hpos : ∀ y ∈ B, 0 < h y) (hfirst : (level h i B).head? = n)
    (hstop : ∀ y, n = some y → lastBigger = some y ∨ 0 < c y)
    (hdown : i ≠ 0 → ∃ r, seek nxt cmp fuel x (i - 1) n = some r ∧
      (r = B.head? ↔ Stops h c n B (i - 1))) :
    ∃ r, (if i = 0 then some n else seek nxt cmp fuel x (i - 1) n) = some r ∧
      (r = B.head? ↔ Stops h c lastBigger B i) := by
  cases i with
  | zero =>
    rw [level_zero hpos] at hfirst
    refine ⟨n, rfl, iff_of_true hfirst.symm ?_⟩
    intro j hj y hy
    obtain rfl := Nat.le_zero.mp hj
    rw [level_zero hpos] at hy
    have hmem := List.mem_of_mem_head? hy
    exact (hstop y (hfirst.symm.trans hy)).imp (fun hlb => ⟨hlb, hpos y hmem⟩) Or.inl
  | succ i =>
    obtain ⟨r, hr, hiff⟩ := hdown (Nat.succ_ne_zero i)
    exact ⟨r, hr, hiff.trans (stops_succ hfirst hstop).symm⟩

theorem seek_turn (hc : ∀ i < mh, Chain (nxt i) head (level h i (A ++ B)))
    (hcmp : ∀ y ∈ A ++ B, cmp y = some (c y)) (hnd : (A ++ B).Nodup) (hpos : ∀ y ∈ B, 0 < h y)
    (hi : i < mh) (hn : nxt i x = some (level h i B).head?) (hf : B.length + i ≤ fuel)
    (hdown : i ≠ 0 → ∃ r, seek nxt cmp fuel x (i - 1) (level h i B).head? = some r ∧
      (r = B.head? ↔ Stops h c (level h i B).head? B (i - 1))) :
    ∃ r, seek nxt cmp (fuel + 1) x i lastBigger = some r ∧
      (r = B.head? ↔ Stops h c lastBigger B i) := by
  generalize hfirst : (level h i B).head? = n at hn hdown
  by_cases hstop : n = none ∨ n = lastBigger
  · rw [seek_stop hn hstop]
    apply seek_down hpos hfirst _ hdown
    rintro y rfl
    exact Or.inl (hstop.resolve_left (Option.some_ne_none y)).symm
  · obtain ⟨hne, hlb⟩ := not_or.mp hstop
    obtain ⟨y, rfl⟩ := Option.ne_none_iff_exists'.mp hne
    obtain ⟨hmem, htall⟩ := lt_of_head?_level hfirst
    rw [seek_compare hn hlb (hcmp y (List.mem_append_right A hmem))]
    rcases lt_trichotomy (c y) 0 with hneg | hzero | hgt
    · rw [if_neg (by omega), if_pos hneg]
      obtain ⟨r, hr, hne⟩ := seek_past hc hcmp hnd hi hmem htall hf
      refine ⟨r, hr, iff_of_false hne ?_⟩
      intro hs
      rcases hs i le_rfl y hfirst with ⟨he, -⟩ | hgt | ⟨hzero, -⟩
      · exact hlb he.symm
      · omega
      · omega
    · rw [if_pos (Or.inl hzero), stops_iff_of_equal hpos hfirst (Ne.symm hlb) hzero]
      exact ⟨some y, rfl, eq_comm⟩
    · have hnot : ¬c y < 0 := not_lt.mpr hgt.le
      simp only [hgt, hgt.ne', hnot, true_and, false_or, if_false]
      apply seek_down hpos hfirst _ hdown
      rintro z hz
      obtain rfl := Option.some.inj hz
      exact Or.inr hgt

/-- The walk along the levels from `i` down, once all nodes before `B` are smaller. -/
theorem seek_level (hc : ∀ i < mh, Chain (nxt i) head (level h i (A ++ B)))
    (hcmp : ∀ y ∈ A ++ B, cmp y = some (c y)) (hnd : (A ++ B).Nodup) (hpos : ∀ y ∈ B, 0 < h y)
    (hA : ∀ a ∈ A, c a < 0) (hPR : A = P ++ R) (hP : P = [] ∨ i < h (lastFrom head P))
    (hlb : ∀ a ∈ R, i < h a → lastBigger ≠ some a) (hi : i < mh)
    (hf : R.length + B.length + i < fuel) :
    ∃ r, seek nxt cmp fuel (lastFrom head P) i lastBigger = some r ∧
      (r = B.head? ↔ Stops h c lastBigger B i) := by
  induction i using Nat.strong_induction_on generalizing P R fuel lastBigger with
  | _ i ih =>
    obtain ⟨R₀, R₁, rfl, hlast, hlow, htop⟩ :=
      exists_cut_at_finger h (lastFrom head P) i R
    have hlevel : level h i (R₀ ++ R₁) = level h i R₀ := by
      rw [level_append, hlow, List.append_nil]
    have hchain : Chain (nxt i) (lastFrom head P) (level h i R₀ ++ level h i B) := by
      rw [← hlevel, ← level_append]
      apply chain_behind _ hP
      rw [← List.append_assoc, ← hPR]
      exact hc i hi
    have hsmall : ∀ y ∈ level h i R₀, some y ≠ lastBigger ∧ ∃ r, cmp y = some r ∧ r < 0 := by
      intro y hy
      obtain ⟨hmem, htall⟩ := mem_level.mp hy
      have hR : y ∈ R₀ ++ R₁ := List.mem_append_left _ hmem
      have hyA : y ∈ A := hPR ▸ List.mem_append_right P hR
      exact ⟨Ne.symm (hlb y hR htall), c y, hcmp y (List.mem_append_left B hyA), hA y hyA⟩
    have hlen : (level h i R₀).length ≤ R₀.length := (level_sublist i R₀).length_le
    rw [List.length_append] at hf
    obtain ⟨f, rfl⟩ : ∃ f, fuel = f + 1 + (level h i R₀).length :=
      ⟨fuel - 1 - (level h i R₀).length, by omega⟩
    have hend : lastFrom (lastFrom head P) (level h i R₀) = lastFrom head (P ++ R₀) := by
      rw [lastFrom_append, hlast, finger, hlevel]
    rw [seek_walk hchain hsmall, hend]
    apply seek_turn hc hcmp hnd hpos hi
    · rw [← hend]
      exact hchain.next_lastFrom
    · omega
    · intro h0
      have hP' : P ++ R₀ = [] ∨ i - 1 < h (lastFrom head (P ++ R₀)) := by
        rcases htop with rfl | htop
        · rw [List.append_nil]
          exact hP.imp_right fun hlt => by omega
        · rw [lastFrom_append]
          exact Or.inr (by omega)
      refine ih (i - 1) (by omega) (R := R₁) ?_ hP' ?_ (by omega) (by omega)
      · rw [hPR, List.append_assoc]
      · intro a ha _ he
        have haB : a ∈ B := (lt_of_head?_level he).1
        have haA : a ∈ A := hPR ▸ List.mem_append_right P (List.mem_append_right R₀ ha)
        exact (List.nodup_append.mp hnd).2.2 a haA a haB rfl

/-- A node of the top level that the search starts by taking for a larger one is what it returns. -/
theorem seek_misled (hc : ∀ i < mh, Chain (nxt i) head (level h i (A ++ y :: B)))
    (hcmp : ∀ z ∈ A ++ y :: B, cmp z = some (c z)) (hnd : (A ++ y :: B).Nodup)
    (hpos : ∀ z ∈ y :: B, 0 < h z) (hA : ∀ a ∈ A, c a < 0) (hmh : 0 < mh) (htall : mh ≤ h y)
    (hf : A.length + (B.length + 1) + mh ≤ fuel) :
    seek nxt cmp fuel head (mh - 1) (some y) = some (some y) := by
  have hlb : ∀ a ∈ A, mh - 1 < h a → some y ≠ some a := by
    intro a ha _ he
    exact (List.nodup_append.mp hnd).2.2 a ha y List.mem_cons_self (Option.some.inj he).symm
  have hlen : A.length + (y :: B).length + (mh - 1) < fuel := by
    rw [List.length_cons]
    omega
  obtain ⟨r, hr, hiff⟩ : ∃ r, seek nxt cmp fuel head (mh - 1) (some y) = some r ∧
      (r = some y ↔ Stops h c (some y) (y :: B) (mh - 1)) :=
    seek_level hc hcmp hnd hpos hA (P := []) rfl (Or.inl rfl) hlb (by omega) hlen
  rw [hr, hiff.mpr]
  intro j hj z hz
  rw [level_cons_of_lt (by omega)] at hz
  obtain rfl := Option.some.inj hz
  exact Or.inl ⟨rfl, by omega⟩

/-- The search finds the first node that is not smaller, `B.head?`, exactly if it does not start
with the wrong idea of a smaller node of its top level and no node of `B` leads it astray. -/
theorem seek_iff (hc : ∀ i < mh, Chain (nxt i) head (level h i (A ++ B)))
    (hcmp : ∀ y ∈ A ++ B, cmp y = some (c y)) (hnd : (A ++ B).Nodup)
    (hpos : ∀ y ∈ A ++ B, 0 < h y) (hA : ∀ a ∈ A, c a < 0) (hmh : 0 < mh)
    (hf : (A ++ B).length + mh ≤ fuel) :
    ∃ r, seek nxt cmp fuel head (mh - 1) lastBigger = some r ∧
      (r = B.head? ↔ (∀ a ∈ A, lastBigger = some a → h a < mh) ∧
        Stops h c lastBigger B (mh - 1)) := by
  rw [List.length_append] at hf
  by_cases hlb : ∀ a ∈ A, lastBigger = some a → h a < mh
  · rw [and_iff_right hlb]
    refine seek_level hc hcmp hnd (fun y hy => hpos y (List.mem_append_right A hy)) hA
      (P := []) rfl (Or.inl rfl) ?_ (by omega) (by omega)
    intro a ha htall he
    have := hlb a ha he
    omega
  · -- it stops at the node of `A` that it takes for a larger one
    push Not at hlb
    obtain ⟨a, ha, rfl, htall⟩ := hlb
    obtain ⟨A₁, A₂, rfl⟩ := List.append_of_mem ha
    have hsplit : A₁ ++ a :: A₂ ++ B = A₁ ++ a :: (A₂ ++ B) := by simp
    rw [hsplit] at hc hcmp hnd hpos
    have hlen : A₁.length + ((A₂ ++ B).length + 1) + mh ≤ fuel := by
      simp only [List.length_append, List.length_cons] at hf ⊢
      omega
    refine ⟨some a, ?_, iff_of_false ?_ ?_⟩
    · exact seek_misled hc hcmp hnd (fun y hy => hpos y (List.mem_append_right A₁ hy))
        (fun y hy => hA y (List.mem_append_left _ hy)) hmh htall hlen
    · intro he
      have haB : a ∈ B := List.mem_of_mem_head? he.symm
      have hnd' := (List.nodup_append.mp hnd).2.1
      exact (List.nodup_cons.mp hnd').1 (List.mem_append_right A₂ haB)
    · rintro ⟨hlow, -⟩
      have := hlow a ha rfl
      omega

end PersistTree.Library
