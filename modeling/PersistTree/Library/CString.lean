import Mathlib.Data.List.Lex
import Mathlib.Data.List.TakeWhile
import Mathlib.Tactic

/-!
# C strings and bounded comparison

The memory a pointer points to is a finite list of bytes followed by zeros: whatever follows a
buffer, only the bytes up to the next zero can matter to a string function. `strncmp` compares
two such memories byte by byte as unsigned characters. Its sign is the lexicographic order of
the bytes it can see, that is, of the at most `n` bytes before the first zero.
-/
namespace PersistTree.Library

/-- The difference at the first of the `n` positions where the bytes differ, or 0 when there is
none or a common zero byte comes first. -/
def strncmp : List UInt8 → List UInt8 → ℕ → ℤ
  | _, _, 0 => 0
  | a, b, n + 1 =>
    if a.headD 0 ≠ b.headD 0 then ((a.headD 0).toNat : ℤ) - (b.headD 0).toNat
    else if a.headD 0 = 0 then 0
    else strncmp a.tail b.tail n

/-- The same without a bound: the strings end at their zero bytes. -/
def strcmp : List UInt8 → List UInt8 → ℤ
  | [], b => -((b.headD 0).toNat : ℤ)
  | x :: a, b =>
    if x ≠ b.headD 0 then (x.toNat : ℤ) - (b.headD 0).toNat
    else if x = 0 then 0
    else strcmp a b.tail

/-- The string that starts at a pointer: the bytes before the first zero. -/
def cString (mem : List UInt8) : List UInt8 := mem.takeWhile (· ≠ 0)

/-- What a comparison of at most `n` bytes can see of a memory. -/
def strnview : ℕ → List UInt8 → List ℕ
  | 0, _ => []
  | n + 1, a => if a.headD 0 = 0 then [] else (a.headD 0).toNat :: strnview n a.tail

variable {a b c : List UInt8} {n : ℕ}

theorem strncmp_trichotomy (a b : List UInt8) (n : ℕ) :
    (strncmp a b n < 0 ∧ strnview n a < strnview n b) ∨
      (strncmp a b n = 0 ∧ strnview n a = strnview n b) ∨
      (0 < strncmp a b n ∧ strnview n b < strnview n a) := by
  induction n generalizing a b with
  | zero => exact Or.inr (Or.inl ⟨rfl, rfl⟩)
  | succ n ih =>
    by_cases hab : a.headD 0 = b.headD 0
    · by_cases h0 : a.headD 0 = 0
      · -- a common terminator ends both strings
        refine Or.inr (Or.inl ⟨?_, ?_⟩)
        · rw [strncmp, if_neg (not_not.mpr hab), if_pos h0]
        · rw [strnview, strnview, if_pos h0, if_pos (hab ▸ h0)]
      · rw [strncmp, if_neg (not_not.mpr hab), if_neg h0, strnview, strnview, if_neg h0,
          if_neg (hab ▸ h0), hab]
        simpa [List.cons_lt_cons_iff] using ih a.tail b.tail
    · have hne : (a.headD 0).toNat ≠ (b.headD 0).toNat := fun h => hab (UInt8.toNat_inj.mp h)
      rw [strncmp, if_pos hab, strnview, strnview]
      by_cases ha : a.headD 0 = 0
      · have hb : b.headD 0 ≠ 0 := fun h => hab (ha.trans h.symm)
        have ha' : (a.headD 0).toNat = 0 := by rw [ha]; rfl
        rw [if_pos ha, if_neg hb]
        exact Or.inl ⟨by omega, List.nil_lt_cons _ _⟩
      · by_cases hb : b.headD 0 = 0
        · have hb' : (b.headD 0).toNat = 0 := by rw [hb]; rfl
          rw [if_neg ha, if_pos hb]
          exact Or.inr (Or.inr ⟨by omega, List.nil_lt_cons _ _⟩)
        · rw [if_neg ha, if_neg hb]
          rcases Nat.lt_or_gt_of_ne hne with hlt | hgt
          · exact Or.inl ⟨by omega, List.cons_lt_cons_iff.mpr (Or.inl hlt)⟩
          · exact Or.inr (Or.inr ⟨by omega, List.cons_lt_cons_iff.mpr (Or.inl hgt)⟩)

theorem strncmp_neg_iff : strncmp a b n < 0 ↔ strnview n a < strnview n b := by
  rcases strncmp_trichotomy a b n with ⟨h, hv⟩ | ⟨h, hv⟩ | ⟨h, hv⟩
  · exact ⟨fun _ => hv, fun _ => h⟩
  · exact ⟨fun h' => by omega, fun h' => absurd (hv ▸ h') (lt_irrefl _)⟩
  · exact ⟨fun h' => by omega, fun h' => absurd h' (lt_asymm hv)⟩

theorem strncmp_eq_zero_iff : strncmp a b n = 0 ↔ strnview n a = strnview n b := by
  rcases strncmp_trichotomy a b n with ⟨h, hv⟩ | ⟨h, hv⟩ | ⟨h, hv⟩
  · exact ⟨fun h' => by omega, fun h' => absurd hv (h' ▸ lt_irrefl _)⟩
  · exact ⟨fun _ => hv, fun _ => h⟩
  · exact ⟨fun h' => by omega, fun h' => absurd hv (h' ▸ lt_irrefl _)⟩

theorem strncmp_pos_iff : 0 < strncmp a b n ↔ strnview n b < strnview n a := by
  rcases strncmp_trichotomy a b n with ⟨h, hv⟩ | ⟨h, hv⟩ | ⟨h, hv⟩
  · exact ⟨fun h' => by omega, fun h' => absurd h' (lt_asymm hv)⟩
  · exact ⟨fun h' => by omega, fun h' => absurd (hv ▸ h') (lt_irrefl _)⟩
  · exact ⟨fun _ => hv, fun _ => h⟩

theorem strncmp_nonpos_iff : strncmp a b n ≤ 0 ↔ strnview n a ≤ strnview n b := by
  rw [← not_lt, strncmp_pos_iff, not_lt]

/-- A difference inside the window decides the order of the whole strings. -/
theorem strcmp_eq (h : strncmp a b n ≠ 0) : strcmp a b = strncmp a b n := by
  induction n generalizing a b with
  | zero => exact absurd rfl h
  | succ n ih =>
    rw [strncmp] at h ⊢
    cases a with
    | nil =>
      rw [List.headD_nil] at h ⊢
      split_ifs at h ⊢ with hb h0
      · simp [strcmp]
      · exact absurd rfl h
      · exact absurd rfl h0
    | cons x a =>
      rw [List.headD_cons, List.tail_cons] at h ⊢
      rw [strcmp]
      split_ifs at h ⊢ with hxb hx
      · rfl
      · rfl
      · exact ih h

/-- Bytes beyond the window are invisible. -/
theorem strnview_append (h : n ≤ a.length) (b : List UInt8) :
    strnview n (a ++ b) = strnview n a := by
  induction n generalizing a with
  | zero => rfl
  | succ n ih =>
    cases a with
    | nil => simp at h
    | cons x a =>
      have ha := ih (a := a) (by simpa using h)
      simp [strnview, ha]

theorem strnview_take (h : n ≤ a.length) : strnview n (a.take n) = strnview n a := by
  have hlen : n ≤ (a.take n).length := by rw [List.length_take, Nat.min_eq_left h]
  rw [← strnview_append hlen (a.drop n), List.take_append_drop]

theorem strnview_of_nul_free (h : n ≤ a.length) (h0 : (0 : UInt8) ∉ a.take n) :
    strnview n a = (a.take n).map UInt8.toNat := by
  induction n generalizing a with
  | zero => rfl
  | succ n ih =>
    cases a with
    | nil => simp at h
    | cons x a =>
      simp only [List.take_succ_cons, List.mem_cons, not_or] at h0
      have hx : x ≠ 0 := Ne.symm h0.1
      simp only [strnview, List.headD_cons, List.tail_cons, hx, if_false, List.take_succ_cons,
        List.map_cons]
      rw [ih (by simpa using h) h0.2]

theorem strnview_cons_eq_cons {x : UInt8} (h : a.headD 0 = x) (hx : x ≠ 0) (hn : 0 < n) :
    strnview n a = x.toNat :: strnview (n - 1) a.tail := by
  obtain ⟨n, rfl⟩ : ∃ m, n = m + 1 := ⟨n - 1, by omega⟩
  rw [strnview, h, if_neg hx]
  rfl

theorem take_cString (h0 : (0 : UInt8) ∉ a.take n) : (cString a).take n = a.take n := by
  induction n generalizing a with
  | zero => simp
  | succ n ih =>
    cases a with
    | nil => rfl
    | cons x a =>
      simp only [List.take_succ_cons, List.mem_cons, not_or] at h0
      have hx : x ≠ 0 := Ne.symm h0.1
      simp only [cString, List.takeWhile_cons, hx, ne_eq, not_false_eq_true, decide_true,
        if_true, List.take_succ_cons]
      rw [← ih h0.2]
      rfl

theorem zero_not_mem_cString (mem : List UInt8) : (0 : UInt8) ∉ cString mem := by
  intro h
  have := List.mem_takeWhile_imp h
  simp at this

theorem cString_append (ha : (0 : UInt8) ∉ a) (b : List UInt8) :
    cString (a ++ b) = a ++ cString b := by
  apply List.takeWhile_append_of_pos
  intro y hy
  apply decide_eq_true
  rintro rfl
  exact ha hy

theorem cString_eq_nil_iff : cString b = [] ↔ b.headD 0 = 0 := by
  cases b with
  | nil => simp [cString]
  | cons x b =>
    by_cases hx : x = 0
    · simp [cString, hx]
    · simp [cString, hx]

/-- A buffer is read back as it was written exactly if it has no zero byte and the memory behind it
starts with one. -/
theorem cString_append_eq_self_iff : cString (a ++ b) = a ↔ (0 : UInt8) ∉ a ∧ b.headD 0 = 0 := by
  constructor
  · intro h
    have ha : (0 : UInt8) ∉ a := h ▸ zero_not_mem_cString (a ++ b)
    rw [cString_append ha, List.append_right_eq_self] at h
    exact ⟨ha, cString_eq_nil_iff.mp h⟩
  · rintro ⟨ha, hb⟩
    rw [cString_append ha, cString_eq_nil_iff.mpr hb, List.append_nil]

theorem strnview_cString (n : ℕ) (a : List UInt8) : strnview n (cString a) = strnview n a := by
  induction n generalizing a with
  | zero => rfl
  | succ n ih =>
    cases a with
    | nil => rfl
    | cons x a =>
      by_cases hx : x = 0
      · simp [cString, strnview, hx]
      · have hcut : cString (x :: a) = x :: cString a := by simp [cString, hx]
        rw [hcut, strnview, strnview, List.headD_cons, List.headD_cons, if_neg hx, if_neg hx]
        exact congrArg _ (ih a)

/-- A smaller string seems larger only when it ends inside the window, the other one continues it,
and what lies behind its end is larger than the continuation. -/
theorem strncmp_append_neg_iff (h0 : (0 : UInt8) ∉ a) (h : strncmp a b n < 0) (c : List UInt8) :
    strncmp b (a ++ c) n < 0 ↔
      a.length < n ∧ a <+: b ∧ strncmp (b.drop a.length) c (n - a.length) < 0 := by
  induction a generalizing b n with
  | nil =>
    have hn : 0 < n := by
      by_contra hz
      obtain rfl : n = 0 := Nat.eq_zero_of_not_pos hz
      exact absurd h (lt_irrefl 0)
    simp [hn]
  | cons x a ih =>
    rw [List.mem_cons, not_or] at h0
    have hx : x ≠ 0 := Ne.symm h0.1
    cases n with
    | zero => exact absurd h (lt_irrefl 0)
    | succ n =>
      cases b with
      | nil =>
        simp only [strncmp, List.headD_cons, List.headD_nil, ne_eq, hx, not_false_eq_true,
          if_true, UInt8.toNat_zero] at h
        omega
      | cons y b =>
        by_cases hxy : x = y
        · subst y
          simp only [strncmp, List.headD_cons, ne_eq, not_true, hx, if_false, List.tail_cons] at h
          simp only [strncmp, List.cons_append, List.headD_cons, ne_eq, not_true, hx, if_false,
            List.tail_cons, List.length_cons, List.drop_succ_cons, Nat.add_sub_add_right,
            Nat.add_lt_add_iff_right, List.cons_prefix_cons, true_and]
          exact ih h0.2 h
        · simp only [strncmp, List.headD_cons, ne_eq, hxy, not_false_eq_true, if_true] at h
          have hyx : ¬strncmp (y :: b) (x :: (a ++ c)) (n + 1) < 0 := by
            simp only [strncmp, List.headD_cons, ne_eq, Ne.symm hxy, not_false_eq_true, if_true]
            omega
          rw [List.cons_append, List.cons_prefix_cons]
          simp only [hyx, hxy, false_and, and_false]

section Reader

variable {ε : Type}

/-- `strncmp` on bytes fetched one at a time: those at position `j` are read only when all the
bytes before them were equal and not zero. -/
def strncmpFrom (a b : ℕ → Except ε UInt8) : ℕ → ℕ → Except ε ℤ
  | _, 0 => return 0
  | j, n + 1 => do
    let x ← a j
    let y ← b j
    if x ≠ y then return (x.toNat : ℤ) - y.toNat
    else if x = 0 then return 0
    else strncmpFrom a b (j + 1) n

theorem strncmpFrom_eq {read read' : ℕ → Except ε UInt8} {j : ℕ}
    (ha : ∀ i < j + n, read i = .ok (a.getD i 0)) (hb : ∀ i < j + n, read' i = .ok (b.getD i 0)) :
    strncmpFrom read read' j n = .ok (strncmp (a.drop j) (b.drop j) n) := by
  have hhead : ∀ (l : List UInt8) (j : ℕ), (l.drop j).headD 0 = l.getD j 0 := by
    intro l j
    rw [List.headD_eq_head?_getD, List.head?_drop, List.getD_eq_getElem?_getD]
  induction n generalizing j with
  | zero => rfl
  | succ n ih =>
    have ht := ih (j := j + 1) (fun i hi => ha i (by omega)) fun i hi => hb i (by omega)
    rw [strncmpFrom, ha j (by omega), hb j (by omega), strncmp, hhead, hhead, List.tail_drop,
      List.tail_drop]
    change (if _ then _ else _) = _
    split_ifs
    · rfl
    · rfl
    · exact ht

end Reader

end PersistTree.Library
