import PersistTree.Driver.Main

/-!
# Which divisors can be zero

Only the insertion into the NVM list divides, and it divides by the `per_1g_num_` of the
constructor, which is odd. What is left are the divisions of the driver itself.
-/
namespace PersistTree

open Library

theorem avoids_deref {α : Type} {e : Fault} (he : e ≠ .badAccess) (x : Option α) :
    Avoids e (fun _ => True) (deref x) := by
  cases x with
  | some a => trivial
  | none => exact he.symm

theorem avoids_position {e : Fault} (he : e ≠ .badAccess) {cmp : ℕ → Except Fault ℤ}
    (hcmp : ∀ n, Avoids e (fun _ => True) (cmp n)) (next : ℕ → Option Ptr) (p : ℕ) :
    Avoids e (fun _ => True) (position cmp next p) := by
  refine (hcmp p).bind fun res _ => ?_
  split_ifs
  · refine (avoids_deref he _).bind fun n _ => ?_
    cases n with
    | none => trivial
    | some n =>
      refine (hcmp n).bind fun res _ => ?_
      split_ifs <;> trivial
  · trivial
  · trivial

namespace PersistentSkipList

variable {s : PersistentSkipList} {env : Env} {key : Key}

theorem avoids_searchFrom (hs : s.per1gNum ≠ 0) (x : ℕ) :
    Avoids .divByZero (fun s' : PersistentSkipList => s'.per1gNum = s.per1gNum)
      (s.searchFrom env key x) := by
  refine (avoids_deref (by decide) _).bind fun r _ => ?_
  simp only [hs, if_false]
  split_ifs <;> rfl

theorem avoids_findLessThan (hs : s.per1gNum ≠ 0) :
    Avoids .divByZero (fun s' : PersistentSkipList => s'.per1gNum = s.per1gNum)
      (s.findLessThan env key) :=
  avoids_searchFrom (s := { s with allCnt := s.allCnt + 1, headCnt := s.headCnt + 1 }) hs s.head

theorem avoids_findNextNode (hs : s.per1gNum ≠ 0) :
    Avoids .divByZero (fun s' : PersistentSkipList => s'.per1gNum = s.per1gNum)
      (s.findNextNode env key) :=
  (avoids_deref (by decide) _).bind fun x _ =>
    avoids_searchFrom (s := { s with allCnt := s.allCnt + 1 }) hs x

theorem avoids_locate (hs : s.per1gNum ≠ 0) :
    Avoids .divByZero (fun s' : PersistentSkipList => s'.per1gNum = s.per1gNum)
      (s.locate env key) := by
  have hcmp : ∀ n, Avoids Fault.divByZero (fun _ => True) (s.compareKeyAndNode env key n) :=
    fun n => (avoids_deref (by decide) _).bind fun _ _ => trivial
  refine (avoids_deref (by decide) _).bind fun p _ => ?_
  refine (avoids_position (by decide) hcmp _ p).bind fun pos _ => ?_
  cases pos with
  | behind => exact avoids_findLessThan (s := { s with opt1gNum := s.opt1gNum + 1 }) hs
  | ahead =>
    have hfind : Avoids .divByZero (fun s' : PersistentSkipList => s'.per1gNum = s.per1gNum)
        ({ s with opt1gNum := s.opt1gNum + 1 }.findNextNode env key) := avoids_findNextNode hs
    exact hfind.bind fun t ht => ht
  | atEnd | between | onNext | onFinger => rfl

theorem avoids_insert (hs : s.per1gNum ≠ 0) (c : Call) :
    Avoids .divByZero (fun s' : PersistentSkipList => s'.per1gNum = s.per1gNum) (s.insert c) := by
  refine (avoids_locate hs).bind fun t ht => ?_
  exact (avoids_deref (by decide) _).bind fun _ _ => ht

end PersistentSkipList

theorem MemorySkipList.avoids_insert (s : MemorySkipList) (c : Call) :
    Avoids .divByZero (fun _ => True) (s.insert c) := by
  have hcmp : ∀ n, Avoids Fault.divByZero (fun _ => True) (s.compareKeyAndNode c.toEnv c.key n) :=
    fun n => (avoids_deref (by decide) _).bind fun _ _ => trivial
  have hsearch : ∀ x, Avoids .divByZero (fun _ => True) (s.searchFrom c.toEnv c.key x) :=
    fun x => (avoids_deref (by decide) _).bind fun _ _ => trivial
  have hlocate : Avoids .divByZero (fun _ => True) (s.locate c.toEnv c.key) := by
    refine (avoids_deref (by decide) _).bind fun p _ => ?_
    refine (avoids_position (by decide) hcmp _ p).bind fun pos _ => ?_
    cases pos with
    | behind => exact (hsearch s.head).bind fun _ _ => trivial
    | ahead =>
      have hfind : Avoids .divByZero (fun _ => True) (s.findNextNode c.toEnv c.key) :=
        (avoids_deref (by decide) _).bind fun x _ => hsearch x
      exact hfind.bind fun _ _ => trivial
    | atEnd | between | onNext | onFinger => trivial
  refine hlocate.bind fun ⟨t, isSameNode⟩ _ => ?_
  cases isSameNode with
  | true =>
    change Avoids _ _ (t.overwriteFinger c.key)
    refine (avoids_deref (by decide) _).bind fun p _ => ?_
    refine (avoids_deref (by decide) _).bind fun n _ => ?_
    exact (avoids_deref (by decide) _).bind fun _ _ => trivial
  | false =>
    change Avoids _ _ (t.linkNode c.key c.height)
    exact (avoids_deref (by decide) _).bind fun _ _ => trivial

namespace SkiplistWriteNVM

theorem avoids_flush (w : SkiplistWriteNVM) : Avoids .divByZero (fun _ => True) w.flush := trivial

theorem avoids_insert (w : SkiplistWriteNVM) (c : Call) :
    Avoids .divByZero (fun _ => True) (w.insert c) := by
  refine (avoids_deref (by decide) _).bind fun list _ => ?_
  refine (list.avoids_insert c).bind fun list _ => ?_
  dsimp only
  split_ifs
  · exact avoids_flush _
  · trivial

end SkiplistWriteNVM

namespace Driver

variable {o : Options} {s : State} {a b : UInt64}

theorem avoids_udiv (hb : b ≠ 0) : Avoids .divByZero (fun _ => True) (udiv a b) := by
  rw [udiv, if_neg hb]
  trivial

theorem avoids_umod (hb : b ≠ 0) : Avoids .divByZero (fun _ => True) (umod a b) := by
  rw [umod, if_neg hb]
  trivial

/-- The wrap-around of the unsigned difference does not matter: the window of the NVM list is odd.
-/
theorem avoids_per1gNumNvm (ha : a ≠ 0) : Avoids .divByZero (· ≠ 0) (per1gNumNvm a) := by
  refine (avoids_udiv ha).bind fun q _ => ?_
  intro h0
  have h1 : q * 1024 = 0 + 1 := by rw [← h0, UInt64.sub_add_cancel]
  have h := congrArg UInt64.toNat h1
  have h1024 : (1024 : UInt64).toNat = 1024 := rfl
  have h1' : (0 + 1 : UInt64).toNat = 1 := rfl
  rw [UInt64.toNat_mul, h1024, h1'] at h
  omega

/-- The window of the DRAM list is empty for values of more than 1000 KiB. -/
theorem per1gNumDram_eq (ha : a ≠ 0) :
    ∃ q, per1gNumDram a = .ok q ∧ (q = 0 ↔ 1024000 < a) := by
  refine ⟨1024 * 1000 / a * 1000, by rw [per1gNumDram, udiv, if_neg ha, ok_bind]; rfl, ?_⟩
  have hpos : a.toNat ≠ 0 := fun h => ha (UInt64.toNat_inj.mp h)
  have hdiv : (1024 * 1000 / a : UInt64).toNat = 1024000 / a.toNat := UInt64.toNat_div _ _
  have hle : 1024000 / a.toNat ≤ 1024000 := Nat.div_le_self _ _
  have h1000 : (1000 : UInt64).toNat = 1000 := rfl
  have hlarge : (1024000 : UInt64).toNat = 1024000 := rfl
  rw [← UInt64.toNat_inj, UInt64.toNat_mul, hdiv, h1000, Nat.mod_eq_of_lt (by omega),
    UInt64.lt_iff_toNat_lt, hlarge]
  change 1024000 / a.toNat * 1000 = 0 ↔ 1024000 < a.toNat
  rw [Nat.mul_eq_zero, or_iff_left (by decide), Nat.div_eq_zero_iff, or_iff_right hpos]

/-- What keeps the divisors of the loop and of the searches from being zero. -/
structure Safe (o : Options) (s : State) : Prop where
  nvm : s.skiplistNvm.per1gNum ≠ 0
  first : o.opsNum = 0 → s.i = 1
  window : o.opsNum ≠ 0 → s.per1gNum ≠ 0

theorem Safe.insert (hs : Safe o s) (c : Call) :
    Avoids .divByZero (fun t => Safe o t ∧ t.per1gNum = s.per1gNum) (s.insert c) := by
  rw [State.insert]
  split
  next dram _ => exact (dram.avoids_insert c).map fun _ _ => ⟨⟨hs.nvm, hs.first, hs.window⟩, rfl⟩
  next =>
    refine (PersistentSkipList.avoids_insert hs.nvm c).map fun nvm hnvm => ⟨?_, rfl⟩
    exact ⟨hnvm ▸ hs.nvm, hs.first, hs.window⟩

theorem Safe.iterate (hs : Safe o s) (hi : s.i ≤ o.opsNum) (draw : UInt32) (env : Env) :
    Avoids .divByZero (Safe o) (s.iterate o draw env) := by
  have hops : o.opsNum ≠ 0 := by
    intro h0
    rw [h0, hs.first h0] at hi
    exact absurd hi (by decide)
  refine (avoids_umod hops).bind fun number _ => ?_
  refine (hs.insert _).bind fun t ht => ?_
  have hwindow : t.per1gNum ≠ 0 := ht.1.window hops
  have hnext : Safe o { t with i := t.i + 1 } :=
    ⟨ht.1.nvm, fun h0 => absurd h0 hops, ht.1.window⟩
  refine (avoids_umod hwindow).bind fun r _ => ?_
  split_ifs
  · exact (avoids_udiv hwindow).bind fun _ _ => hnext
  · exact hnext

theorem Safe.step (hs : Safe o s) {act : Action} {r : Except Fault State}
    (h : step o (.ok s) act = some r) : Avoids .divByZero (Safe o) r := by
  cases act with
  | iterate draw env =>
    obtain ⟨hi, rfl⟩ := Option.ite_some_none_eq_some.mp h
    exact hs.iterate hi draw env
  | finish =>
    obtain ⟨-, rfl⟩ := Option.ite_some_none_eq_some.mp h
    rw [State.finish]
    split
    next dram _ => exact dram.avoids_flush.map fun _ _ => ⟨hs.nvm, hs.first, hs.window⟩
    next => exact ⟨hs.nvm, hs.first, hs.window⟩
  | background c =>
    obtain ⟨-, rfl⟩ := Option.ite_some_none_eq_some.mp h
    refine (PersistentSkipList.avoids_insert hs.nvm c).map fun nvm hnvm => ?_
    exact ⟨hnvm ▸ hs.nvm, hs.first, hs.window⟩

theorem start_safe (hv : o.valueSize ≠ 0)
    (hdram : o.testType = 1 → o.opsNum = 0 ∨ o.valueSize ≤ 1024000) :
    Avoids .divByZero (Safe o) (start o) := by
  refine (avoids_per1gNumNvm hv).bind fun p hp => ?_
  have hp' : p.toNat ≠ 0 := fun h => hp (UInt64.toNat_inj.mp h)
  dsimp only
  split_ifs with htest
  · obtain ⟨q, hq, hzero⟩ := per1gNumDram_eq hv
    rw [hq, ok_bind]
    refine ⟨hp', fun _ => rfl, fun hops hq0 => ?_⟩
    have hle := (hdram htest).resolve_left hops
    exact absurd (hzero.mp hq0) (UInt64.not_lt.mpr hle)
  · exact (avoids_per1gNumNvm hv).bind fun q hq => ⟨hp', fun _ => rfl, fun _ => hq⟩

theorem noZeroDivisor_of (hv : o.valueSize ≠ 0)
    (hdram : o.testType = 1 → o.opsNum = 0 ∨ o.valueSize ≤ 1024000) : NoZeroDivisor o := by
  intro as r hr
  have hreach : Transition.Reachable (step o) (start o) r := ⟨as, hr⟩
  have hinv : Avoids .divByZero (Safe o) r := by
    refine hreach.invariant (start_safe hv hdram) ?_
    intro x act y hx hstep
    cases x with
    | ok s => exact Safe.step hx hstep
    | error e => cases hstep
  exact hinv.ne_error

theorem insert_first (size valueSize : ℕ) {number : ℕ} (hnumber : number < 10 ^ 8) :
    ∃ w, (SkiplistWriteNVM.init 12 size keySize).insert
      ⟨⟨1, fun _ => []⟩, insertData valueSize number 1⟩ = .ok w := by
  have hfirst : MemorySkipList.Printable keySize (insertData valueSize number 1) := by
    have htake : (insertData valueSize number 1).take keySize = _ :=
      take_insertData hnumber (by decide)
    obtain ⟨b, l, hb⟩ : ∃ b l, lastDigits 8 number = b :: l :=
      List.exists_cons_of_ne_nil (List.ne_nil_of_length_eq_add_one (length_lastDigits 8 number))
    have hdigit : IsDigit b := isDigit_of_mem_lastDigits (by rw [hb]; exact List.mem_cons_self)
    refine ⟨b, by rw [htake, hb]; rfl, ?_⟩
    exact UInt8.lt_iff_toNat_lt.mpr (lt_of_lt_of_le (by decide) hdigit.1)
  have hnew : MemorySkipList.Sorted (MemorySkipList.new 12 keySize) [] [] [] :=
    MemorySkipList.new_sorted keySize (by decide)
  obtain ⟨list, -, -, hlist, -⟩ := hnew.insert ⟨⟨1, fun _ => []⟩, insertData valueSize number 1⟩
    (keySize_le_length_insertData valueSize hnumber (by decide)) (by simp) hfirst le_rfl
    (show 1 ≤ 12 % 2 ^ 16 by decide)
  have hend : ∀ w : SkiplistWriteNVM, ∃ w',
      (if w.maxMemSkiplistSize ≤ w.curMemSkiplistSize then w.flush else pure w) = .ok w' := by
    intro w
    split_ifs
    · exact ⟨_, rfl⟩
    · exact ⟨w, rfl⟩
  simp only [SkiplistWriteNVM.insert, SkiplistWriteNVM.init, deref_some, ok_bind, hlist]
  exact hend ⟨some list, 12, size, (0 + (insertData valueSize number 1).length) % 2 ^ 64, keySize,
    []⟩

theorem iterate_first (hops : o.opsNum ≠ 0) (nvm : PersistentSkipList) (size : ℕ) :
    State.iterate ⟨nvm, some (SkiplistWriteNVM.init 12 size keySize), 0, 1, false⟩ o 1
      ⟨1, fun _ => []⟩ = .error .divByZero := by
  have hnumber : ((1 : UInt32).toUInt64 % o.opsNum).toNat < 10 ^ 8 := by
    have hmod : ((1 : UInt32).toUInt64 % o.opsNum).toNat ≤ (1 : UInt32).toUInt64.toNat :=
      (UInt64.toNat_mod _ o.opsNum).trans_le (Nat.mod_le _ _)
    exact lt_of_le_of_lt hmod (by decide)
  obtain ⟨w, hw⟩ := insert_first size o.valueSize.toNat hnumber
  have hinsert : (SkiplistWriteNVM.init 12 size keySize).insert ⟨⟨1, fun _ => []⟩,
      insertData o.valueSize.toNat ((1 : UInt32).toUInt64 % o.opsNum).toNat (1 : UInt64).toNat⟩ =
      .ok w := hw
  rw [State.iterate, umod, if_neg hops, ok_bind]
  simp only [State.insert, hinsert]
  rfl

theorem not_noZeroDivisor_of_dram (hv : o.valueSize ≠ 0) (htest : o.testType = 1)
    (hops : o.opsNum ≠ 0) (hlarge : 1024000 < o.valueSize) : ¬NoZeroDivisor o := by
  intro h
  obtain ⟨p, hp⟩ : ∃ p, per1gNumNvm o.valueSize = .ok p := by
    rw [per1gNumNvm, udiv, if_neg hv]
    exact ⟨_, rfl⟩
  obtain ⟨q, hq, hzero⟩ := per1gNumDram_eq hv
  obtain rfl := hzero.mpr hlarge
  have hstart : start o = .ok ⟨PersistentSkipList.new 20 keySize o.opsNum.toNat p.toNat,
      some (SkiplistWriteNVM.init 12 (o.memSkiplistSize * 1024 * 1024).toNat keySize), 0, 1,
      false⟩ := by
    simp only [start, hp, hq, ok_bind, htest, if_true]
    rfl
  have hle : 1 ≤ o.opsNum := by
    rw [UInt64.le_iff_toNat_le]
    exact Nat.one_le_iff_ne_zero.mpr fun h0 => hops (UInt64.toNat_inj.mp h0)
  refine h [.iterate 1 ⟨1, fun _ => []⟩] (.error .divByZero) ?_ rfl
  rw [Transition.run, hstart, step, if_pos hle, iterate_first hops]
  rfl

/-- The runs of `start` are those of `main`, once `parse_input` has accepted the parameters. -/
theorem noZeroDivisor_iff_main {num : ℤ} {atoi : ℕ → Int32}
    (h : parseInput num atoi = .ok (some o)) : NoZeroDivisor o ↔
      main num atoi ≠ .error .divByZero ∧ ∀ s, main num atoi = .ok (some s) →
        ∀ as r, Transition.run (step o) (.ok s) as = some r → r ≠ .error .divByZero := by
  rw [main_eq h]
  unfold NoZeroDivisor
  cases hstart : start o with
  | ok s =>
    refine ⟨fun hall => ⟨nofun, fun t ht => ?_⟩, fun hall => hall.2 s rfl⟩
    obtain rfl := Option.some.inj (Except.ok.inj ht)
    exact hall
  | error e =>
    have hstuck : ∀ as r, Transition.run (step o) (.error e) as = some r → r = .error e := by
      intro as r hr
      cases as with
      | nil => exact (Option.some.inj hr).symm
      | cons a as => cases hr
    constructor
    · intro hall
      refine ⟨fun he => hall [] (.error e) rfl ?_, nofun⟩
      cases he
      rfl
    · rintro ⟨hne, -⟩ as r hr he
      rw [hstuck as r hr] at he
      cases he
      exact hne rfl

/-- The driver divides by zero exactly if the values are empty, or if it buffers at least one value
of more than 1000 KiB. -/
theorem noZeroDivisor_iff (o : Options) : NoZeroDivisor o ↔
    o.valueSize ≠ 0 ∧ (o.testType = 1 → o.opsNum = 0 ∨ o.valueSize ≤ 1024000) := by
  constructor
  · intro h
    have hv : o.valueSize ≠ 0 := by
      intro h0
      apply h [] (start o) rfl
      rw [start, per1gNumNvm, udiv, if_pos h0]
      rfl
    refine ⟨hv, fun htest => ?_⟩
    by_contra hno
    obtain ⟨hops, hlarge⟩ := not_or.mp hno
    exact not_noZeroDivisor_of_dram hv htest hops (UInt64.not_le.mp hlarge) h
  · rintro ⟨hv, hdram⟩
    exact noZeroDivisor_of hv hdram

/-- The parameters `0 1 0 1 1 1 1`: values of no bytes pass the test of `parse_input`. -/
theorem not_noZeroDivisor : ¬∀ (num : ℤ) (atoi : ℕ → Int32) (o : Options),
    parseInput num atoi = .ok (some o) → NoZeroDivisor o := by
  intro h
  exact h 8 (fun k => if k = 1 ∨ k = 3 then 0 else 1) _ rfl [] (.error .divByZero) rfl rfl

end Driver

end PersistTree
