import PersistTree.Buffer.OrderCheck
import PersistTree.Driver.Divisors
import PersistTree.Driver.Memory
import PersistTree.SkipLists.SlotAccess

/-!
# A test of the NVM list

With `test_type` 0 the loop of `write_to_nvm` inserts straight into the NVM list. Below `10 ^ 8`
operations no key occurs twice, the list holds the pairs of the random number and the iteration in
their order, and `Print` reports nothing.
-/
namespace PersistTree.Driver

open Library Transition

def inserted (o : Options) (as : List Action) : List Call :=
  as.foldl (fun done a => match a with
    | .iterate draw env =>
      let number := draw.toUInt64 % o.opsNum
      done ++ [⟨env, insertData o.valueSize.toNat number.toNat (done.length + 1)⟩]
    | _ => done) []

/-- The random number and the number of the iteration, for each iteration so far. -/
def numbers (o : Options) (as : List Action) : List (ℕ × ℕ) :=
  as.foldl (fun done a => match a with
    | .iterate draw _ => done ++ [((draw.toUInt64 % o.opsNum).toNat, done.length + 1)]
    | _ => done) []

/-- The heights that `RandomHeight` of a list of 20 levels may return. -/
def HeightsGood (as : List Action) : Prop :=
  ∀ draw env, Action.iterate draw env ∈ as → 1 ≤ env.height ∧ env.height ≤ 20

variable {o : Options} {as : List Action} {s : State} {valueSize n i : ℕ}

theorem inserted_concat (o : Options) (as : List Action) (a : Action) :
    inserted o (as ++ [a]) = match a with
      | .iterate draw env => inserted o as ++ [⟨env, insertData o.valueSize.toNat
          (draw.toUInt64 % o.opsNum).toNat ((inserted o as).length + 1)⟩]
      | _ => inserted o as := by
  rw [inserted, List.foldl_append]
  rfl

theorem numbers_concat (o : Options) (as : List Action) (a : Action) :
    numbers o (as ++ [a]) = match a with
      | .iterate draw _ =>
        numbers o as ++ [((draw.toUInt64 % o.opsNum).toNat, (numbers o as).length + 1)]
      | _ => numbers o as := by
  rw [numbers, List.foldl_append]
  rfl

theorem inserted_eq (o : Options) (as : List Action) :
    (inserted o as).map Call.key =
      (numbers o as).map fun p => insertData o.valueSize.toNat p.1 p.2 := by
  induction as using List.reverseRecOn with
  | nil => rfl
  | append_singleton as a ih =>
    rw [inserted_concat, numbers_concat]
    cases a with
    | iterate draw env =>
      have hlen := congrArg List.length ih
      rw [List.length_map, List.length_map] at hlen
      dsimp only
      rw [List.map_append, List.map_append, ih, hlen]
      rfl
    | finish | background => exact ih

theorem numbers_snd (o : Options) (as : List Action) :
    (numbers o as).map Prod.snd = List.range' 1 (numbers o as).length := by
  induction as using List.reverseRecOn with
  | nil => rfl
  | append_singleton as a ih =>
    rw [numbers_concat]
    cases a with
    | iterate draw env =>
      rw [List.map_append, ih, List.length_append, List.length_singleton, List.range'_concat]
      simp [Nat.add_comm]
    | finish | background => exact ih

theorem numbers_fst_lt (hops : o.opsNum ≠ 0) (as : List Action) :
    ∀ p ∈ numbers o as, p.1 < o.opsNum.toNat := by
  have hpos : 0 < o.opsNum.toNat :=
    Nat.pos_of_ne_zero fun h0 => hops (UInt64.toNat_inj.mp h0)
  induction as using List.reverseRecOn with
  | nil => exact nofun
  | append_singleton as a ih =>
    rw [numbers_concat]
    cases a with
    | iterate draw env =>
      intro p hp
      rcases List.mem_append.mp hp with hp | hp
      · exact ih p hp
      · rw [List.mem_singleton.mp hp, UInt64.toNat_mod]
        exact Nat.mod_lt _ hpos
    | finish | background => exact ih

theorem length_inserted (o : Options) (as : List Action) :
    (inserted o as).length = (numbers o as).length := by
  have hlen := congrArg List.length (inserted_eq o as)
  rwa [List.length_map, List.length_map] at hlen

theorem startsWithDigits_insertData (hn : n < 10 ^ 8) (hi : i < 10 ^ 8) :
    StartsWithDigits (insertData valueSize n i) := by
  refine ⟨keySize_le_length_insertData valueSize hn hi, fun b hb => ?_⟩
  have htake : (insertData valueSize n i).take 16 = _ := take_insertData hn hi
  rw [htake] at hb
  rcases List.mem_append.mp hb with hb | hb
  · exact isDigit_of_mem_lastDigits hb
  · exact isDigit_of_mem_lastDigits hb

/-- `PrintKey` reads off a key what was printed into it. -/
theorem keyNumbers_insertData (hn : n < 10 ^ 8) (hi : i < 10 ^ 8) :
    keyNumbers (insertData valueSize n i) = (n, i) := by
  have htake : (insertData valueSize n i).take (8 + 8) = lastDigits 8 n ++ lastDigits 8 i :=
    take_insertData hn hi
  rw [List.take_add] at htake
  obtain ⟨hfirst, hsecond⟩ := List.append_inj htake
    ((startsWithDigits_insertData hn hi).length_take.1.trans (length_lastDigits 8 n).symm)
  rw [keyNumbers, hfirst, hsecond, decimalValue_lastDigits hn, decimalValue_lastDigits hi]

/-- The process during a test of the NVM list. -/
structure Progress (o : Options) (as : List Action) (s : State) (A B : List ℕ) : Prop where
  direct : s.skiplistDram = none
  window : s.per1gNum ≠ 0
  nvmWindow : s.skiplistNvm.per1gNum ≠ 0
  keySize : s.skiplistNvm.keySize = keySize
  kMaxHeight : s.skiplistNvm.kMaxHeight = 20
  iteration : s.i.toNat = (inserted o as).length + 1
  bounded : (inserted o as).length ≤ o.opsNum.toNat
  finished : s.finished = true → (inserted o as).length = o.opsNum.toNat
  sorted : PersistentSkipList.Sorted s.skiplistNvm (inserted o as) A B
  allocated : s.skiplistNvm.allocated =
    MappedSkipList.poolSize 20 ((inserted o as).map fun c => (c.key, c.height))

theorem start_progress (htest : o.testType ≠ 1) (hvalue : o.valueSize ≠ 0) :
    ∃ s, start o = .ok s ∧ Progress o [] s [] [] := by
  have hwindow := avoids_per1gNumNvm hvalue
  have hper : ∃ q, per1gNumNvm o.valueSize = .ok q := by
    rw [per1gNumNvm, udiv, if_neg hvalue]
    exact ⟨_, rfl⟩
  obtain ⟨q, hq⟩ := hper
  rw [hq] at hwindow
  have hq0 : q ≠ 0 := hwindow
  refine ⟨⟨PersistentSkipList.new 20 keySize o.opsNum.toNat q.toNat, none, q, 1, false⟩, ?_, ?_⟩
  · simp only [start, hq, ok_bind, if_neg htest, pure_eq_ok]
  · exact {
      direct := rfl
      window := hq0
      nvmWindow := fun h => hq0 (UInt64.toNat_inj.mp h)
      keySize := rfl
      kMaxHeight := rfl
      iteration := rfl
      bounded := Nat.zero_le _
      finished := fun h => by cases h
      sorted := PersistentSkipList.new_sorted _ _ _ (by decide)
      allocated := PersistentSkipList.allocated_new _ _ _ _ }

variable {A B : List ℕ}

theorem Progress.iterate (h : Progress o as s A B) (hops : o.opsNum.toNat < 10 ^ 8)
    (hi : s.i ≤ o.opsNum) (draw : UInt32) {env : Env} (hpos : 1 ≤ env.height)
    (hle : env.height ≤ 20) : ∃ t A' B', s.iterate o draw env = .ok t ∧
      Progress o (as ++ [.iterate draw env]) t A' B' := by
  have hi' : (inserted o as).length + 1 ≤ o.opsNum.toNat := by
    rw [← h.iteration]
    exact UInt64.le_iff_toNat_le.mp hi
  have hops0 : o.opsNum ≠ 0 := by
    intro h0
    rw [h0] at hi'
    exact absurd hi' (Nat.not_succ_le_zero _)
  have hnumber : (draw.toUInt64 % o.opsNum).toNat < o.opsNum.toNat := by
    rw [UInt64.toNat_mod]
    exact Nat.mod_lt _ (by omega)
  obtain ⟨c, hc⟩ : ∃ c : Call, c = ⟨env, insertData o.valueSize.toNat
    (draw.toUInt64 % o.opsNum).toNat ((inserted o as).length + 1)⟩ := ⟨_, rfl⟩
  have hkey : s.skiplistNvm.keySize ≤ c.key.length := by
    rw [h.keySize, hc]
    exact keySize_le_length_insertData _ (by omega) (by omega)
  have hheight : 1 ≤ c.height ∧ c.height ≤ s.skiplistNvm.kMaxHeight := by
    rw [h.kMaxHeight, hc]
    exact ⟨hpos, hle⟩
  rcases h.sorted.insert c hkey hheight.1 hheight.2 with
    ⟨hz, -⟩ | ⟨nvm, A', B', hnvm, hlink, hsorted⟩
  · exact absurd hz h.nvmWindow
  · have hinserted : inserted o (as ++ [.iterate draw env]) = inserted o as ++ [c] := by
      rw [inserted_concat, hc]
    refine ⟨{ s with skiplistNvm := nvm, i := s.i + 1 }, A' ++ [s.skiplistNvm.nodes.length], B',
      ?_, ?_⟩
    · have hinsert : s.insert c = .ok { s with skiplistNvm := nvm } := by
        rw [State.insert, h.direct]
        simp only [hnvm]
        rfl
      rw [hc] at hinsert
      rw [State.iterate, umod, if_neg hops0, ok_bind, h.iteration, hinsert, ok_bind, umod,
        if_neg h.window, ok_bind]
      split_ifs
      · rw [udiv, if_neg h.window]
        rfl
      · rfl
    · have hcfg := hlink.sameConfig
      have hlen : (inserted o (as ++ [.iterate draw env])).length =
          (inserted o as).length + 1 := by
        rw [hinserted, List.length_append, List.length_singleton]
      exact {
        direct := h.direct
        window := h.window
        nvmWindow := hcfg.per1gNum ▸ h.nvmWindow
        keySize := hcfg.keySize.trans h.keySize
        kMaxHeight := hcfg.kMaxHeight.trans h.kMaxHeight
        iteration := by
          rw [hlen, UInt64.toNat_add, h.iteration]
          exact Nat.mod_eq_of_lt (by show _ + 1 + 1 < 2 ^ 64; omega)
        bounded := by rwa [hlen]
        finished := fun hf => by
          have := h.finished hf
          omega
        sorted := hinserted ▸ hsorted
        allocated := by
          rw [hlink.allocated, h.allocated, hinserted, MappedSkipList.poolSize,
            MappedSkipList.poolSize, List.map_append, List.map_append, List.sum_append,
            Nat.add_assoc]
          rfl }

theorem Progress.step (h : Progress o as s A B) (hops : o.opsNum.toNat < 10 ^ 8) {a : Action}
    (ha : HeightsGood [a]) {r : Except Fault State} (hr : step o (.ok s) a = some r) :
    ∃ t A' B', r = .ok t ∧ Progress o (as ++ [a]) t A' B' := by
  cases a with
  | iterate draw env =>
    obtain ⟨hi, rfl⟩ := Option.ite_some_none_eq_some.mp hr
    obtain ⟨hpos, hle⟩ := ha draw env (by simp)
    exact h.iterate hops hi draw hpos hle
  | finish =>
    obtain ⟨⟨hi, -⟩, rfl⟩ := Option.ite_some_none_eq_some.mp hr
    have hinserted : inserted o (as ++ [.finish]) = inserted o as := inserted_concat _ _ _
    refine ⟨{ s with finished := true }, A, B, by rw [State.finish, h.direct], ?_⟩
    have hi' := UInt64.lt_iff_toNat_lt.mp hi
    rw [h.iteration] at hi'
    have hbounded := h.bounded
    exact {
      direct := h.direct
      window := h.window
      nvmWindow := h.nvmWindow
      keySize := h.keySize
      kMaxHeight := h.kMaxHeight
      iteration := by rw [hinserted]; exact h.iteration
      bounded := by rwa [hinserted]
      finished := fun _ => by rw [hinserted]; omega
      sorted := by rw [hinserted]; exact h.sorted
      allocated := by rw [hinserted]; exact h.allocated }
  | background c =>
    obtain ⟨hdram, -⟩ := Option.ite_some_none_eq_some.mp hr
    rw [h.direct] at hdram
    cases hdram

theorem HeightsGood.of_concat {a : Action} (h : HeightsGood (as ++ [a])) :
    HeightsGood as ∧ HeightsGood [a] :=
  ⟨fun draw env hmem => h draw env (List.mem_append_left _ hmem),
    fun draw env hmem => h draw env (List.mem_append_right _ hmem)⟩

theorem run_progress (htest : o.testType ≠ 1) (hvalue : o.valueSize ≠ 0)
    (hops : o.opsNum.toNat < 10 ^ 8) (hheights : HeightsGood as) {r : Except Fault State}
    (hrun : run (step o) (start o) as = some r) : ∃ s A B, r = .ok s ∧ Progress o as s A B := by
  refine run_induction (P := fun as r => HeightsGood as → ∃ s A B, r = .ok s ∧ Progress o as s A B)
    (fun _ => ?_) (fun as r a r' ih hr hheights => ?_) hrun hheights
  · obtain ⟨s, hs, h⟩ := start_progress htest hvalue
    exact ⟨s, [], [], hs, h⟩
  · obtain ⟨has, ha⟩ := hheights.of_concat
    obtain ⟨s, A, B, rfl, h⟩ := ih has
    exact h.step hops ha hr

/-- The order in which the pairs of numbers are to be. -/
def Before (a b : ℕ × ℕ) : Prop := a.1 < b.1 ∨ a.1 = b.1 ∧ a.2 < b.2

theorem numbers_bounds (hbounded : (inserted o as).length ≤ o.opsNum.toNat) :
    ∀ p ∈ numbers o as, p.1 < o.opsNum.toNat ∧ 1 ≤ p.2 ∧ p.2 ≤ o.opsNum.toNat := by
  intro p hp
  rw [length_inserted] at hbounded
  have hsnd : p.2 ∈ List.range' 1 (numbers o as).length := by
    rw [← numbers_snd]
    exact List.mem_map_of_mem hp
  have hrange := List.mem_range'_1.mp hsnd
  have hops0 : o.opsNum ≠ 0 := by
    intro h0
    rw [h0] at hbounded
    have hzero : (0 : UInt64).toNat = 0 := rfl
    omega
  exact ⟨numbers_fst_lt hops0 as p hp, hrange.1, by omega⟩

theorem keys_ne (hbounded : (inserted o as).length ≤ o.opsNum.toNat)
    (hops : o.opsNum.toNat < 10 ^ 8) :
    (inserted o as).Pairwise fun c d => strncmp c.key d.key Driver.keySize ≠ 0 := by
  have horder : OrderPreserving o.valueSize.toNat o.opsNum.toNat := orderPreserving_of_lt hops
  have hsnd : ((numbers o as).map Prod.snd).Nodup := by
    rw [numbers_snd]
    exact List.nodup_range'
  have hne : (numbers o as).Pairwise fun p q => p.2 ≠ q.2 := List.pairwise_map.mp hsnd
  have hkeys : ((numbers o as).map fun p => insertData o.valueSize.toNat p.1 p.2).Pairwise
      fun a b => strncmp a b Driver.keySize ≠ 0 := by
    rw [List.pairwise_map]
    refine hne.imp_of_mem fun {p q} hp hq hpq heq => ?_
    obtain ⟨hp1, hp2, hp3⟩ := numbers_bounds hbounded p hp
    obtain ⟨hq1, hq2, hq3⟩ := numbers_bounds hbounded q hq
    obtain ⟨-, hneg, hpos⟩ := horder p.2 q.2 p.1 q.1 hp2 hp3 hq2 hq3 hpq hp1 hq1
    rw [heq] at hneg hpos
    omega
  rw [← inserted_eq, List.pairwise_map] at hkeys
  exact hkeys

theorem Progress.exists_numbers (h : Progress o as s A B) {y : ℕ} (hy : y ∈ A ++ B) :
    ∃ p ∈ numbers o as, s.skiplistNvm.keyOf y = insertData o.valueSize.toNat p.1 p.2 := by
  have hmem : s.skiplistNvm.keyOf y ∈ (inserted o as).map Call.key :=
    h.sorted.filled.keys_perm.subset (List.mem_map_of_mem hy)
  rw [inserted_eq] at hmem
  obtain ⟨p, hp, he⟩ := List.mem_map.mp hmem
  exact ⟨p, hp, he.symm⟩

theorem numbers_eight (hbounded : (inserted o as).length ≤ o.opsNum.toNat)
    (hops : o.opsNum.toNat < 10 ^ 8) :
    ∀ p ∈ numbers o as, p.1 < 10 ^ 8 ∧ 1 ≤ p.2 ∧ p.2 < 10 ^ 8 := by
  intro p hp
  obtain ⟨hfst, hpos, hsnd⟩ := numbers_bounds hbounded p hp
  exact ⟨hfst.trans hops, hpos, lt_of_le_of_lt hsnd hops⟩

theorem Progress.numbers_perm (h : Progress o as s A B) (hops : o.opsNum.toNat < 10 ^ 8) :
    ((A ++ B).map fun y => keyNumbers (s.skiplistNvm.keyOf y)).Perm (numbers o as) := by
  have hperm := h.sorted.filled.keys_perm.map keyNumbers
  rw [inserted_eq, List.map_map, List.map_map] at hperm
  have hid : (numbers o as).map (keyNumbers ∘ fun p => insertData o.valueSize.toNat p.1 p.2) =
      numbers o as := by
    rw [List.map_congr_left (g := id), List.map_id]
    intro p hp
    obtain ⟨hfst, -, hsnd⟩ := numbers_eight h.bounded hops p hp
    exact keyNumbers_insertData hfst hsnd
  rwa [hid] at hperm

theorem Progress.strncmp_lt (h : Progress o as s A B) (hops : o.opsNum.toNat < 10 ^ 8) :
    (A ++ B).Pairwise fun x y =>
      strncmp (s.skiplistNvm.keyOf x) (s.skiplistNvm.keyOf y) Driver.keySize < 0 := by
  rw [← h.keySize]
  apply h.sorted.filled.pairwise_lt
  rw [h.keySize]
  exact keys_ne h.bounded hops

theorem Progress.startsWithDigits (h : Progress o as s A B) (hops : o.opsNum.toNat < 10 ^ 8)
    {y : ℕ} (hy : y ∈ A ++ B) : StartsWithDigits (s.skiplistNvm.keyOf y) := by
  obtain ⟨p, hp, he⟩ := h.exists_numbers hy
  obtain ⟨hfst, -, hsnd⟩ := numbers_eight h.bounded hops p hp
  rw [he]
  exact startsWithDigits_insertData hfst hsnd

theorem startsWithDigits_append {key : Key} (h : StartsWithDigits key) (junk : List UInt8) :
    StartsWithDigits (key ++ junk) ∧ (key ++ junk).take 16 = key.take 16 := by
  have htake : (key ++ junk).take 16 = key.take 16 := List.take_append_of_le_length h.1
  refine ⟨⟨?_, ?_⟩, htake⟩
  · rw [List.length_append]
    exact h.1.trans (Nat.le_add_right _ _)
  · rw [htake]
    exact h.2

theorem Progress.print_eq (h : Progress o as s A B) (hops : o.opsNum.toNat < 10 ^ 8)
    (junk : ℕ → List UInt8) :
    s.skiplistNvm.print junk = .ok (List.replicate (A ++ B).length false) := by
  have hdigits : ∀ key ∈ (A ++ B).map fun y => s.skiplistNvm.keyOf y ++ junk y,
      StartsWithDigits key := by
    intro key hkey
    obtain ⟨y, hy, rfl⟩ := List.mem_map.mp hkey
    exact (startsWithDigits_append (h.startsWithDigits hops hy) (junk y)).1
  rw [PersistentSkipList.print_eq h.sorted.located.base]
  refine congrArg _ (List.eq_replicate_iff.mpr ⟨?_, fun b hb => ?_⟩)
  · rw [length_orderErrors, List.length_map]
  · refine Bool.eq_false_iff.mpr ?_
    rintro rfl
    refine absurd hb ((orderErrors_silent_iff hdigits).mpr ⟨?_, ?_⟩)
    · -- the iterations are counted from 1
      intro key hkey hzero
      obtain ⟨y, hy, rfl⟩ := List.mem_map.mp (List.mem_of_getElem? hkey)
      have hy' := h.startsWithDigits hops hy
      rw [(startsWithDigits_append hy' (junk y)).2, ← keyNumbers_eq_zero_iff hy'] at hzero
      obtain ⟨p, hp, he⟩ := h.exists_numbers hy
      obtain ⟨hfst, hpos, hsnd⟩ := numbers_eight h.bounded hops p hp
      rw [he, keyNumbers_insertData hfst hsnd] at hzero
      have := congrArg Prod.snd hzero
      dsimp only at this
      omega
    · rw [List.isChain_map]
      refine ((h.strncmp_lt hops).imp_of_mem fun {x y} hx hy hlt => ?_).isChain
      rw [strncmp_neg_iff] at hlt ⊢
      rwa [strnview_append (h.startsWithDigits hops hx).1,
        strnview_append (h.startsWithDigits hops hy).1]

theorem length_insertData_le (valueSize n i : ℕ) :
    (insertData valueSize n i).length ≤ keySize + valueSize :=
  List.length_take_le _ _

theorem callSize_le (hheights : HeightsGood as) : ∀ c ∈ inserted o as,
    1 ≤ c.height ∧ c.height ≤ 20 ∧ MappedSkipList.callSize (c.key, c.height) ≤
      8 + 8 * 20 + (keySize + o.valueSize.toNat) := by
  induction as using List.reverseRecOn with
  | nil => exact nofun
  | append_singleton as a ih =>
    obtain ⟨has, ha⟩ := hheights.of_concat
    rw [inserted_concat]
    cases a with
    | iterate draw env =>
      intro c hc
      rcases List.mem_append.mp hc with hc | hc
      · exact ih has c hc
      · obtain rfl := List.mem_singleton.mp hc
        obtain ⟨hpos, hle⟩ := ha draw env (by simp)
        have hlen := length_insertData_le o.valueSize.toNat (draw.toUInt64 % o.opsNum).toNat
          ((inserted o as).length + 1)
        refine ⟨hpos, hle, ?_⟩
        simp only [MappedSkipList.callSize]
        omega
    | finish | background => exact ih has

theorem Progress.poolSize_le (h : Progress o as s A B) (hheights : HeightsGood as) :
    MappedSkipList.poolSize 20 ((inserted o as).map fun c => (c.key, c.height)) ≤ poolNeed o := by
  have hsum : (((inserted o as).map fun c => (c.key, c.height)).map MappedSkipList.callSize).sum ≤
      (inserted o as).length * (8 + 8 * 20 + (Driver.keySize + o.valueSize.toNat)) := by
    rw [List.map_map]
    have hle := List.sum_le_card_nsmul ((inserted o as).map
      (MappedSkipList.callSize ∘ fun c => (c.key, c.height)))
      (8 + 8 * 20 + (Driver.keySize + o.valueSize.toNat)) (by
        intro n hn
        obtain ⟨c, hc, rfl⟩ := List.mem_map.mp hn
        exact (callSize_le hheights c hc).2.2)
    rwa [List.length_map, smul_eq_mul] at hle
  exact Nat.add_le_add_left (hsum.trans (Nat.mul_le_mul_right _ h.bounded)) _

/-- On the bytes of the pool the insertions return as well. -/
theorem Progress.run_ok (h : Progress o as s A B) (hops : o.opsNum.toNat < 10 ^ 8)
    (hheights : HeightsGood as) (hneed : poolNeed o ≤ nvmSize) {pmemaddr : ℕ}
    (hpos : 0 < pmemaddr) (htop : pmemaddr + nvmSize < 2 ^ 64) (memory : ByteMemory) :
    ∃ p, MappedSkipList.run (.new pmemaddr nvmSize memory) 20 Driver.keySize o.opsNum.toNat
      s.skiplistNvm.per1gNum ((inserted o as).map fun c => (c.key, c.height)) = .ok p := by
  have hadmissible : MappedSkipList.Admissible pmemaddr nvmSize 20 Driver.keySize
      s.skiplistNvm.per1gNum ((inserted o as).map fun c => (c.key, c.height)) := by
    refine ⟨hpos, htop, by decide, by decide, Nat.pos_of_ne_zero h.nvmWindow, fun d hd => ?_⟩
    obtain ⟨c, hc, rfl⟩ := List.mem_map.mp hd
    obtain ⟨hone, hle, -⟩ := callSize_le hheights c hc
    have hkey : c.key ∈ (inserted o as).map Call.key := List.mem_map_of_mem hc
    rw [inserted_eq] at hkey
    obtain ⟨p, hp, he⟩ := List.mem_map.mp hkey
    obtain ⟨hfst, -, hsnd⟩ := numbers_eight h.bounded hops p hp
    exact ⟨hone, hle, he ▸ keySize_le_length_insertData _ hfst hsnd⟩
  obtain ⟨-, p, -, -, hp, -⟩ := MappedSkipList.run_ok hadmissible
    ((h.poolSize_le hheights).trans hneed) memory o.opsNum.toNat
  exact ⟨p, hp⟩

/-- A test of the NVM list with less than `10 ^ 8` operations never goes wrong on a stack that holds
its buffer and in a pool that holds its keys, and on the bytes of that pool its insertions return.
At any time the list holds the pairs of numbers that were printed into its keys, each once and in
their order; `Print` reports nothing, and `PrintLevelNum` prints how many nodes drew which height.
The loop ends after `ops_num` iterations. -/
theorem direct_test (o : Options) (htest : o.testType ≠ 1) (hvalue : o.valueSize ≠ 0)
    (hops : o.opsNum.toNat < 10 ^ 8) (stack : ℕ) (hstack : (bufSize o).toNat ≤ stack)
    (hneed : poolNeed o ≤ nvmSize) (as : List Action) (hheights : HeightsGood as)
    (r : Except Fault State) (hrun : run (confined (step o) (inPool State.skiplistNvm))
      (onStack stack o (start o)) as = some r) :
    ∃ s L, r = .ok s ∧ s.skiplistNvm.allocated ≤ nvmSize ∧
      (∀ (pmemaddr : ℕ) (memory : ByteMemory), 0 < pmemaddr → pmemaddr + nvmSize < 2 ^ 64 →
        ∃ p, MappedSkipList.run (.new pmemaddr nvmSize memory) 20 keySize o.opsNum.toNat
          s.skiplistNvm.per1gNum ((inserted o as).map fun c => (c.key, c.height)) = .ok p) ∧
      (s.finished = true → (numbers o as).length = o.opsNum.toNat) ∧
      Chain (s.skiplistNvm.nodes.next 0) s.skiplistNvm.head L ∧
      (L.map fun y => keyNumbers (s.skiplistNvm.keyOf y)).Perm (numbers o as) ∧
      (L.map fun y => keyNumbers (s.skiplistNvm.keyOf y)).Pairwise Before ∧
      (∀ junk, s.skiplistNvm.print junk = .ok (List.replicate L.length false)) ∧
      s.skiplistNvm.printLevelNum = .ok ((List.range 20).map fun i =>
        (inserted o as).countP fun c => decide (i < c.height)) := by
  rw [onStack, if_pos hstack] at hrun
  obtain ⟨s, A, B, rfl, h⟩ := run_progress htest hvalue hops hheights (run_of_confined hrun)
  refine ⟨s, A ++ B, rfl, ?_, fun pmemaddr memory hpos htop =>
    h.run_ok hops hheights hneed hpos htop memory, fun hf => ?_, h.sorted.located.base,
    h.numbers_perm hops, ?_, h.print_eq hops, ?_⟩
  · rw [h.allocated]
    exact (h.poolSize_le hheights).trans hneed
  · rw [← length_inserted]
    exact h.finished hf
  · rw [List.pairwise_map]
    refine (h.strncmp_lt hops).imp_of_mem fun {x y} hx hy hlt => ?_
    exact (strncmp_neg_iff_keyNumbers (h.startsWithDigits hops hx)
      (h.startsWithDigits hops hy)).mp hlt
  · rw [h.sorted.located.printLevelNum_eq, h.kMaxHeight]
    simp only [h.sorted.filled.length_level]

def twoOptions : Options where
  usingExistingData := false
  testType := 0
  valueSize := 1
  opsType := true
  opsNum := 2
  memSkiplistSize := 1
  skiplistMaxNum := 1
  testType_ok := by decide
  valueSize_ok := by decide
  skiplistMaxNum_ok := by decide

/-- The second key belongs in front of the first. -/
theorem direct_test_two : ∃ (s : State) (L : List ℕ),
    run (confined (step twoOptions) (inPool State.skiplistNvm))
      (onStack 18 twoOptions (start twoOptions)) [.iterate 5 ⟨2, fun _ => []⟩,
        .iterate 4 ⟨1, fun _ => []⟩, .finish] = some (.ok s) ∧
    s.skiplistNvm.allocated ≤ nvmSize ∧
    (L.map fun y => keyNumbers (s.skiplistNvm.keyOf y)).Perm [(1, 1), (0, 2)] ∧
    (∀ junk, s.skiplistNvm.print junk = .ok (List.replicate L.length false)) ∧
    s.skiplistNvm.printLevelNum = .ok ((List.range 20).map fun i =>
      [2, 1].countP fun height => decide (i < height)) := by
  obtain ⟨r, hr⟩ : ∃ r, run (confined (step twoOptions) (inPool State.skiplistNvm))
      (onStack 18 twoOptions (start twoOptions)) [.iterate 5 ⟨2, fun _ => []⟩,
        .iterate 4 ⟨1, fun _ => []⟩, .finish] = some r := ⟨_, rfl⟩
  have hheights : HeightsGood [.iterate 5 ⟨2, fun _ => []⟩, .iterate 4 ⟨1, fun _ => []⟩,
      .finish] := by
    intro draw env hmem
    simp only [List.mem_cons, Action.iterate.injEq, List.not_mem_nil, or_false] at hmem
    rcases hmem with ⟨-, rfl⟩ | ⟨-, rfl⟩ | hmem
    · decide
    · decide
    · cases hmem
  obtain ⟨s, L, rfl, hroom, -, -, -, hperm, -, hprint, hlevels⟩ :=
    direct_test twoOptions (by decide) (by decide) (by decide) 18 (by decide) (by decide) _
      hheights r hr
  exact ⟨s, L, hr, hroom, hperm, hprint, hlevels⟩

end PersistTree.Driver
