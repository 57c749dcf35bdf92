import PersistTree.Driver.BufferedModel
import PersistTree.Log.Capacity

/-!
# The lists of a test with the buffer

All keys of a test have the same length, so every list that `Insert` hands over has the same number
of keys. The final `Flush` hands over the rest, and leaves an empty list behind.
-/
namespace PersistTree.Driver

open Library

/-- How many keys fill a DRAM list up. -/
def batchKeys (o : Options) : ℕ :=
  ((o.memSkiplistSize * 1024 * 1024).toNat - 1) / (keySize + o.valueSize.toNat) + 1

variable {o : Options} {valueSize n i k : ℕ}

theorem length_insertData (hn : n < 10 ^ 8) (hi : i < 10 ^ 8) :
    (insertData valueSize n i).length = keySize + valueSize := by
  rw [insertData, zeroPadded_asInt32 hn, zeroPadded_asInt32 hi, List.length_take,
    List.length_append, List.length_append, length_lastDigits, length_lastDigits,
    List.length_replicate]
  exact min_self _

theorem batchKeys_le_iff (hk : 0 < k) : batchKeys o ≤ k ↔
    (o.memSkiplistSize * 1024 * 1024).toNat ≤ k * (keySize + o.valueSize.toNat) := by
  have hpos : 0 < keySize + o.valueSize.toNat := Nat.add_pos_left (by decide) _
  have hkeys : 0 < k * (keySize + o.valueSize.toNat) := Nat.mul_pos hk hpos
  rw [batchKeys, Nat.succ_le_iff, Nat.div_lt_iff_lt_mul hpos]
  omega

section batched

variable {p : Handoff.Params} {core core' : Handoff.State} {a : Handoff.Action}

/-- The DRAM lists before the final `Flush`: those handed over are full, and the active one has room
for another key between two iterations. -/
structure Batched (o : Options) (core : Handoff.State) : Prop where
  full : ∀ n < core.made, core.skiplist ≠ some n → (core.keys n).length = batchKeys o
  pushing : core.producer = .push → ∀ n, core.skiplist = some n →
    (core.keys n).length = batchKeys o
  filling : core.producer = .idle → ∀ n, core.skiplist = some n →
    (core.keys n).length < batchKeys o
  count : ∀ n, core.skiplist = some n →
    core.curMemSkiplistSize = (core.keys n).length * (keySize + o.valueSize.toNat)

theorem init_batched (o : Options) : Batched o Handoff.init where
  full n hn hne := by
    obtain rfl := Nat.lt_one_iff.mp hn
    exact absurd rfl hne
  pushing := nofun
  filling _ n _ := Nat.succ_pos _
  count n _ := (Nat.zero_mul _).symm

/-- `Insert` calls `Flush` with the key that fills the list up. -/
theorem Batched.insert (h : Batched o core) (hn : core.skiplist = some n)
    (hp : core.producer = .idle)
    (hmax : p.maxMemSkiplistSize = (o.memSkiplistSize * 1024 * 1024).toNat) {key : Key}
    (hkey : key.length = keySize + o.valueSize.toNat)
    (hsmall : ((core.keys n).length + 1) * (keySize + o.valueSize.toNat) < 2 ^ 64) :
    Batched o (Handoff.insertKey p core key) := by
  have hcur : (core.curMemSkiplistSize + key.length) % 2 ^ 64 =
      ((core.keys n).length + 1) * (keySize + o.valueSize.toNat) := by
    rw [h.count n hn, hkey, ← Nat.succ_mul]
    exact Nat.mod_eq_of_lt hsmall
  have hfull := batchKeys_le_iff (o := o) (Nat.succ_pos (core.keys n).length)
  have hroom := h.filling hp n hn
  have hlen : (Function.update core.keys n (core.keys n ++ [key]) n).length =
      (core.keys n).length + 1 := by
    rw [Function.update_self, List.length_append, List.length_singleton]
  rw [Log.insertKey_eq hn hp, hcur, hmax]
  constructor
  · intro m hm hne
    have hmn : m ≠ n := fun hmn => hne (hmn ▸ hn)
    dsimp only
    rw [Function.update_of_ne hmn]
    exact h.full m hm hne
  · intro hpush m hm
    obtain rfl : n = m := Option.some.inj (hn.symm.trans hm)
    dsimp only at hpush ⊢
    rw [hlen]
    split_ifs at hpush with hle
    have := hfull.mpr hle
    omega
  · intro hidle m hm
    obtain rfl : n = m := Option.some.inj (hn.symm.trans hm)
    dsimp only at hidle ⊢
    rw [hlen]
    split_ifs at hidle with hle
    exact Nat.lt_of_not_le fun hbatch => hle (hfull.mp hbatch)
  · intro m hm
    obtain rfl : n = m := Option.some.inj (hn.symm.trans hm)
    dsimp only
    rw [hlen]

theorem Batched.goTo (h : Batched o core) (pc : Handoff.ProducerPc)
    (hpush : pc ≠ .push) (hidle : pc ≠ .idle) : Batched o (core.goTo pc) :=
  ⟨h.full, fun hpc => absurd hpc hpush, fun hpc => absurd hpc hidle, h.count⟩

theorem Batched.moves (h : Batched o core) (hfresh : ∀ n, core.made ≤ n → core.keys n = [])
    (ha : InBackground (.core a)) (hm : Handoff.Moves p core a core')
    (hf : core'.fault = none) : Batched o core' := by
  cases hm with
  | insertNull | reallocKept | pushFull | runFault => cases hf
  | insert | flush | finish => exact ha.elim
  | realloc _ hp hl =>
    refine ⟨fun n hn hne => ?_, nofun, fun _ n hn => ?_, fun n hn => ?_⟩
    · have hlt : n < core.made :=
        Nat.lt_of_le_of_ne (Nat.le_of_lt_succ hn) fun he => hne (he ▸ rfl)
      exact h.full n hlt (by rw [hl]; nofun)
    · obtain rfl : core.made = n := Option.some.inj hn
      show (core.keys core.made).length < _
      rw [hfresh _ le_rfl]
      exact Nat.succ_pos _
    · obtain rfl : core.made = n := Option.some.inj hn
      show 0 = (core.keys core.made).length * _
      rw [hfresh _ le_rfl]
      exact (Nat.zero_mul _).symm
  | push hp hq =>
    refine ⟨fun n hn _ => ?_, nofun, nofun, nofun⟩
    by_cases hactive : core.skiplist = some n
    · exact h.pushing hp n hactive
    · exact h.full n hn hactive
  | block | pass | waited | sleep | loadTrue | loadFalse | wake =>
    exact h.goTo _ (by decide) (by decide)
  | enqueue =>
    have h' := h.goTo .realloc (by decide) (by decide)
    exact ⟨h'.full, h'.pushing, h'.filling, h'.count⟩
  | notifyWake =>
    have h' := h.goTo .wait (by decide) (by decide)
    exact ⟨h'.full, h'.pushing, h'.filling, h'.count⟩
  | _ => exact ⟨h.full, h.pushing, h.filling, h.count⟩

theorem Batched.length_eq (h : Batched o core) (hmade : core.made = n + 1)
    (hn : core.skiplist = some n) : ((List.range core.made).flatMap core.keys).length =
      n * batchKeys o + (core.keys n).length := by
  have hfull : (List.range n).map (fun m => (core.keys m).length) =
      List.replicate n (batchKeys o) := by
    refine List.eq_replicate_iff.mpr ⟨by simp, fun k hk => ?_⟩
    obtain ⟨m, hm, rfl⟩ := List.mem_map.mp hk
    have hlt := List.mem_range.mp hm
    exact h.full m (by omega) (by rw [hn]; simp; omega)
  rw [hmade, List.range_succ, List.flatMap_append, List.length_append, List.length_flatMap, hfull,
    List.sum_replicate, List.flatMap_singleton, smul_eq_mul]

/-- After the final `Flush` has handed the last keys over. -/
def Emptied (core : Handoff.State) : Prop :=
  core.producer ≠ .push → ∀ n, core.skiplist = some n → core.keys n = []

theorem Emptied.moves (h : Emptied core) (hfresh : ∀ n, core.made ≤ n → core.keys n = [])
    (ha : InBackground (.core a)) (hm : Handoff.Moves p core a core') : Emptied core' := by
  cases hm with
  | insert | flush | finish => exact ha.elim
  | realloc _ hp hl =>
    intro _ n hn
    obtain rfl : core.made = n := Option.some.inj hn
    exact hfresh _ le_rfl
  | push => exact nofun
  | block hp | pass hp | waited hp | sleep hp | loadTrue hp | loadFalse hp | enqueue hp | wake hp =>
    exact fun _ => h (by rw [hp]; nofun)
  | notifyWake w hw hpc hp => exact fun _ => h (by rw [hp]; nofun)
  | _ => exact h

theorem done_iff_of_moves (ha : InBackground (.core a)) (hm : Handoff.Moves p core a core') :
    core'.producer = .done ↔ core.producer = .done := by
  cases hm with
  | insert | flush | finish => exact ha.elim
  | realloc _ hp =>
    rcases hp with ⟨rfl, -⟩ | ⟨-, hp⟩
    · exact ha.elim
    · simp [hp]
  | push hp | block hp | pass hp | waited hp | sleep hp | loadTrue hp | loadFalse hp | enqueue hp
  | wake hp => simp [hp, Handoff.State.goTo]
  | notifyWake w hw hpc hp => simp [hp, Handoff.State.goTo]
  | _ => exact Iff.rfl

end batched

end PersistTree.Driver
