import PersistTree.Driver.Memory
import PersistTree.Driver.Underway

/-!
# The end of a test with the buffer

Between two calls of `write_to_dram` and `main` every step uses up some of the work that is left.
There are `ops_num` calls of `Insert`, one of `Flush` and the deletion of the pool. So the process
comes to its end, and by then all keys have got to the NVM list.
-/
namespace PersistTree.Driver

open Library Transition

/-- The calls of `write_to_dram` and `main` so far, and one more. -/
def callsMade (s : BufferedState) : ℕ :=
  s.i.toNat + s.flushed.toNat + if s.handoff.core.producer = .done then 1 else 0

/-- What a call may cost while no list has more than `N` keys. -/
def callCost (N : ℕ) : ℕ := 22 * (N + 1) + 1

variable {o : Options} {as : List BufferedAction} {s t : BufferedState}
  {d : Handoff.ListParams} {per1gNum : UInt64} {junk : ℕ → ℕ → List UInt8} {env : ℕ → Env}

def Paid (o : Options) (d : Handoff.ListParams) (as : List BufferedAction) (s : BufferedState) :
    Prop :=
  as.length + Handoff.listWorkLeft d o.opsNum.toNat s.handoff + callCost o.opsNum.toNat ≤
    Handoff.listWorkLeft d o.opsNum.toNat (Handoff.listInit d) +
      (callsMade s + as.countP isWake) * callCost o.opsNum.toNat

theorem listParams_fit (hvalue : o.valueSize ≠ 0) (hper : per1gNumNvm o.valueSize = .ok per1gNum)
    (henv : ∀ k, 1 ≤ (env k).height ∧ (env k).height ≤ 20) :
    Fit (listParams o per1gNum junk env) where
  keySize := rfl
  max := by
    have hle : o.skiplistMaxNum.toNat ≤ 20 := UInt64.le_iff_toNat_le.mp o.skiplistMaxNum_ok.2
    exact lt_of_le_of_lt hle (by decide)
  one := UInt64.le_iff_toNat_le.mp o.skiplistMaxNum_ok.1
  per1gNum := by
    have hne := avoids_per1gNumNvm hvalue
    rw [hper] at hne
    exact fun h0 => hne (UInt64.toNat_inj.mp h0)
  env := henv

theorem bufferedStart_underway (ho : Sensible o) (hd : Fit (listParams o per1gNum junk env)) :
    ∃ s, bufferedStart o (listParams o per1gNum junk env) = .ok s ∧
      Underway o (listParams o per1gNum junk env) [] s ∧
      Paid o (listParams o per1gNum junk env) [] s := by
  obtain ⟨q, hq, hzero⟩ := per1gNumDram_eq ho.valueSize.1
  have hle : 0 < (listParams o per1gNum junk env).dramMaxHeight % 2 ^ 16 := Nat.succ_pos 11
  rw [bufferedStart, hq, ok_bind]
  refine ⟨_, rfl, {
    sailing := ?_
    window := fun h0 => ?_
    keys := rfl
    iteration := rfl
    bounded := Nat.zero_le _
    batched := fun _ => init_batched o
    looped := nofun
    emptied := nofun
    done := nofun }, ?_⟩
  · exact ⟨⟨Handoff.listInit_healthy rfl hle (hd.env 0), Handoff.listInit_merged _,
      Handoff.init_served _, [], rfl⟩, Handoff.listInit_orderly hle, fun _ => List.not_mem_nil⟩
  · exact absurd (UInt64.le_iff_toNat_le.mp ho.valueSize.2)
      (not_le.mpr (UInt64.lt_iff_toNat_lt.mp (hzero.mp h0)))
  · have hmade : callsMade ⟨Handoff.listInit (listParams o per1gNum junk env), q, 1, false⟩ = 1 :=
      rfl
    unfold Paid
    rw [hmade, List.length_nil, List.countP_nil, Nat.zero_add, Nat.add_zero, one_mul]

theorem listInternal_iff {b : Handoff.ListAction} :
    Handoff.ListInternal b ↔ InBackground b ∧ isWake (.background b) = false := by
  cases b with
  | insert => exact iff_of_false id fun h => h.1
  | copy => exact iff_of_true trivial ⟨trivial, rfl⟩
  | core a =>
    cases a with
    | insert | flush | realloc | finish => exact iff_of_false id fun h => h.1
    | wake => exact iff_of_false id fun h => absurd h.2 (by decide)
    | producer | take | exit | worker => exact iff_of_true trivial ⟨trivial, rfl⟩

/-- When nothing but a spurious wake-up is possible, the process has come to its end. -/
theorem Underway.done_of_stuck (h : Underway o d as s) (hworkers : 0 < d.workers)
    (hops : o.opsNum.toNat < 10 ^ 8)
    (hstuck : ∀ a, isWake a = false → bufferedStep o d (.ok s) a = none) :
    Handoff.Settled d.toParams s.handoff.core ∧ s.handoff.core.producer = .done := by
  have hthriving := h.sailing.thriving
  have hhealthy := hthriving.healthy
  have hinternal : ∀ b, Handoff.ListInternal b → Handoff.listStep d s.handoff b = none := by
    intro b hb
    obtain ⟨hback, hwake⟩ := listInternal_iff.mp hb
    have hnone := hstuck (.background b) hwake
    rw [bufferedStep, if_pos hback] at hnone
    exact Option.map_eq_none_iff.mp hnone
  have hsettled := Handoff.settled_of_stuck hworkers hthriving.reachable hthriving.served
    hhealthy.core.fault (hhealthy.stuck_core hinternal)
  refine ⟨hsettled, ?_⟩
  rcases hsettled.parties with ⟨hidle, -⟩ | ⟨hdone, -⟩
  · -- the next call of the producer would be possible
    obtain ⟨hinsert, hflush, hfinish⟩ := h.sailing.calls hidle
    by_cases hi : s.i ≤ o.opsNum
    · have hnone := hstuck (.iterate 0 ⟨1, fun _ => []⟩) rfl
      rw [bufferedStep, if_pos hi, BufferedState.iterate, umod,
        if_neg (h.next_number hops hi 0).1] at hnone
      exact absurd (Option.map_eq_none_iff.mp hnone) (hinsert _)
    have hi := UInt64.not_le.mp hi
    by_cases hflushed : s.flushed = true
    · have hnone := hstuck .finish rfl
      rw [bufferedStep, if_pos hflushed] at hnone
      exact absurd (Option.map_eq_none_iff.mp hnone) hfinish
    · have hnone := hstuck .flush rfl
      rw [bufferedStep, if_pos ⟨hi, hflushed⟩] at hnone
      exact absurd (Option.map_eq_none_iff.mp hnone) hflush
  · exact hdone

/-- At its end, the NVM list holds the pairs of numbers of all iterations in order. -/
theorem Underway.arrived (h : Underway o d as s) (hops : o.opsNum.toNat < 10 ^ 8)
    (hd : d.keySize = keySize) {optNum window : ℕ} (hnvm : d.nvm = .new 20 d.keySize optNum window)
    (henv : ∀ k, 1 ≤ (d.env k).height ∧ (d.env k).height ≤ 20)
    (hsettled : Handoff.Settled d.toParams s.handoff.core)
    (hdone : s.handoff.core.producer = .done) :
    (numbers o (draws as)).length = o.opsNum.toNat ∧ ∃ P, s.handoff.nvm.HoldsWindows P ∧
      P.Perm ((numbers o (draws as)).map fun p => lastDigits 8 p.1 ++ lastDigits 8 p.2) ∧
      P.Pairwise WindowOrder := by
  have hflushed := h.done hdone
  refine ⟨?_, ?_⟩
  · rw [← length_inserted]
    exact h.looped hflushed
  obtain ⟨n, keys, P, hn, hkeys, hP, hperm, hsorted⟩ :=
    h.sailing.thriving.arrived hnvm henv hsettled
  rw [h.emptied hflushed (by rw [hdone]; nofun) n hn, List.append_nil, h.keys, inserted_eq] at hkeys
  refine ⟨P, hP, ?_, hsorted⟩
  rw [← hkeys, hd, List.map_map] at hperm
  have hwindows : (numbers o (draws as)).map
      (List.take keySize ∘ fun p => insertData o.valueSize.toNat p.1 p.2) =
        (numbers o (draws as)).map fun p => lastDigits 8 p.1 ++ lastDigits 8 p.2 := by
    refine List.map_congr_left fun p hp => ?_
    obtain ⟨hfst, -, hsnd⟩ := numbers_eight h.bounded hops p hp
    exact take_insertData hfst hsnd
  rwa [hwindows] at hperm

theorem Sailing.listWorkLeft_le {h h' : Handoff.ListState} (hs : Sailing d h) (hs' : Sailing d h')
    {b : Handoff.ListAction} (hb : ¬Handoff.ListInternal b)
    (hstep : Handoff.listStep d h b = some h') (N : ℕ) :
    Handoff.listWorkLeft d N h' + 1 ≤ Handoff.listWorkLeft d N h + 1 * callCost N := by
  have hle := (Handoff.listMoves_of_listStep hstep).listWorkLeft_le (N := N) hs.thriving.healthy
    hs'.thriving.healthy hb
  rw [one_mul, callCost]
  omega

theorem Sailing.listWorkLeft_lt {h h' : Handoff.ListState} (hs : Sailing d h) (hs' : Sailing d h')
    {b : Handoff.ListAction} (hb : Handoff.ListInternal b)
    (hstep : Handoff.listStep d h b = some h') {N : ℕ} (hN : h.inserted.length ≤ N) :
    Handoff.listWorkLeft d N h' + 1 ≤ Handoff.listWorkLeft d N h + 0 * callCost N := by
  have hlt := ((Handoff.listMoves_of_listStep hstep).listWorkLeft_lt hs.thriving.healthy
    hs'.thriving.healthy (Handoff.stale_of_reachable hs.thriving.reachable) hN hb).1
  rwa [zero_mul]

/-- Each step either uses up some of the work left, or is a call or a spurious wake-up and adds what
that may cost. -/
theorem Underway.cost (h : Underway o d as s) {a : BufferedAction}
    (h' : Underway o d (as ++ [a]) t) (hops : o.opsNum.toNat < 10 ^ 8)
    (hr : bufferedStep o d (.ok s) a = some (.ok t)) :
    ∃ c, callsMade s + c ≤ callsMade t + (isWake a).toNat ∧
      Handoff.listWorkLeft d o.opsNum.toNat t.handoff + 1 ≤
        Handoff.listWorkLeft d o.opsNum.toNat s.handoff + c * callCost o.opsNum.toNat := by
  have hnotDone : s.flushed = false → s.handoff.core.producer ≠ .done := fun hf hdone => by
    rw [h.done hdone] at hf
    cases hf
  cases a with
  | iterate draw env =>
    obtain ⟨hi, hr⟩ := Option.ite_none_right_eq_some.mp hr
    obtain ⟨hops0, hflushed, -⟩ := h.next_number hops hi draw
    rw [BufferedState.iterate, umod, if_neg hops0] at hr
    obtain ⟨handoff, hstep, ht⟩ := Option.map_eq_some_iff.mp hr
    rw [BufferedState.next_eq { s with handoff := handoff } h.window] at ht
    obtain rfl := Except.ok.inj ht
    refine ⟨1, ?_, h.sailing.listWorkLeft_le h'.sailing id hstep _⟩
    have hiteration := h'.iteration
    rw [draws_concat] at hiteration
    dsimp only at hiteration
    rw [inserted_concat, List.length_append, List.length_singleton, ← h.iteration] at hiteration
    unfold callsMade
    rw [if_neg (hnotDone hflushed), hiteration]
    dsimp only
    omega
  | flush =>
    obtain ⟨⟨-, hflushed⟩, hr⟩ := Option.ite_none_right_eq_some.mp hr
    obtain ⟨handoff, hstep, ht⟩ := Option.map_eq_some_iff.mp hr
    obtain rfl := Except.ok.inj ht
    have hflushed := Bool.eq_false_of_not_eq_true hflushed
    refine ⟨1, ?_, h.sailing.listWorkLeft_le h'.sailing id hstep _⟩
    unfold callsMade
    rw [if_neg (hnotDone hflushed), hflushed]
    exact Nat.le_add_right_of_le (by simp)
  | finish =>
    obtain ⟨hflushed, hr⟩ := Option.ite_none_right_eq_some.mp hr
    obtain ⟨handoff, hstep, ht⟩ := Option.map_eq_some_iff.mp hr
    obtain rfl := Except.ok.inj ht
    refine ⟨1, ?_, h.sailing.listWorkLeft_le h'.sailing id hstep _⟩
    obtain ⟨hidle, he⟩ := finish_step hstep
    have hdone : handoff.core.producer = .done := congrArg (fun u => u.core.producer) he
    unfold callsMade
    rw [if_pos hdone, if_neg (by rw [hidle]; decide)]
    exact Nat.le_add_right _ _
  | background b =>
    obtain ⟨hb, hr⟩ := Option.ite_none_right_eq_some.mp hr
    obtain ⟨handoff, hstep, ht⟩ := Option.map_eq_some_iff.mp hr
    obtain rfl := Except.ok.inj ht
    have hcalls : callsMade { s with handoff := handoff } = callsMade s := by
      unfold callsMade
      rcases moves_of_background hb hstep with he | ⟨a, ha, hm⟩
      · rw [he]
      · simp only [done_iff_of_moves ha hm]
    cases hwake : isWake (.background b) with
    | true =>
      refine ⟨1, le_of_eq (by rw [hcalls]; rfl),
        h.sailing.listWorkLeft_le h'.sailing (fun hi => ?_) hstep _⟩
      rw [(listInternal_iff.mp hi).2] at hwake
      cases hwake
    | false =>
      refine ⟨0, le_of_eq (by rw [hcalls]; rfl), h.sailing.listWorkLeft_lt h'.sailing
        (listInternal_iff.mpr ⟨hb, hwake⟩) hstep ?_⟩
      rw [h.keys, List.length_map]
      exact h.bounded

theorem Paid.step (hp : Paid o d as s) {a : BufferedAction} {c : ℕ}
    (hcalls : callsMade s + c ≤ callsMade t + (isWake a).toNat)
    (hwork : Handoff.listWorkLeft d o.opsNum.toNat t.handoff + 1 ≤
      Handoff.listWorkLeft d o.opsNum.toNat s.handoff + c * callCost o.opsNum.toNat) :
    Paid o d (as ++ [a]) t := by
  have hcount : (as ++ [a]).countP isWake = as.countP isWake + (isWake a).toNat := by
    rw [List.countP_append, List.countP_singleton, Bool.toNat, Bool.cond_eq_ite]
  have hle := Nat.mul_le_mul_right (callCost o.opsNum.toNat)
    (show callsMade s + as.countP isWake + c ≤
      callsMade t + (as ++ [a]).countP isWake by omega)
  unfold Paid at hp ⊢
  rw [Nat.add_mul] at hle
  rw [List.length_append, List.length_singleton]
  omega

theorem Underway.callsMade_le (h : Underway o d as s) : callsMade s ≤ o.opsNum.toNat + 3 := by
  have hbounded := h.bounded
  have hiteration := h.iteration
  have hflushed := Bool.toNat_le s.flushed
  have hdone : (if s.handoff.core.producer = .done then 1 else 0) ≤ 1 := by
    split_ifs <;> decide
  unfold callsMade
  omega

/-- Every schedule of the process is well-behaved and has not cost too much. -/
theorem run_underway (ho : Sensible o) (hper : per1gNumNvm o.valueSize = .ok per1gNum)
    (henv : ∀ k, 1 ≤ (env k).height ∧ (env k).height ≤ 20) {r : Except Fault BufferedState}
    (hguard : Guarded (bufferedStep o (listParams o per1gNum junk env))
      (bufferedStart o (listParams o per1gNum junk env)) as
      (SchedulesWell (listParams o per1gNum junk env)))
    (hrun : run (bufferedStep o (listParams o per1gNum junk env))
      (bufferedStart o (listParams o per1gNum junk env)) as = some r) :
    ∃ s, r = .ok s ∧ Underway o (listParams o per1gNum junk env) as s ∧
      Paid o (listParams o per1gNum junk env) as s := by
  have hd : Fit (listParams o per1gNum junk env) := listParams_fit ho.valueSize.1 hper henv
  refine Guarded.induction (P := fun as r => ∃ s, r = .ok s ∧
    Underway o (listParams o per1gNum junk env) as s ∧
      Paid o (listParams o per1gNum junk env) as s) ?_ ?_ hguard hrun
  · exact bufferedStart_underway ho hd
  · rintro as _ a r ⟨s, rfl, h, hpaid⟩ hwell hr
    obtain ⟨t, rfl, h'⟩ := h.step ho hd rfl rfl hwell hr
    obtain ⟨c, hcalls, hwork⟩ := h.cost h' ho.opsNum hr
    exact ⟨t, rfl, h', hpaid.step hcalls hwork⟩

theorem bufferedStep_eq_none (hsettled : Handoff.Settled d.toParams s.handoff.core)
    (hdone : s.handoff.core.producer = .done) (hflushed : s.flushed = true) (hi : o.opsNum < s.i)
    {a : BufferedAction} (hwake : isWake a = false) : bufferedStep o d (.ok s) a = none := by
  cases a with
  | iterate draw env => exact if_neg (UInt64.not_le.mpr hi)
  | flush => exact if_neg fun h => h.2 hflushed
  | finish =>
    rw [bufferedStep, if_pos hflushed, Option.map_eq_none_iff]
    simp [Handoff.listStep, Handoff.step, hdone]
  | background b =>
    rw [bufferedStep]
    split_ifs with hb
    · refine Option.map_eq_none_iff.mpr (hsettled.listStuck (fun hidle => ?_)
        (listInternal_iff.mpr ⟨hb, hwake⟩))
      rw [hdone] at hidle
      cases hidle
    · rfl

theorem schedulesWell_background {b : Handoff.ListAction} :
    SchedulesWell d (.ok s) (.background b) ↔
      Handoff.EnqueuesAlone d s.handoff b ∧ Handoff.LoadsSound d s.handoff b :=
  ⟨fun h => h s rfl, fun h t ht => by cases ht; exact h⟩

instance (d : Handoff.ListParams) (r : Except Fault BufferedState) (a : BufferedAction) :
    Decidable (SchedulesWell d r a) :=
  match a with
  | .iterate _ env => inferInstanceAs (Decidable (1 ≤ env.height ∧ env.height ≤ 12))
  | .flush => isTrue trivial
  | .finish => isTrue trivial
  | .background b =>
    match r with
    | .error _ => isTrue fun _ h => by cases h
    | .ok s => decidable_of_iff
        (Handoff.EnqueuesAlone d s.handoff b ∧ Handoff.LoadsSound d s.handoff b)
        schedulesWell_background.symm

def pairOptions : Options := { twoOptions with testType := 1, testType_ok := by decide }

def pairParams : Handoff.ListParams :=
  listParams pairOptions 1073741823 (fun _ _ => [0]) fun _ => ⟨1, fun _ => []⟩

/-- The pool is stopped while a worker flushes the list. -/
def pairSteps : List BufferedAction :=
  List.flatten [[.iterate 5 ⟨2, fun _ => []⟩, .iterate 4 ⟨1, fun _ => []⟩, .flush],
    List.replicate 5 (.background (.core .producer)), [.background (.core (.take 0))],
    List.replicate 7 (.background (.core (.worker 0))),
    [.finish, .background (.copy 0), .background (.copy 0)],
    List.replicate 3 (.background (.core (.worker 0))),
    [.background (.core (.exit 1)), .background (.core (.exit 0))]]

end PersistTree.Driver
