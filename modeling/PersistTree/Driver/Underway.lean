import PersistTree.Driver.DirectTest
import PersistTree.Driver.FullLists
import PersistTree.Handoff.Completion
import PersistTree.Handoff.OrderReports

/-!
# During a test with the buffer

The keys of a test are such that the lists can take them. What the schedule has to keep to is that a
`CallThread` is enqueued alone and relied on only if it is going to pop again. The options must not
let the last call of `Insert` fill a list up, since the final `Flush` would hand over an empty one.
Then no step goes wrong.
-/
namespace PersistTree.Driver

open Library Transition

variable {o : Options} {as : List BufferedAction} {s t : BufferedState}

section sailing

variable {d : Handoff.ListParams} {h h' : Handoff.ListState} {b : Handoff.ListAction}

/-- The hand-off during a test: nothing has gone wrong, and nothing was reported. -/
structure Sailing (d : Handoff.ListParams) (h : Handoff.ListState) : Prop where
  thriving : Handoff.Thriving d h
  orderly : Handoff.Orderly d h
  silent : ∀ w, true ∉ (h.loops w).reports

/-- What the lists need of the constants of `main`, of the options and of the environment. -/
structure Fit (d : Handoff.ListParams) : Prop where
  keySize : d.keySize = 16
  max : d.skiplistMaxNum < Handoff.queueMaxSize
  one : 1 ≤ d.skiplistMaxNum
  per1gNum : d.nvm.per1gNum ≠ 0
  env : ∀ k, 1 ≤ (d.env k).height ∧ (d.env k).height ≤ d.nvm.kMaxHeight

theorem Sailing.step (hs : Sailing d h) (hd : Fit d) (hwell : Handoff.StepsWell d h b)
    (hload : Handoff.LoadsSound d h b) (hgood : Handoff.InsertsNumbers d h b)
    (hstep : Handoff.listStep d h b = some h') : Sailing d h' := by
  have hm := Handoff.listMoves_of_listStep hstep
  have ht := hs.thriving.step hd.max hd.one hd.per1gNum hd.env hwell hload hm
  exact ⟨ht, hs.orderly.step hd.keySize hgood hm ht.healthy.fault ht.healthy.core.fault,
    hs.orderly.silent hd.keySize hm hs.silent⟩

theorem call_allowed (hb : b.toCore ≠ some .producer) :
    Handoff.EnqueuesAlone d h b ∧ Handoff.LoadsSound d h b :=
  ⟨fun _ ha he => absurd (he ▸ ha) hb, fun _ ha he => absurd (he ▸ ha) hb⟩

theorem flush_step (hstep : Handoff.listStep d h (.core .flush) = some h') :
    h.core.producer = .idle ∧ h' = { h with core := h.core.goTo .push } := by
  obtain ⟨-, hstep⟩ := Option.ite_none_left_eq_some.mp hstep
  obtain ⟨core, hcore, rfl⟩ := Option.map_eq_some_iff.mp hstep
  obtain ⟨-, hcore⟩ := Option.ite_none_left_eq_some.mp hcore
  obtain ⟨hidle, hcore⟩ := Option.ite_none_right_eq_some.mp hcore
  cases hcore
  exact ⟨hidle, rfl⟩

theorem finish_step (hstep : Handoff.listStep d h (.core .finish) = some h') :
    h.core.producer = .idle ∧ h' = { h with core := { h.core.goTo .done with stop := true } } := by
  obtain ⟨-, hstep⟩ := Option.ite_none_left_eq_some.mp hstep
  obtain ⟨core, hcore, rfl⟩ := Option.map_eq_some_iff.mp hstep
  obtain ⟨-, hcore⟩ := Option.ite_none_left_eq_some.mp hcore
  obtain ⟨hidle, hcore⟩ := Option.ite_none_right_eq_some.mp hcore
  cases hcore
  exact ⟨hidle, rfl⟩

/-- A step between two calls is one of the hand-off or leaves it as it is. -/
theorem moves_of_background (hb : InBackground b) (hstep : Handoff.listStep d h b = some h') :
    h'.core = h.core ∨ ∃ a, InBackground (.core a) ∧ Handoff.Moves d.toParams h.core a h'.core := by
  rcases (Handoff.listMoves_of_listStep hstep).core with ⟨-, he⟩ | ⟨a, ha, hcore⟩
  · exact Or.inl he
  · right
    cases b with
    | insert => exact hb.elim
    | copy => cases ha
    | core a' =>
      cases ha
      exact ⟨a, hb, Handoff.moves_of_step hcore⟩

theorem Sailing.background (hs : Sailing d h) (hd : Fit d) (hb : InBackground b)
    (halone : Handoff.EnqueuesAlone d h b) (hload : Handoff.LoadsSound d h b)
    (hstep : Handoff.listStep d h b = some h') :
    Sailing d h' ∧ h'.inserted = h.inserted := by
  have hwell : Handoff.StepsWell d h b := by
    refine ⟨halone, ?_, fun a ha => ?_⟩
    · cases b with
      | insert => exact hb.elim
      | copy | core => trivial
    · cases b with
      | insert => exact hb.elim
      | copy => cases ha
      | core a' =>
        cases ha
        cases a <;> trivial
  have hgood : Handoff.InsertsNumbers d h b := by
    cases b with
    | insert => exact hb.elim
    | copy | core => trivial
  refine ⟨hs.step hd hwell hload hgood hstep, ?_⟩
  cases Handoff.listMoves_of_listStep hstep with
  | insertNull | insert | insertFault => exact hb.elim
  | _ => rfl

theorem Sailing.calls (hs : Sailing d h) (hidle : h.core.producer = .idle) :
    (∀ c, Handoff.listStep d h (.insert c) ≠ none) ∧
      Handoff.listStep d h (.core .flush) ≠ none ∧ Handoff.listStep d h (.core .finish) ≠ none := by
  have hf := hs.thriving.healthy.fault
  have hcore := hs.thriving.healthy.core.fault
  refine ⟨fun c => ?_, ?_, ?_⟩
  · simp [Handoff.listStep, Handoff.listInsert, Handoff.step, hf, hcore, hidle]
  · simp [Handoff.listStep, Handoff.step, hf, hcore, hidle]
  · simp [Handoff.listStep, Handoff.step, hf, hcore, hidle]

end sailing

variable {d : Handoff.ListParams}

/-- The process during a test with the buffer. -/
structure Underway (o : Options) (d : Handoff.ListParams) (as : List BufferedAction)
    (s : BufferedState) : Prop where
  sailing : Sailing d s.handoff
  window : s.per1gNum ≠ 0
  keys : s.handoff.inserted = (inserted o (draws as)).map Call.key
  iteration : s.i.toNat = (inserted o (draws as)).length + 1
  bounded : (inserted o (draws as)).length ≤ o.opsNum.toNat
  batched : s.flushed = false → Batched o s.handoff.core
  looped : s.flushed = true → (inserted o (draws as)).length = o.opsNum.toNat
  emptied : s.flushed = true → Emptied s.handoff.core
  done : s.handoff.core.producer = .done → s.flushed = true

theorem draws_concat (as : List BufferedAction) (a : BufferedAction) :
    draws (as ++ [a]) = match a with
      | .iterate draw env => draws as ++ [.iterate draw env]
      | _ => draws as := by
  rw [draws, List.filterMap_append]
  cases a with
  | iterate => rfl
  | flush | finish | background => exact List.append_nil _

theorem Underway.next_number (h : Underway o d as s) (hops : o.opsNum.toNat < 10 ^ 8)
    (hi : s.i ≤ o.opsNum) (draw : UInt32) : o.opsNum ≠ 0 ∧ s.flushed = false ∧
      (inserted o (draws as)).length + 1 ≤ o.opsNum.toNat ∧
      (draw.toUInt64 % o.opsNum).toNat < 10 ^ 8 ∧ s.i.toNat < 10 ^ 8 := by
  have hi' : s.i.toNat ≤ o.opsNum.toNat := UInt64.le_iff_toNat_le.mp hi
  have hiter := h.iteration
  have hops0 : o.opsNum ≠ 0 := by
    intro h0
    rw [h0] at hi'
    have hzero : (0 : UInt64).toNat = 0 := rfl
    omega
  refine ⟨hops0, ?_, by omega, ?_, by omega⟩
  · by_contra hflushed
    have := h.looped (Bool.not_eq_false _ ▸ hflushed)
    omega
  · rw [UInt64.toNat_mod]
    exact (Nat.mod_lt _ (by omega)).trans hops

theorem Underway.insertsNumbers (h : Underway o d as s)
    (hheight : d.dramMaxHeight % 2 ^ 16 = 12) (hops : o.opsNum.toNat < 10 ^ 8)
    (hi : s.i ≤ o.opsNum) (draw : UInt32) {env : Env} (hpos : 1 ≤ env.height)
    (hle : env.height ≤ 12) : Handoff.InsertsNumbers d s.handoff (.insert
      ⟨env, insertData o.valueSize.toNat (draw.toUInt64 % o.opsNum).toNat s.i.toNat⟩) := by
  obtain ⟨hops0, -, hlt, hnumber, hi'⟩ := h.next_number hops hi draw
  have hdigits : StartsWithDigits
      (insertData o.valueSize.toNat (draw.toUInt64 % o.opsNum).toNat s.i.toNat) :=
    startsWithDigits_insertData hnumber hi'
  refine ⟨⟨hdigits, fun hzero => ?_⟩, hpos, by rwa [hheight], fun n hn key hkey => ?_⟩
  · -- the iterations are counted from 1
    rw [← keyNumbers_eq_zero_iff hdigits, keyNumbers_insertData hnumber hi', Prod.mk.injEq] at hzero
    have := h.iteration
    omega
  · have hrecorded := h.sailing.thriving.healthy.recorded
    have hmade := h.sailing.orderly.handedOver.active n hn
    have hmem : key ∈ s.handoff.inserted := by
      rw [hrecorded.inserted]
      exact List.mem_flatMap.mpr ⟨n, List.mem_range.mpr hmade, hkey⟩
    rw [h.keys] at hmem
    obtain ⟨c, hc, rfl⟩ := List.mem_map.mp hmem
    have hconcat := inserted_concat o (draws as) (.iterate draw env)
    dsimp only at hconcat
    have hbounded : (inserted o (draws as ++ [.iterate draw env])).length ≤ o.opsNum.toNat := by
      rw [hconcat, List.length_append, List.length_singleton]
      exact hlt
    have hne := keys_ne hbounded hops
    rw [hconcat] at hne
    rw [h.iteration]
    exact (List.pairwise_append.mp hne).2.2 c hc _ (List.mem_singleton_self _)

theorem BufferedState.next_eq (s : BufferedState) (hwindow : s.per1gNum ≠ 0) :
    s.next = .ok { s with i := s.i + 1 } := by
  rw [BufferedState.next, umod, if_neg hwindow, ok_bind]
  split_ifs
  · rw [udiv, if_neg hwindow]
    rfl
  · rfl

theorem Underway.iterate (h : Underway o d as s) (hd : Fit d)
    (hheight : d.dramMaxHeight % 2 ^ 16 = 12)
    (hmax : d.maxMemSkiplistSize = (o.memSkiplistSize * 1024 * 1024).toNat)
    (hops : o.opsNum.toNat < 10 ^ 8) (hvalue : o.valueSize.toNat ≤ 1024000) (hi : s.i ≤ o.opsNum)
    (draw : UInt32) {env : Env} (hpos : 1 ≤ env.height) (hle : env.height ≤ 12)
    {r : Except Fault BufferedState} (hr : s.iterate o d draw env = some r) :
    ∃ t, r = .ok t ∧ Underway o d (as ++ [.iterate draw env]) t := by
  obtain ⟨hops0, hflushed, hlt, hnumber, hi'⟩ := h.next_number hops hi draw
  have hgood := h.insertsNumbers hheight hops hi draw hpos hle
  rw [BufferedState.iterate, umod, if_neg hops0] at hr
  obtain ⟨handoff, hstep, rfl⟩ := Option.map_eq_some_iff.mp hr
  have hcall := call_allowed (d := d) (h := s.handoff) (b := .insert
    ⟨env, insertData o.valueSize.toNat (draw.toUInt64 % o.opsNum).toNat s.i.toNat⟩)
      (by simp [Handoff.ListAction.toCore])
  have hsailing := h.sailing.step hd
    ⟨hcall.1, hgood.good hd.keySize, fun b hb => by cases hb; trivial⟩ hcall.2 hgood hstep
  have hconcat : inserted o (draws (as ++ [.iterate draw env])) = inserted o (draws as) ++
      [⟨env, insertData o.valueSize.toNat (draw.toUInt64 % o.opsNum).toNat s.i.toNat⟩] := by
    rw [draws_concat]
    dsimp only
    rw [inserted_concat, h.iteration]
  have hlen : (inserted o (draws (as ++ [.iterate draw env]))).length =
      (inserted o (draws as)).length + 1 := by
    rw [hconcat, List.length_append, List.length_singleton]
  have hnext : (s.i + 1).toNat = s.i.toNat + 1 := by
    rw [UInt64.toNat_add]
    exact Nat.mod_eq_of_lt (by show _ + 1 < 2 ^ 64; omega)
  refine ⟨_, BufferedState.next_eq _ h.window, ?_⟩
  cases Handoff.listMoves_of_listStep hstep with
  | insertNull _ _ _ hne => exact absurd hsailing.thriving.healthy.core.fault hne
  | insertFault => cases hsailing.thriving.healthy.fault
  | insert c core n list hcore hn hlist =>
    obtain ⟨hidle, rfl⟩ := Log.step_insert hcore
    have hmade := h.sailing.orderly.handedOver.active n hn
    have hkeys := h.sailing.thriving.healthy.recorded.length_keys_le hmade
    rw [h.keys, List.length_map] at hkeys
    exact {
      sailing := hsailing
      window := h.window
      keys := by
        rw [hconcat, List.map_append, h.keys]
        rfl
      iteration := by
        rw [hlen, ← h.iteration]
        exact hnext
      bounded := by rwa [hlen]
      batched := fun _ => by
        refine (h.batched hflushed).insert hn hidle hmax (length_insertData hnumber hi') ?_
        have hsize : keySize = 16 := rfl
        have := Nat.mul_le_mul (show (s.handoff.core.keys n).length + 1 ≤ 10 ^ 8 by omega)
          (show keySize + o.valueSize.toNat ≤ 1024016 by omega)
        omega
      looped := fun ht => by
        rw [hflushed] at ht
        cases ht
      emptied := fun ht => by
        rw [hflushed] at ht
        cases ht
      done := fun hdone => by
        rw [Log.insertKey_eq hn hidle] at hdone
        dsimp only at hdone
        split_ifs at hdone }

theorem Underway.congr (h : Underway o d as s) {a : BufferedAction} (ha : draws [a] = [])
    (hsailing : Sailing d t.handoff) (hwindow : t.per1gNum = s.per1gNum) (hi : t.i = s.i)
    (hkeys : t.handoff.inserted = s.handoff.inserted)
    (hbatched : t.flushed = false → Batched o t.handoff.core)
    (hlooped : t.flushed = true → (inserted o (draws as)).length = o.opsNum.toNat)
    (hemptied : t.flushed = true → Emptied t.handoff.core)
    (hdone : t.handoff.core.producer = .done → t.flushed = true) :
    Underway o d (as ++ [a]) t := by
  have hsame : draws (as ++ [a]) = draws as := by
    rw [draws, List.filterMap_append, show List.filterMap _ [a] = [] from ha, List.append_nil]
    rfl
  exact {
    sailing := hsailing
    window := hwindow ▸ h.window
    keys := by rw [hsame, hkeys, h.keys]
    iteration := by rw [hsame, hi, h.iteration]
    bounded := by rw [hsame]; exact h.bounded
    batched := hbatched
    looped := by rw [hsame]; exact hlooped
    emptied := hemptied
    done := hdone }

/-- The keys behind the last full list are flushed. -/
theorem Underway.flush (h : Underway o d as s) (hd : Fit d)
    (hrest : ¬batchKeys o ∣ o.opsNum.toNat) (hi : o.opsNum < s.i) (hflushed : s.flushed = false)
    {handoff : Handoff.ListState}
    (hstep : Handoff.listStep d s.handoff (.core .flush) = some handoff) :
    Underway o d (as ++ [.flush]) { s with handoff := handoff, flushed := true } := by
  have hbatched := h.batched hflushed
  have hlen : (inserted o (draws as)).length = o.opsNum.toNat := by
    have hi' := UInt64.lt_iff_toNat_lt.mp hi
    rw [h.iteration] at hi'
    exact le_antisymm h.bounded (Nat.lt_succ_iff.mp hi')
  have hkeys : ∀ n, s.handoff.core.skiplist = some n → s.handoff.core.keys n ≠ [] := by
    intro n hn hnil
    have hmade := h.sailing.thriving.healthy.core.sequential.made_eq hn
    have htotal := hbatched.length_eq hmade hn
    rw [← h.sailing.thriving.healthy.recorded.inserted, h.keys, List.length_map, hlen, hnil,
      List.length_nil, Nat.add_zero] at htotal
    exact hrest (htotal ▸ Dvd.intro_left n rfl)
  have hcall := call_allowed (d := d) (h := s.handoff) (b := .core .flush) (by decide)
  have hsailing := h.sailing.step hd
    ⟨hcall.1, trivial, fun b hb => by cases hb; exact hkeys⟩ hcall.2 trivial hstep
  obtain ⟨-, rfl⟩ := flush_step hstep
  exact h.congr rfl hsailing rfl rfl rfl nofun (fun _ => hlen)
    (fun _ hpush => absurd rfl hpush) nofun

theorem Underway.finish (h : Underway o d as s) (hd : Fit d) (hflushed : s.flushed = true)
    {handoff : Handoff.ListState}
    (hstep : Handoff.listStep d s.handoff (.core .finish) = some handoff) :
    Underway o d (as ++ [.finish]) { s with handoff := handoff } := by
  have hcall := call_allowed (d := d) (h := s.handoff) (b := .core .finish) (by decide)
  have hsailing := h.sailing.step hd
    ⟨hcall.1, trivial, fun b hb => by cases hb; trivial⟩ hcall.2 trivial hstep
  obtain ⟨hidle, rfl⟩ := finish_step hstep
  refine h.congr rfl hsailing rfl rfl rfl (fun hf => ?_) h.looped (fun _ _ => ?_) fun _ => hflushed
  · rw [hflushed] at hf
    cases hf
  · exact h.emptied hflushed (by rw [hidle]; nofun)

theorem Underway.background (h : Underway o d as s) (hd : Fit d) {b : Handoff.ListAction}
    (hb : InBackground b) (halone : Handoff.EnqueuesAlone d s.handoff b)
    (hload : Handoff.LoadsSound d s.handoff b) {handoff : Handoff.ListState}
    (hstep : Handoff.listStep d s.handoff b = some handoff) :
    Underway o d (as ++ [.background b]) { s with handoff := handoff } := by
  obtain ⟨hsailing, hkeys⟩ := h.sailing.background hd hb halone hload hstep
  have hfresh := h.sailing.thriving.healthy.recorded.fresh
  have hfault := hsailing.thriving.healthy.core.fault
  rcases moves_of_background hb hstep with he | ⟨a, ha, hm⟩
  · refine h.congr rfl hsailing rfl rfl hkeys (fun hf => ?_) h.looped (fun hf => ?_) fun hdone => ?_
    · exact he ▸ h.batched hf
    · exact he ▸ h.emptied hf
    · exact h.done (he ▸ hdone)
  · exact h.congr rfl hsailing rfl rfl hkeys
      (fun hf => (h.batched hf).moves hfresh ha hm hfault) h.looped
      (fun hf => (h.emptied hf).moves hfresh ha hm)
      fun hdone => h.done ((done_iff_of_moves ha hm).mp hdone)

/-- What the schedule has to keep to: `RandomHeight` returns a possible height, and `Flush` neither
enqueues a second `CallThread` nor relies on one that is not going to pop again. -/
def SchedulesWell (d : Handoff.ListParams) (r : Except Fault BufferedState) :
    BufferedAction → Prop
  | .iterate _ env => 1 ≤ env.height ∧ env.height ≤ 12
  | .flush | .finish => True
  | .background b => ∀ s, r = .ok s →
    Handoff.EnqueuesAlone d s.handoff b ∧ Handoff.LoadsSound d s.handoff b

/-- The options under which the test comes to a good end. -/
structure Sensible (o : Options) : Prop where
  valueSize : o.valueSize ≠ 0 ∧ o.valueSize ≤ 1024000
  opsNum : o.opsNum.toNat < 10 ^ 8
  rest : ¬batchKeys o ∣ o.opsNum.toNat

theorem Underway.step (h : Underway o d as s) (ho : Sensible o) (hd : Fit d)
    (hheight : d.dramMaxHeight % 2 ^ 16 = 12)
    (hmax : d.maxMemSkiplistSize = (o.memSkiplistSize * 1024 * 1024).toNat) {a : BufferedAction}
    (hwell : SchedulesWell d (.ok s) a) {r : Except Fault BufferedState}
    (hr : bufferedStep o d (.ok s) a = some r) :
    ∃ t, r = .ok t ∧ Underway o d (as ++ [a]) t := by
  cases a with
  | iterate draw env =>
    obtain ⟨hi, hr⟩ := Option.ite_none_right_eq_some.mp hr
    exact h.iterate hd hheight hmax ho.opsNum (UInt64.le_iff_toNat_le.mp ho.valueSize.2) hi draw
      hwell.1 hwell.2 hr
  | flush =>
    obtain ⟨⟨hi, hflushed⟩, hr⟩ := Option.ite_none_right_eq_some.mp hr
    obtain ⟨handoff, hstep, rfl⟩ := Option.map_eq_some_iff.mp hr
    exact ⟨_, rfl, h.flush hd ho.rest hi (Bool.eq_false_of_not_eq_true hflushed) hstep⟩
  | finish =>
    obtain ⟨hflushed, hr⟩ := Option.ite_none_right_eq_some.mp hr
    obtain ⟨handoff, hstep, rfl⟩ := Option.map_eq_some_iff.mp hr
    exact ⟨_, rfl, h.finish hd hflushed hstep⟩
  | background b =>
    obtain ⟨hb, hr⟩ := Option.ite_none_right_eq_some.mp hr
    obtain ⟨handoff, hstep, rfl⟩ := Option.map_eq_some_iff.mp hr
    obtain ⟨halone, hload⟩ := hwell s rfl
    exact ⟨_, rfl, h.background hd hb halone hload hstep⟩

end PersistTree.Driver
