import PersistTree.SkipLists.PersistentInvariant

/-!
# The windows of the access statistics

`cnt_time_` is meant to hold the work of the current window of `per_1g_num_` insertions. The test
for the end of a window and the reset are at the end of the two searches, so an `Insert` that does
not search passes the end of its window unnoticed, and an `Insert` behind its finger adds its own
step after the reset. Only an insertion that searches from the head ends a window as it should.
-/
namespace PersistTree

open Library

/-- The counters of `CAL_ACCESS_COUNT` that the windows depend on. -/
structure AccessCount where
  opt1gNum : ℕ
  headCnt : ℕ
  cntTime : ℕ
  reports : List (ℕ × ℕ)

/-- What one `Insert` does, as far as the counters see it: it goes forward from the finger, with a
search that takes some hops or without one, it searches from the head, or it finds an equal key. -/
inductive Work where
  | forward
  | forwardSearch (hops : ℕ)
  | restart (hops : ℕ)
  | idle
  deriving DecidableEq, Repr

/-- The search hops and forward-case increments that it is charged with. -/
def Work.charge : Work → ℕ
  | .forward => 1
  | .forwardSearch hops => hops + 1
  | .restart hops => hops
  | .idle => 0

namespace AccessCount

def search (per1gNum hops : ℕ) (k : AccessCount) : AccessCount :=
  if per1gNum ∣ k.opt1gNum then
    { k with
      cntTime := 0
      reports := k.reports ++ [(k.opt1gNum / per1gNum, k.cntTime + hops)] }
  else { k with cntTime := k.cntTime + hops }

/-- The counters after an `Insert`. -/
def insert (per1gNum : ℕ) (k : AccessCount) (w : Work) : AccessCount :=
  let k := { k with opt1gNum := k.opt1gNum + 1 }
  match w with
  | .forward => { k with cntTime := k.cntTime + 1 }
  | .forwardSearch hops =>
    let k := k.search per1gNum hops
    { k with cntTime := k.cntTime + 1 }
  | .restart hops => { k with headCnt := k.headCnt + 1 }.search per1gNum hops
  | .idle => k

variable {p : ℕ} {k : AccessCount} {w : Work} {charges : List ℕ}

theorem insert_of_not_dvd (h : ¬p ∣ k.opt1gNum + 1) :
    (k.insert p w).reports = k.reports ∧ (k.insert p w).cntTime = k.cntTime + w.charge := by
  cases w with
  | forward | idle => exact ⟨rfl, rfl⟩
  | forwardSearch hops | restart hops => simp [insert, search, h, Work.charge, Nat.add_assoc]

theorem insert_restart {hops : ℕ} (h : p ∣ k.opt1gNum + 1) :
    (k.insert p (.restart hops)).reports =
        k.reports ++ [((k.opt1gNum + 1) / p, k.cntTime + hops)] ∧
      (k.insert p (.restart hops)).cntTime = 0 := by
  simp [insert, search, h]

/-- At the end of a window, anything else: no report, or one that leaves out the last step. -/
theorem insert_reports_ne (h : p ∣ k.opt1gNum + 1) (hw : ∀ hops, w ≠ .restart hops) :
    (k.insert p w).reports ≠ k.reports ++ [((k.opt1gNum + 1) / p, k.cntTime + w.charge)] := by
  cases w with
  | forward | idle => simp [insert]
  | forwardSearch hops => simp [insert, search, h, Work.charge]
  | restart hops => exact absurd rfl (hw hops)

@[simp] theorem insert_opt1gNum : (k.insert p w).opt1gNum = k.opt1gNum + 1 := by
  cases w with
  | forward | idle => rfl
  | forwardSearch hops | restart hops =>
    simp only [insert, search]
    split_ifs <;> rfl

/-- The counters after insertions with the given charges, when all windows so far have ended as they
should: `cnt_time_` holds the charges of the window that is open. -/
structure Tracks (p : ℕ) (k : AccessCount) (charges : List ℕ) : Prop where
  opt1gNum : k.opt1gNum = charges.length
  cntTime : k.cntTime = (charges.drop (p * (charges.length / p))).sum

theorem sum_drop_concat {n : ℕ} (hn : n ≤ charges.length) (x : ℕ) :
    ((charges ++ [x]).drop n).sum = (charges.drop n).sum + x := by
  rw [List.drop_append_of_le_length hn, List.sum_append, List.sum_singleton]

/-- An `Insert` reports its window, if it is the last one of it and searches from the head. -/
theorem Tracks.reports_iff (ht : Tracks p k charges) (w : Work) :
    ((k.insert p w).reports = k.reports ++
        if p ∣ charges.length + 1 then [((charges.length + 1) / p,
          ((charges ++ [w.charge]).drop (charges.length + 1 - p)).sum)] else []) ↔
      (p ∣ charges.length + 1 → ∃ hops, w = .restart hops) := by
  by_cases h : p ∣ charges.length + 1
  · have hk : p ∣ k.opt1gNum + 1 := ht.opt1gNum ▸ h
    have hstart : charges.length + 1 - p = p * (charges.length / p) := by
      have hend := Nat.mul_div_cancel' h
      rw [Nat.succ_div_of_dvd h, Nat.mul_add_one] at hend
      omega
    have htotal : ((charges ++ [w.charge]).drop (charges.length + 1 - p)).sum =
        k.cntTime + w.charge := by
      rw [hstart, sum_drop_concat (Nat.mul_div_le _ _), ht.cntTime]
    rw [if_pos h, htotal, ← ht.opt1gNum]
    constructor
    · intro he _
      by_contra hw
      exact insert_reports_ne hk (fun hops hr => hw ⟨hops, hr⟩) he
    · intro hw
      obtain ⟨hops, rfl⟩ := hw (ht.opt1gNum ▸ h)
      exact (insert_restart hk).1
  · have hk : ¬p ∣ k.opt1gNum + 1 := ht.opt1gNum ▸ h
    rw [if_neg h, List.append_nil]
    exact iff_of_true (insert_of_not_dvd hk).1 fun h' => absurd h' h

/-- A window that ends as it should leaves an empty one. -/
theorem Tracks.insert (ht : Tracks p k charges)
    (hw : p ∣ charges.length + 1 → ∃ hops, w = .restart hops) :
    Tracks p (k.insert p w) (charges ++ [w.charge]) where
  opt1gNum := by rw [insert_opt1gNum, ht.opt1gNum, List.length_append, List.length_singleton]
  cntTime := by
    rw [List.length_append, List.length_singleton]
    by_cases h : p ∣ charges.length + 1
    · obtain ⟨hops, rfl⟩ := hw h
      have hk : p ∣ k.opt1gNum + 1 := ht.opt1gNum ▸ h
      rw [(insert_restart hk).2, Nat.mul_div_cancel' h, List.drop_of_length_le (by simp)]
      rfl
    · have hk : ¬p ∣ k.opt1gNum + 1 := ht.opt1gNum ▸ h
      rw [(insert_of_not_dvd hk).2, Nat.succ_div_of_not_dvd h, sum_drop_concat (Nat.mul_div_le _ _),
        ht.cntTime]

end AccessCount

namespace PersistentSkipList

variable {s s' t t' : PersistentSkipList} {env : Env} {key : Key} {c : Call}
  {calls done : List Call} {A B : List ℕ}

/-- `Insert` of the key calls `FindLessThan`. -/
def Restarts (s : PersistentSkipList) (env : Env) (key : Key) : Prop :=
  ∃ p, s.prev[0]? = some p ∧
    position (s.compareKeyAndNode env key) (s.nodes.next 0) p = .ok .behind

/-- `FindLessThan` is called exactly if the key compares below the node of the finger. -/
theorem restarts_iff (hl : Located s A B) : s.Restarts env key ↔
    strncmp key (s.keyOf (lastFrom s.head A) ++ env.junk (lastFrom s.head A)) s.keySize < 0 := by
  have hlt := hl.allocated_behind (lastFrom s.head A) List.mem_cons_self
  have hcompares : ∀ y ∈ lastFrom s.head A :: B, ∃ res, s.compareKeyAndNode env key y = .ok res ∧
      Compares res (strnview s.keySize key) (s.view env y) :=
    fun y hy => compareKeyAndNode_eq env key (hl.allocated_behind y hy)
  obtain ⟨pos, hpos, hfits⟩ := position_spec hcompares hl.next_finger_zero
  rw [strncmp_neg_iff]
  constructor
  · rintro ⟨p, hp, hbehind⟩
    obtain rfl := Option.some.inj (hl.finger_zero.symm.trans hp)
    obtain rfl := Except.ok.inj (hpos.symm.trans hbehind)
    exact hfits
  · intro hlt
    refine ⟨_, hl.finger_zero, ?_⟩
    rw [hpos]
    cases pos with
    | behind => rfl
    | onFinger => exact absurd hlt (hfits.le.not_gt)
    | _ => exact absurd hlt (lt_asymm hfits.1)

def accessCount (s : PersistentSkipList) : AccessCount where
  opt1gNum := s.opt1gNum
  headCnt := s.headCnt
  cntTime := s.cntTime
  reports := s.reports

def hops (s : PersistentSkipList) (env : Env) (key : Key) (x : ℕ) : ℕ :=
  ((descend s.nodes.next (s.keyIsAfterNode env key) (s.nodes.length + 1) s.maxHeight x
    s.prev).map Prod.snd).getD 0

def work (s : PersistentSkipList) (c : Call) : Work :=
  match s.prev[0]?.map (position (s.compareKeyAndNode c.toEnv c.key) (s.nodes.next 0)) with
  | some (.ok .atEnd) | some (.ok .between) | some (.ok .onNext) => .forward
  | some (.ok .ahead) =>
    .forwardSearch ((s.prev[s.maxHeight - 1]?.map (s.hops c.toEnv c.key)).getD 0)
  | some (.ok .behind) => .restart (s.hops c.toEnv c.key s.head)
  | _ => .idle

theorem searchFrom_accessCount {x : ℕ} (h : s.searchFrom env key x = .ok s') :
    s'.per1gNum = s.per1gNum ∧
      s'.accessCount = s.accessCount.search s.per1gNum (s.hops env key x) := by
  obtain ⟨r, hr, h⟩ := bind_eq_ok.mp h
  have hhops : s.hops env key x = r.2 := by
    rw [hops, deref_eq_ok.mp hr]
    rfl
  rw [hhops, AccessCount.search]
  dsimp only at h
  split_ifs at h with hz hw hw
  · cases h
  · cases h
  · obtain rfl := Except.ok.inj h
    exact ⟨rfl, (if_pos (Nat.dvd_of_mod_eq_zero hw)).symm⟩
  · obtain rfl := Except.ok.inj h
    exact ⟨rfl, (if_neg fun hd => hw (Nat.mod_eq_zero_of_dvd hd)).symm⟩

theorem locate_accessCount (h : s.locate c.toEnv c.key = .ok s') : s'.per1gNum = s.per1gNum ∧
    s'.accessCount = s.accessCount.insert s.per1gNum (s.work c) := by
  obtain ⟨p, hp, h⟩ := bind_eq_ok.mp h
  obtain ⟨pos, hpos, h⟩ := bind_eq_ok.mp h
  have hp' : s.prev[0]? = some p := deref_eq_ok.mp hp
  have hpos' : position (s.compareKeyAndNode c.toEnv c.key) (s.nodes.next 0) p = .ok pos := hpos
  cases pos with
  | behind =>
    have hw : s.work c = .restart (s.hops c.toEnv c.key s.head) := by
      rw [work, hp', Option.map_some, hpos']
    rw [hw]
    exact searchFrom_accessCount h
  | ahead =>
    obtain ⟨t, ht, h⟩ := bind_eq_ok.mp h
    obtain ⟨x, hx, ht⟩ := bind_eq_ok.mp ht
    have hx' : s.prev[s.maxHeight - 1]? = some x := deref_eq_ok.mp hx
    have hw : s.work c = .forwardSearch (s.hops c.toEnv c.key x) := by
      simp only [work, hp', Option.map_some, hpos', hx', Option.getD_some]
    obtain ⟨hper, hcount⟩ := searchFrom_accessCount ht
    obtain rfl := Except.ok.inj h
    rw [hw]
    refine ⟨hper, ?_⟩
    change { t.accessCount with cntTime := t.accessCount.cntTime + 1 } = _
    rw [hcount]
    rfl
  | atEnd | between | onNext =>
    have hw : s.work c = .forward := by
      rw [work, hp', Option.map_some, hpos']
    obtain rfl := Except.ok.inj h
    rw [hw]
    exact ⟨rfl, rfl⟩
  | onFinger =>
    have hw : s.work c = .idle := by
      rw [work, hp', Option.map_some, hpos']
    obtain rfl := Except.ok.inj h
    rw [hw]
    exact ⟨rfl, rfl⟩

theorem insert_accessCount (h : s.insert c = .ok s') : s'.per1gNum = s.per1gNum ∧
    s'.accessCount = s.accessCount.insert s.per1gNum (s.work c) := by
  obtain ⟨t, ht, h⟩ := bind_eq_ok.mp h
  obtain ⟨r, -, h⟩ := bind_eq_ok.mp h
  obtain rfl := Except.ok.inj h
  obtain ⟨hper, hcount⟩ := locate_accessCount ht
  exact ⟨hper, hcount⟩

theorem work_eq_restart_iff :
    (∃ hops, s.work c = .restart hops) ↔ s.Restarts c.toEnv c.key := by
  constructor
  · rintro ⟨hops, hw⟩
    rw [work] at hw
    split at hw
    · cases hw
    · cases hw
    · cases hw
    · cases hw
    · rename_i hmap
      obtain ⟨p, hp, hpos⟩ := Option.map_eq_some_iff.mp hmap
      exact ⟨p, hp, hpos⟩
    · cases hw
  · rintro ⟨p, hp, hpos⟩
    exact ⟨s.hops c.toEnv c.key s.head, by rw [work, hp, Option.map_some, hpos]⟩

/-- `head_cnt_` counts the calls of `FindLessThan`. -/
theorem insert_headCnt (h : s.insert c = .ok s') :
    s.Restarts c.toEnv c.key ∧ s'.headCnt = s.headCnt + 1 ∨
      ¬s.Restarts c.toEnv c.key ∧ s'.headCnt = s.headCnt := by
  have hcnt : s'.headCnt = (s.accessCount.insert s.per1gNum (s.work c)).headCnt :=
    congrArg AccessCount.headCnt (insert_accessCount h).2
  rw [← work_eq_restart_iff, hcnt]
  cases s.work c with
  | restart hops =>
    refine Or.inl ⟨⟨hops, rfl⟩, ?_⟩
    simp only [AccessCount.insert, AccessCount.search]
    split_ifs <;> rfl
  | forward | idle => exact Or.inr ⟨by simp, rfl⟩
  | forwardSearch hops =>
    refine Or.inr ⟨by simp, ?_⟩
    simp only [AccessCount.insert, AccessCount.search]
    split_ifs <;> rfl

def charges (s : PersistentSkipList) : List Call → List ℕ
  | [] => []
  | c :: calls =>
    (s.work c).charge :: match s.insert c with
      | .ok s' => charges s' calls
      | .error _ => []

theorem charges_concat (h : s.insertAll done = .ok s') (c : Call) :
    s.charges (done ++ [c]) = s.charges done ++ [(s'.work c).charge] := by
  induction done generalizing s with
  | nil =>
    obtain rfl := Except.ok.inj h
    simp only [List.nil_append, charges]
    split <;> rfl
  | cons d done ih =>
    obtain ⟨t, ht, h⟩ := bind_eq_ok.mp h
    simp only [List.cons_append, charges, ht]
    rw [ih h]

/-- Every `Insert` of the run that is the last one of a window of `per_1g_num_` insertions prints
one report, of the charges of these insertions, and no other `Insert` prints one. -/
def ReportsWindows (s : PersistentSkipList) (calls : List Call) : Prop :=
  ∀ done c, done ++ [c] <+: calls → ∃ t t', s.insertAll done = .ok t ∧ t.insert c = .ok t' ∧
    t'.reports = t.reports ++
      if s.per1gNum ∣ done.length + 1 then [((done.length + 1) / s.per1gNum,
        ((s.charges (done ++ [c])).drop (done.length + 1 - s.per1gNum)).sum)] else []

/-- Every `Insert` of the run that is the last one of a window has a key below the node of the
finger. -/
def EndsOnRestarts (s : PersistentSkipList) (calls : List Call) : Prop :=
  ∀ done c, done ++ [c] <+: calls → s.per1gNum ∣ done.length + 1 →
    ∀ t, s.insertAll done = .ok t → t.Restarts c.toEnv c.key

theorem Valid.insert_ok (hv : Valid s A B) (hper : s.per1gNum ≠ 0)
    (hheight : 1 ≤ c.height ∧ c.height ≤ s.kMaxHeight) : ∃ s', s.insert c = .ok s' := by
  rcases insert_spec hv c hheight.1 hheight.2 with ⟨hz, -⟩ | ⟨s', -, -, he, -⟩
  · exact absurd hz hper
  · exact ⟨s', he⟩

theorem insertAll_concat (ht : s.insertAll done = .ok s') (c : Call) :
    s.insertAll (done ++ [c]) = s'.insert c := by
  have hdone : done.foldlM insert s = .ok s' := ht
  rw [insertAll, List.foldlM_append, hdone, ok_bind, List.foldlM_cons]
  simp only [List.foldlM_nil, bind_pure]

theorem forall_prefix_concat {P : List Call → Call → Prop} :
    (∀ d e, d ++ [e] <+: done ++ [c] → P d e) ↔ (∀ d e, d ++ [e] <+: done → P d e) ∧ P done c := by
  constructor
  · intro h
    exact ⟨fun d e he => h d e (he.trans (List.prefix_append _ _)), h done c List.prefix_rfl⟩
  · rintro ⟨hinit, hlast⟩ d e he
    rcases List.prefix_concat_iff.mp he with heq | hpre
    · obtain ⟨rfl, hec⟩ := List.append_inj' heq rfl
      obtain rfl := List.singleton_inj.mp hec
      exact hlast
    · exact hinit d e hpre

theorem reportsWindows_nil (s : PersistentSkipList) :
    s.ReportsWindows [] ↔ s.EndsOnRestarts [] := by
  have hnone : ∀ (d : List Call) e, ¬d ++ [e] <+: [] := by simp
  exact iff_of_true (fun d e he => absurd he (hnone d e)) fun d e he => absurd he (hnone d e)

theorem length_charges (h : s.insertAll calls = .ok s') :
    (s.charges calls).length = calls.length := by
  induction calls generalizing s with
  | nil => rfl
  | cons c calls ih =>
    obtain ⟨t, ht, h⟩ := bind_eq_ok.mp h
    simp only [charges, ht, List.length_cons]
    rw [ih h]

theorem reportsWindows_concat (ht : s.insertAll calls = .ok t) (ht' : t.insert c = .ok t') :
    s.ReportsWindows (calls ++ [c]) ↔ s.ReportsWindows calls ∧ t'.reports = t.reports ++
      if s.per1gNum ∣ (s.charges calls).length + 1 then
        [(((s.charges calls).length + 1) / s.per1gNum,
          ((s.charges calls ++ [(t.work c).charge]).drop
            ((s.charges calls).length + 1 - s.per1gNum)).sum)] else [] := by
  rw [ReportsWindows, forall_prefix_concat, ← ReportsWindows, ← charges_concat ht,
    length_charges ht]
  refine and_congr_right fun _ => ?_
  constructor
  · rintro ⟨u, u', hu, hu', he⟩
    obtain rfl := Except.ok.inj (ht.symm.trans hu)
    obtain rfl := Except.ok.inj (ht'.symm.trans hu')
    exact he
  · intro he
    exact ⟨t, t', ht, ht', he⟩

theorem endsOnRestarts_concat (ht : s.insertAll calls = .ok t) :
    s.EndsOnRestarts (calls ++ [c]) ↔ s.EndsOnRestarts calls ∧
      (s.per1gNum ∣ (s.charges calls).length + 1 → ∃ hops, t.work c = .restart hops) := by
  rw [EndsOnRestarts, forall_prefix_concat, ← EndsOnRestarts, length_charges ht,
    work_eq_restart_iff]
  refine and_congr_right fun _ => imp_congr_right fun _ => ?_
  constructor
  · intro h
    exact h t ht
  · intro h u hu
    obtain rfl := Except.ok.inj (ht.symm.trans hu)
    exact h

/-- The run returns, and as long as every window has ended on a search from the head the counters
hold the open one. -/
theorem reportsWindows_iff_of_valid (hv : Valid s A B) (hper : s.per1gNum ≠ 0)
    (h0 : AccessCount.Tracks s.per1gNum s.accessCount [])
    (hheights : ∀ c ∈ calls, 1 ≤ c.height ∧ c.height ≤ s.kMaxHeight) :
    (s.ReportsWindows calls ↔ s.EndsOnRestarts calls) ∧ ∃ t, s.insertAll calls = .ok t ∧
      (s.EndsOnRestarts calls → AccessCount.Tracks s.per1gNum t.accessCount (s.charges calls)) := by
  induction calls using List.reverseRecOn with
  | nil =>
    exact ⟨reportsWindows_nil s, s, rfl, fun _ => h0⟩
  | append_singleton calls c ih =>
    have hinit : ∀ d ∈ calls, 1 ≤ d.height ∧ d.height ≤ s.kMaxHeight :=
      fun d hd => hheights d (List.mem_append_left _ hd)
    obtain ⟨hiff, t, ht, htracks⟩ := ih hinit
    obtain ⟨hcfg, A', B', hv'⟩ := hv.insertAll hinit ht
    have hheight := hheights c (by simp)
    rw [← hcfg.kMaxHeight] at hheight
    obtain ⟨t', ht'⟩ := hv'.insert_ok (hcfg.per1gNum ▸ hper) hheight
    obtain ⟨-, hcount⟩ := insert_accessCount ht'
    rw [hcfg.per1gNum] at hcount
    have hreports : t'.reports = (t.accessCount.insert s.per1gNum (t.work c)).reports :=
      congrArg AccessCount.reports hcount
    rw [reportsWindows_concat ht ht', endsOnRestarts_concat ht, hiff]
    refine ⟨and_congr_right fun hends => ?_, t', (insertAll_concat ht c).trans ht', ?_⟩
    · rw [hreports]
      exact (htracks hends).reports_iff (t.work c)
    · rintro ⟨hends, hlast⟩
      rw [hcount, charges_concat ht]
      exact (htracks hends).insert hlast

/-- The windows of a run are reported as they should exactly if each of them ends with a search from
the head. -/
theorem reportsWindows_iff (maxHeight keySize optNum per1gNum : ℕ) (hper : 1 ≤ per1gNum)
    (calls : List Call) (hheights : ∀ c ∈ calls,
      1 ≤ c.height ∧ c.height ≤ (new maxHeight keySize optNum per1gNum).kMaxHeight) :
    (new maxHeight keySize optNum per1gNum).ReportsWindows calls ↔
      (new maxHeight keySize optNum per1gNum).EndsOnRestarts calls := by
  have h0 : AccessCount.Tracks per1gNum (new maxHeight keySize optNum per1gNum).accessCount [] :=
    ⟨rfl, by simp [accessCount, new]⟩
  rcases List.eq_nil_or_concat calls with rfl | ⟨init, c, rfl⟩
  · exact reportsWindows_nil _
  · obtain ⟨h1, hle⟩ := hheights c (by simp)
    have hpos : 0 < maxHeight % 2 ^ 16 := lt_of_lt_of_le h1 hle
    exact (reportsWindows_iff_of_valid (new_valid keySize optNum per1gNum hpos)
      (Nat.pos_iff_ne_zero.mp hper) h0 hheights).1

/-- The second of two keys is the smaller one, and windows are of two. -/
theorem reportsWindows_iff_pair : (new 1 1 0 2).ReportsWindows
    [⟨⟨1, fun _ => []⟩, [98]⟩, ⟨⟨1, fun _ => []⟩, [97]⟩] := by
  rw [reportsWindows_iff 1 1 0 2 (by decide) _ (by simp [new])]
  intro done c hpre hdvd t ht
  have hlen := hpre.length_le
  simp only [List.length_append, List.length_cons, List.length_nil] at hlen
  have hnumber : 2 ∣ done.length + 1 := hdvd
  have hdone : done.length = 1 := by omega
  have heq : done ++ [c] = [⟨⟨1, fun _ => []⟩, [98]⟩] ++ [⟨⟨1, fun _ => []⟩, [97]⟩] :=
    hpre.eq_of_length (by simp [hdone])
  obtain ⟨rfl, hc⟩ := List.append_inj' heq rfl
  obtain rfl := List.singleton_inj.mp hc
  obtain rfl := Except.ok.inj ht
  exact ⟨1, rfl, rfl⟩

/-- A window of one insertion at the end of the list goes unreported. -/
theorem not_reportsWindows : ¬∀ (maxHeight keySize optNum per1gNum : ℕ), 1 ≤ per1gNum →
    ∀ calls : List Call, (∀ c ∈ calls,
      1 ≤ c.height ∧ c.height ≤ (new maxHeight keySize optNum per1gNum).kMaxHeight) →
    (new maxHeight keySize optNum per1gNum).ReportsWindows calls := by
  intro h
  obtain ⟨t, t', ht, ht', he⟩ := h 1 1 0 1 le_rfl [⟨⟨1, fun _ => []⟩, [97]⟩] (by simp [new]) []
    ⟨⟨1, fun _ => []⟩, [97]⟩ List.prefix_rfl
  obtain rfl := Except.ok.inj ht
  obtain rfl := Except.ok.inj ht'
  have hlen := congrArg List.length he
  simp [new] at hlen

end PersistentSkipList

end PersistTree
