import PersistTree.Buffer.OrderCheck
import PersistTree.Handoff.Arrival
import PersistTree.Handoff.Loops

/-!
# The order check of the flushing threads

`Run` calls `PrintKey` for every key that it moves. As long as the producer inserts keys of 16
digits that are not all zeros, and none twice into one list, no `Run` reports an error, whatever the
schedule: the loop has passed the nodes before it in order, and remembers the last of them.
-/
namespace PersistTree.Handoff

open Library Transition

variable {d : ListParams}

/-- A key of 16 digits that are not all zeros. -/
def IsNumbered (key : Key) : Prop :=
  StartsWithDigits key ∧ key.take 16 ≠ List.replicate 16 48

/-- The keys that a run may insert: no two in one list are equal in their digits. -/
def InsertsNumbers (d : ListParams) (s : ListState) : ListAction → Prop
  | .insert c => IsNumbered c.key ∧ 1 ≤ c.height ∧ c.height ≤ d.dramMaxHeight % 2 ^ 16 ∧
      ∀ n, s.core.skiplist = some n → ∀ key ∈ s.core.keys n, strncmp key c.key 16 ≠ 0
  | _ => True

theorem IsNumbered.fillsWindow {key : Key} (h : IsNumbered key) : FillsWindow 16 key := by
  refine ⟨h.1.1, fun h0 => ?_⟩
  exact absurd (h.1.2 0 h0).1 (by decide)

theorem IsNumbered.printable {key : Key} (h : IsNumbered key) :
    MemorySkipList.Printable 16 key := by
  obtain ⟨b, l, hb⟩ : ∃ b l, key.take 16 = b :: l := by
    refine List.exists_cons_of_ne_nil fun hnil => ?_
    have hlen := congrArg List.length hnil
    rw [List.length_take, min_eq_left h.1.1] at hlen
    cases hlen
  refine ⟨b, by rw [hb]; rfl, ?_⟩
  have hdigit : IsDigit b := h.1.2 b (by rw [hb]; exact List.mem_cons_self)
  exact UInt8.lt_iff_toNat_lt.mpr (lt_of_lt_of_le (by decide) hdigit.1)

theorem InsertsNumbers.good {s : ListState} {a : ListAction} (hd : d.keySize = 16)
    (h : InsertsNumbers d s a) : InsertsGood d s a := by
  cases a with
  | insert c =>
    obtain ⟨hkey, hpos, hle, hnew⟩ := h
    unfold InsertsGood
    rw [hd]
    exact ⟨hkey.fillsWindow, hkey.printable, hpos, hle, hnew⟩
  | copy | core => trivial

/-- A list as the hand-off records it, with numbered keys in strictly increasing order. -/
structure HoldsNumbers (d : ListParams) (list : MemorySkipList) (keys : List Key) : Prop
    extends HoldsKeys d list keys where
  numbered : ∀ key ∈ keys, IsNumbered key
  distinct : keys.Pairwise fun a b => strncmp a b 16 ≠ 0

theorem HoldsNumbers.insert (hd : d.keySize = 16) {list : MemorySkipList} {keys : List Key}
    (h : HoldsNumbers d list keys) (c : Call) (hkey : IsNumbered c.key) (hpos : 1 ≤ c.height)
    (hle : c.height ≤ d.dramMaxHeight % 2 ^ 16) (hnew : ∀ key ∈ keys, strncmp key c.key 16 ≠ 0) :
    ∃ list', list.insert c = .ok list' ∧ HoldsNumbers d list' (keys ++ [c.key]) := by
  obtain ⟨list', he, hlist⟩ := h.toHoldsKeys.insert c (by rw [hd]; exact hkey.fillsWindow)
    (by rw [hd]; exact hkey.printable) hpos hle (by rwa [hd])
  refine ⟨list', he, hlist, fun key hmem => ?_, ?_⟩
  · rcases List.mem_append.mp hmem with hmem | hmem
    · exact h.numbered key hmem
    · rw [List.mem_singleton.mp hmem]
      exact hkey
  · refine List.pairwise_append.mpr ⟨h.distinct, List.pairwise_singleton _ _, fun a ha b hb => ?_⟩
    rw [List.mem_singleton.mp hb]
    exact hnew a ha

theorem HoldsNumbers.exists_chain (hd : d.keySize = 16) {list : MemorySkipList} {keys : List Key}
    (h : HoldsNumbers d list keys) : ∃ L, Chain (list.nodes.next 0) list.head L ∧
      (∀ y ∈ L, list.keyAt y = some (list.keyOf y) ∧ IsNumbered (list.keyOf y)) ∧
      L.Pairwise fun x y => strncmp (list.keyOf x) (list.keyOf y) 16 < 0 := by
  obtain ⟨batch, A, B, hs, rfl⟩ := h.sorted
  refine ⟨A ++ B, hs.located.base, fun y hy => ⟨?_, ?_⟩, ?_⟩
  · exact hs.intact y (hs.located.allocated y (List.mem_cons_of_mem _ hy))
  · exact h.numbered _ (hs.filled.keys_perm.subset (List.mem_map_of_mem hy))
  · rw [← hd, ← h.keySize]
    apply hs.filled.pairwise_lt
    rw [h.keySize, hd]
    exact List.pairwise_map.mp h.distinct

/-- What `PrintKey` makes of the string that `Run` copies out of a key buffer. -/
theorem IsNumbered.printKey_eq {key : Key} (h : IsNumbered key) (junk : List UInt8)
    (last : ℕ × ℕ) : printKey (cString (key ++ junk)) last =
      (keyNumbers key, !decide (last.1 < (keyNumbers key).1 ∨
        last.1 = (keyNumbers key).1 ∧ last.2 < (keyNumbers key).2)) := by
  rw [h.1.printKey_of_take_eq (h.fillsWindow.cString junk).1, PersistTree.printKey_eq h.1]

/-- The numbers of the last key that the loop has passed on. -/
def lastNumbers (list : MemorySkipList) (P : List ℕ) : ℕ × ℕ :=
  (P.getLast?.map fun x => keyNumbers (list.keyOf x)).getD (0, 0)

/-- The loop compares the next key with the last one that it has passed on. -/
def Remembers (list : MemorySkipList) (loop : RunLoop) (P : List ℕ) : Prop :=
  loop.last = lastNumbers list P

theorem Passing.silent (hd : d.keySize = 16) {list : MemorySkipList} {keys : List Key}
    (hl : HoldsNumbers d list keys) {loop : RunLoop} {P Q : List ℕ} {y : ℕ}
    (h : Passing Remembers list loop P (y :: Q)) (junk : List UInt8) :
    list.keyAt y = some (list.keyOf y) ∧
      printKey (cString (list.keyOf y ++ junk)) loop.last = (keyNumbers (list.keyOf y), false) := by
  obtain ⟨L, hchain, hnodes, hsorted⟩ := hl.exists_chain hd
  obtain rfl : L = P ++ y :: Q := hchain.unique h.chain
  obtain ⟨hkey, hy⟩ := hnodes y (by simp)
  refine ⟨hkey, ?_⟩
  rw [hy.printKey_eq, show loop.last = _ from h.passed, Prod.mk.injEq, Bool.not_eq_false',
    decide_eq_true_eq]
  refine ⟨rfl, ?_⟩
  rcases List.eq_nil_or_concat' P with rfl | ⟨P, x, rfl⟩
  · -- the first key is compared with two zeros
    have hne : keyNumbers (list.keyOf y) ≠ (0, 0) :=
      fun h0 => hy.2 ((keyNumbers_eq_zero_iff hy.1).mp h0)
    rw [Ne, Prod.ext_iff] at hne
    simp only [lastNumbers, List.getLast?_nil, Option.map_none, Option.getD_none]
    dsimp only at hne
    omega
  · have hx := (hnodes x (by simp)).2
    have hlt : strncmp (list.keyOf x) (list.keyOf y) 16 < 0 :=
      (List.pairwise_append.mp hsorted).2.2 x (by simp) y (by simp)
    have hbefore := (strncmp_neg_iff_keyNumbers hx.1 hy.1).mp hlt
    simpa only [lastNumbers, List.getLast?_concat, Option.map_some, Option.getD_some] using hbefore

/-- An iteration reports nothing and remembers the key that it has moved. -/
theorem Passing.copied (hd : d.keySize = 16) {list : MemorySkipList} {keys : List Key}
    (hl : HoldsNumbers d list keys) {loop : RunLoop} {P Q : List ℕ} {y : ℕ}
    (h : Passing Remembers list loop P (y :: Q)) {junk : ℕ → List UInt8} {nvm : PersistentSkipList}
    {next : Ptr} {st : FlushState}
    (hstep : iterate list junk d.env y ⟨nvm, loop.last, loop.reports⟩ = .ok (next, st)) :
    st.reports = loop.reports ++ [false] ∧
      Remembers list ⟨next, st.last, st.reports⟩ (P ++ [y]) := by
  obtain ⟨hkey, hprint⟩ := h.silent hd hl (junk y)
  obtain ⟨buffer, hbuffer, hstep⟩ := bind_eq_ok.mp hstep
  obtain rfl := Option.some.inj ((deref_eq_ok.mp hbuffer).symm.trans hkey)
  obtain ⟨nvm', -, hstep⟩ := bind_eq_ok.mp hstep
  obtain ⟨next', -, hstep⟩ := bind_eq_ok.mp hstep
  cases hstep
  dsimp only at hprint ⊢
  rw [hprint]
  refine ⟨rfl, ?_⟩
  simp [Remembers, lastNumbers]

variable {s t : ListState} {w : ℕ}

/-- The lists and the loops between two steps. -/
structure Orderly (d : ListParams) (s : ListState) : Prop where
  handedOver : HandedOver s.core
  lists : ∀ n, HoldsNumbers d (s.lists n) (s.core.keys n)
  loops : Looping Remembers s

theorem listInit_orderly (hdram : 0 < d.dramMaxHeight % 2 ^ 16) : Orderly d (listInit d) where
  handedOver := init_handedOver
  lists n :=
    { toHoldsKeys := (listInit_recorded hdram).holds n
      numbered := nofun
      distinct := List.Pairwise.nil }
  loops _ _ h := by cases h

theorem Orderly.holdsNumbers (h : Orderly d s) (hd : d.keySize = 16) {a : ListAction}
    (hgood : InsertsNumbers d s a) (hm : ListMoves d s a t) (hf : t.fault = none)
    (hcore : t.core.fault = none) (n : ℕ) : HoldsNumbers d (t.lists n) (t.core.keys n) := by
  cases hm with
  | insertFault | copyFault | enterFault => cases hf
  | insertNull _ _ _ hne | coreFault _ _ _ _ hne => exact absurd hcore hne
  | copy => exact h.lists n
  | enter w m y core hstep | leave w core hstep =>
    rw [((moves_of_step hstep).keys_eq nofun).1]
    exact h.lists n
  | other b core hb hstep =>
    rw [((moves_of_step hstep).keys_eq hb).1]
    exact h.lists n
  | insert c core m list hstep hm hlist =>
    obtain ⟨hkey, hpos, hle, hnew⟩ := hgood
    obtain ⟨list', he, hholds⟩ := (h.lists m).insert hd c hkey hpos hle (hnew m hm)
    obtain rfl : list = list' := Except.ok.inj (hlist.symm.trans he)
    dsimp only
    rw [((moves_of_step hstep).insert_keys hm).1]
    by_cases hnm : n = m
    · subst n
      rw [Function.update_self, Function.update_self]
      exact hholds
    · rw [Function.update_of_ne hnm, Function.update_of_ne hnm]
      exact h.lists n

theorem Orderly.step (h : Orderly d s) (hd : d.keySize = 16) {a : ListAction}
    (hgood : InsertsNumbers d s a) (hm : ListMoves d s a t) (hf : t.fault = none)
    (hcore : t.core.fault = none) : Orderly d t where
  handedOver := by
    rcases hm.core with ⟨-, he⟩ | ⟨b, -, hstep⟩
    · rw [he]
      exact h.handedOver
    · exact h.handedOver.moves (moves_of_step hstep)
  lists := h.holdsNumbers hd hgood hm hf hcore
  loops := by
    refine h.loops.step h.handedOver (fun n => ?_) (fun _ _ => rfl) ?_ hm hf hcore
    · obtain ⟨L, hL, -⟩ := (h.lists n).exists_chain hd
      exact ⟨L, hL⟩
    · intro w n y P Q next st hpass hstep
      exact (hpass.copied hd (h.lists n) hstep).2

theorem silent_update {loops : ℕ → RunLoop} {x : RunLoop}
    (hx : true ∈ x.reports → true ∈ (loops w).reports) (h : ∀ v, true ∉ (loops v).reports) :
    ∀ v, true ∉ (Function.update loops w x v).reports := by
  intro v
  by_cases hv : v = w
  · subst v
    rw [Function.update_self]
    exact fun hreport => h w (hx hreport)
  · rw [Function.update_of_ne hv]
    exact h v

theorem Orderly.silent (h : Orderly d s) (hd : d.keySize = 16) {a : ListAction}
    (hm : ListMoves d s a t) (hsilent : ∀ v, true ∉ (s.loops v).reports) :
    ∀ v, true ∉ (t.loops v).reports := by
  cases hm with
  | copy w n y next st hw hpc hn hy hstep =>
    obtain ⟨P, Q, hpass⟩ := h.loops w n hpc hn
    obtain ⟨Q, rfl, -⟩ := hpass.cons hy
    have hreports := (hpass.copied hd (h.lists n) hstep).1
    refine silent_update (fun hreport => ?_) hsilent
    rw [hreports, List.mem_append] at hreport
    exact hreport.resolve_right (by simp)
  | enter w n y core hstep hw hpc hn hruns hworkers hnext =>
    exact silent_update (fun hreport => by cases hreport) hsilent
  | _ => exact hsilent

/-- Whatever the schedule, no `Run` reports that its list is out of order, as long as the keys
inserted are numbered and no two in one list have the same digits. -/
theorem runs_report_nothing (d : ListParams) (hd : d.keySize = 16)
    (hdram : 0 < d.dramMaxHeight % 2 ^ 16) (as : List ListAction) (s : ListState)
    (hrun : run (listStep d) (listInit d) as = some s)
    (hguard : Guarded (listStep d) (listInit d) as (InsertsNumbers d)) :
    ∀ w, true ∉ (s.loops w).reports := by
  refine (hguard.invariant (I := fun s => (∀ w, true ∉ (s.loops w).reports) ∧
    (s.fault = none → s.core.fault = none → Orderly d s)) ?_ ?_ hrun).1
  · exact ⟨fun _ => List.not_mem_nil, fun _ _ => listInit_orderly hdram⟩
  · rintro s a t ⟨hsilent, horderly⟩ hgood hs
    obtain ⟨hf, hcore⟩ := fault_of_listStep hs
    have hm := listMoves_of_listStep hs
    exact ⟨(horderly hf hcore).silent hd hm hsilent, (horderly hf hcore).step hd hgood hm⟩

instance (key : Key) : Decidable (IsNumbered key) :=
  letI : Decidable (∀ b ∈ key.take 16, IsDigit b) := List.decidableBAll _ _
  inferInstanceAs (Decidable
    ((16 ≤ key.length ∧ ∀ b ∈ key.take 16, IsDigit b) ∧ key.take 16 ≠ List.replicate 16 48))

instance (d : ListParams) (s : ListState) (a : ListAction) : Decidable (InsertsNumbers d s a) := by
  cases a <;> unfold InsertsNumbers <;> infer_instance

def digitsParams : ListParams where
  skiplistMaxNum := 1
  maxMemSkiplistSize := 32
  workers := 1
  dramMaxHeight := 1
  keySize := 16
  nvm := .new 1 16 0 1
  junk := fun _ _ => [0]
  env := fun _ => ⟨1, fun _ => []⟩

/-- Two keys in falling order, and the `Run` that moves them. -/
def digitsKeys : List ListAction :=
  List.flatten [[.insert ⟨⟨1, fun _ => []⟩, List.replicate 16 50⟩,
      .insert ⟨⟨1, fun _ => []⟩, List.replicate 16 49⟩], List.replicate 5 (.core .producer),
    [.core (.take 0)], List.replicate 7 (.core (.worker 0)), [.copy 0, .copy 0],
    List.replicate 3 (.core (.worker 0))]

/-- The loop has passed both keys on. -/
theorem runs_report_nothing_digits :
    ∃ s, run (listStep digitsParams) (listInit digitsParams) digitsKeys = some s ∧
      ((s.loops 0).start = none ∧ (s.loops 0).last = (22222222, 22222222)) ∧
      ∀ w, true ∉ (s.loops w).reports := by
  have hrun : (run (listStep digitsParams) (listInit digitsParams) digitsKeys).map (fun s =>
      ((s.loops 0).start, (s.loops 0).last)) = some (none, (22222222, 22222222)) := rfl
  obtain ⟨s, hs, he⟩ := Option.map_eq_some_iff.mp hrun
  rw [Prod.mk.injEq] at he
  exact ⟨s, hs, he, runs_report_nothing digitsParams rfl (by decide) digitsKeys s hs
    (Guarded.of_check (by rfl))⟩

end PersistTree.Handoff
