import PersistTree.Aep.Kept
import PersistTree.Library.Transition

/-!
# The life cycle of the log's entries

`Delete` frees the chain from `head` and leaves `head` null, but `tail` still points to the last
entry. A second `Delete` finds an empty chain. A `Put` would go to the freed entry.
-/
namespace PersistTree.Aep

open Library Transition

namespace AepLog

inductive Call where
  | put (key : Key)
  | delete
  deriving DecidableEq, Repr

def call (log : AepLog) : Call → Except Fault AepLog
  | .put key => log.put key
  | .delete => log.delete

/-- A call that does not go wrong. -/
def step (log : AepLog) (c : Call) : Option AepLog := (log.call c).toOption

/-- The pointer leads to an entry that is live and reachable from `head`. -/
def Held (log : AepLog) (p : Option ℕ) : Prop :=
  ∃ l x, p = some x ∧ log.entries.IsList LogEntry.next log.head l ∧ x ∈ l

/-- `Put` works on entries that are live and reachable, and `Delete` frees every entry of the chain
exactly once. -/
def Safe (log : AepLog) : Call → Prop
  | .put key => log.Held log.tail ∧ ∀ t, log.put key = .ok t → t.Held t.tail
  | .delete => ∃ l t, log.entries.IsList LogEntry.next log.head l ∧ log.delete = .ok t ∧
      t.entries.freed = log.entries.freed ++ l ∧ t.entries.freed.Nodup

/-- No `Put` comes after a `Delete`. -/
def PutsFirst (cs : List Call) : Prop := ∀ bs key, bs ++ [.put key] <+: cs → .delete ∉ bs

variable {log s t : AepLog} {x y z : ℕ} {e : LogEntry} {key : Key} {P l : List ℕ} {c : Call}
  {entrySize : UInt64} {cs bs : List Call}

theorem append_heap (h : log.append key = .ok t) : ∃ x e e', log.entries.load x = some e ∧
    t = { log with entries := log.entries.store x e' } := by
  obtain ⟨⟨x, e⟩, he, h⟩ := bind_eq_ok.mp h
  cases h
  exact ⟨x, e, e.append key, (entry_ok he).2, rfl⟩

theorem put_freedOnce (h : log.entries.FreedOnce) (hput : log.put key = .ok t) :
    t.entries.FreedOnce := by
  obtain ⟨⟨x, e⟩, he, hput⟩ := bind_eq_ok.mp hput
  dsimp only at hput
  split_ifs at hput with hroom
  · obtain ⟨y, f, f', hf, rfl⟩ := append_heap hput
    exact h.store hf f'
  · obtain ⟨y, f, f', hf, rfl⟩ := append_heap hput
    have hload := (entry_ok he).2
    exact ((h.alloc _).store (Heap.load_alloc hload _) _).store hf f'

theorem Linked.held (h : log.Linked P y) : log.Held log.tail :=
  ⟨P ++ [y], y, h.tail, h.list, by simp⟩

theorem deleteFrom_ok {fuel : ℕ} (h : log.entries.IsList LogEntry.next log.head l)
    (hfuel : l.length < fuel) : ∃ t, deleteFrom fuel log.head log = .ok t ∧ t.head = none ∧
      t.tail = log.tail ∧ t.entries.freed = log.entries.freed ++ l ∧
      (log.entries.FreedOnce → t.entries.FreedOnce) := by
  induction l generalizing log fuel with
  | nil =>
    obtain ⟨fuel, rfl⟩ := Nat.exists_eq_succ_of_ne_zero hfuel.ne'
    have hnull : log.head = none := h
    refine ⟨log, ?_, hnull, rfl, (List.append_nil _).symm, id⟩
    rw [hnull]
    rfl
  | cons x l ih =>
    obtain ⟨fuel, rfl⟩ := Nat.exists_eq_succ_of_ne_zero (Nat.ne_zero_of_lt hfuel)
    have hx : x ∉ l := (List.nodup_cons.mp h.nodup).1
    obtain ⟨hhead, e, he, hlist⟩ := h
    have hlist' : (log.entries.free x).IsList LogEntry.next e.next l := by
      apply hlist.congr
      intro z hz
      rw [Heap.load_free_ne]
      rintro rfl
      exact hx hz
    obtain ⟨t, ht, hnull, htail, hfreed, honce⟩ :=
      @ih { log with entries := log.entries.free x, head := e.next } fuel hlist'
        (Nat.lt_of_succ_lt_succ hfuel)
    refine ⟨t, ?_, hnull, htail, ?_, ?_⟩
    · rw [hhead, deleteFrom, hhead, entry_eq he, ok_bind]
      exact ht
    · rw [hfreed]
      exact List.append_assoc _ [x] l
    · intro h
      exact honce (h.free he)

theorem delete_ok (h : log.entries.IsList LogEntry.next log.head l) :
    ∃ t, log.delete = .ok t ∧ t.head = none ∧ t.tail = log.tail ∧
      t.entries.freed = log.entries.freed ++ l ∧
      (log.entries.FreedOnce → t.entries.FreedOnce) :=
  deleteFrom_ok h (Nat.lt_succ_of_le h.length_le)

def Alive (log : AepLog) : Prop := log.entries.FreedOnce ∧ ∃ P y, log.Linked P y

def Gone (log : AepLog) : Prop :=
  log.entries.FreedOnce ∧ log.head = none ∧ ∃ y, log.tail = some y ∧ y ∈ log.entries.freed

theorem new_alive (entrySize : UInt64) : (new entrySize).Alive :=
  ⟨Heap.FreedOnce.empty.alloc _, [], 0, (new_represents entrySize).toLinked⟩

theorem Alive.put (h : log.Alive) (key : Key) : ∃ t, log.put key = .ok t ∧ t.Alive := by
  obtain ⟨honce, P, y, hlinked⟩ := h
  obtain ⟨t, Q, z, ht, hlinked'⟩ := hlinked.put key
  exact ⟨t, ht, put_freedOnce honce ht, Q, z, hlinked'⟩

theorem Alive.delete (h : log.Alive) : ∃ t, log.delete = .ok t ∧ t.Gone := by
  obtain ⟨honce, P, y, hlinked⟩ := h
  obtain ⟨t, ht, hnull, htail, hfreed, honce'⟩ := delete_ok hlinked.list
  refine ⟨t, ht, honce' honce, hnull, y, htail.trans hlinked.tail, ?_⟩
  rw [hfreed]
  exact List.mem_append_right _ (by simp)

theorem Gone.delete (h : log.Gone) : ∃ t, log.delete = .ok t ∧ t.Gone := by
  obtain ⟨honce, hhead, y, hy, hmem⟩ := h
  obtain ⟨t, ht, hnull, htail, hfreed, honce'⟩ := delete_ok (l := []) hhead
  refine ⟨t, ht, honce' honce, hnull, y, htail.trans hy, ?_⟩
  rw [hfreed]
  exact List.mem_append_left _ hmem

theorem Gone.put (h : log.Gone) (key : Key) : log.put key = .error .useAfterFree := by
  obtain ⟨honce, -, y, hy, hmem⟩ := h
  have hfreed := honce.freed y hmem
  have hentry : log.entry (some y) = .error .useAfterFree := by
    unfold entry
    simp only [hfreed.load_eq_none, if_pos hfreed]
  rw [AepLog.put, hy, hentry, error_bind]

theorem Alive.safe (h : log.Alive) (c : Call) : log.Safe c := by
  obtain ⟨honce, P, y, hlinked⟩ := h
  cases c with
  | put key =>
    refine ⟨hlinked.held, ?_⟩
    intro t ht
    obtain ⟨t', Q, z, ht', hlinked'⟩ := hlinked.put key
    obtain rfl := Except.ok.inj (ht.symm.trans ht')
    exact hlinked'.held
  | delete =>
    obtain ⟨t, ht, -, -, hfreed, honce'⟩ := delete_ok hlinked.list
    exact ⟨_, t, hlinked.list, ht, hfreed, (honce' honce).nodup⟩

theorem Gone.safe_delete (h : log.Gone) : log.Safe .delete := by
  obtain ⟨honce, hhead, -⟩ := h
  obtain ⟨t, ht, -, -, hfreed, honce'⟩ := delete_ok (l := []) hhead
  exact ⟨[], t, hhead, ht, hfreed, (honce' honce).nodup⟩

theorem Gone.not_safe_put (h : log.Gone) : ¬log.Safe (.put key) := by
  rintro ⟨⟨l, x, -, hlist, hx⟩, -⟩
  rw [h.2.1] at hlist
  cases l with
  | nil => cases hx
  | cons y l => cases hlist.1

theorem step_eq_some : step log c = some t ↔ log.call c = .ok t := by
  unfold step
  cases log.call c with
  | error e => simp [Except.toOption]
  | ok u => simp [Except.toOption]

/-- Where a sequence of calls that did not go wrong has led. -/
theorem run_cases (hr : run step (new entrySize) bs = some s) :
    .delete ∉ bs ∧ s.Alive ∨ .delete ∈ bs ∧ s.Gone := by
  induction bs using List.reverseRecOn generalizing s with
  | nil =>
    cases hr
    exact Or.inl ⟨nofun, new_alive entrySize⟩
  | append_singleton bs c ih =>
    obtain ⟨u, hu, hs⟩ := (run_concat _).mp hr
    have hcall := step_eq_some.mp hs
    cases c with
    | put key =>
      rcases ih hu with ⟨hnone, halive⟩ | ⟨-, hgone⟩
      · obtain ⟨t, ht, halive'⟩ := halive.put key
        obtain rfl := Except.ok.inj (hcall.symm.trans ht)
        exact Or.inl ⟨by simpa using hnone, halive'⟩
      · rw [call, hgone.put key] at hcall
        cases hcall
    | delete =>
      obtain ⟨t, ht, hgone⟩ : ∃ t, u.delete = .ok t ∧ t.Gone := by
        rcases ih hu with ⟨-, halive⟩ | ⟨-, hgone⟩
        · exact halive.delete
        · exact hgone.delete
      obtain rfl := Except.ok.inj (hcall.symm.trans ht)
      exact Or.inr ⟨by simp, hgone⟩

theorem run_of_guarded (h : Guarded step (new entrySize) bs Safe) :
    ∃ s, run step (new entrySize) bs = some s := by
  induction bs using List.reverseRecOn with
  | nil => exact ⟨_, rfl⟩
  | append_singleton bs c ih =>
    obtain ⟨u, hu⟩ := ih (h.of_prefix (List.prefix_append bs [c]))
    have hsafe := h bs c (List.prefix_refl _) u hu
    obtain ⟨t, ht⟩ : ∃ t, u.call c = .ok t := by
      cases c with
      | put key =>
        rcases run_cases hu with ⟨-, halive⟩ | ⟨-, hgone⟩
        · obtain ⟨t, ht, -⟩ := halive.put key
          exact ⟨t, ht⟩
        · exact absurd hsafe hgone.not_safe_put
      | delete =>
        obtain ⟨l, t, -, ht, -⟩ := hsafe
        exact ⟨t, ht⟩
    exact ⟨t, (run_concat _).mpr ⟨u, hu, step_eq_some.mpr ht⟩⟩

/-- Every call of a sequence is safe exactly if no `Put` comes after a `Delete`. -/
theorem safe_iff_putsFirst (entrySize : UInt64) (cs : List Call) :
    Guarded step (new entrySize) cs Safe ↔ PutsFirst cs := by
  constructor
  · intro h bs key hbs hdelete
    have hpre : bs <+: cs := (List.prefix_append bs _).trans hbs
    obtain ⟨s, hs⟩ := run_of_guarded (h.of_prefix hpre)
    rcases run_cases hs with ⟨hnone, -⟩ | ⟨-, hgone⟩
    · exact hnone hdelete
    · exact hgone.not_safe_put (h bs (.put key) hbs s hs)
  · intro h bs c hbs s hs
    rcases run_cases hs with ⟨-, halive⟩ | ⟨hdelete, hgone⟩
    · exact halive.safe c
    · cases c with
      | put key => exact absurd hdelete (h bs key hbs)
      | delete => exact hgone.safe_delete

/-- A `Put` after a `Delete`. -/
theorem safe_iff_putsFirst_fails : ¬Guarded step (new 4) [.put [97], .delete, .put [98]] Safe := by
  intro h
  have hrun : (run step (new 4) [.put [97], .delete]).map AepLog.head = some none := by decide
  obtain ⟨s, hs, hhead⟩ := Option.map_eq_some_iff.mp hrun
  obtain ⟨⟨l, x, -, hlist, hx⟩, -⟩ := h [.put [97], .delete] (.put [98]) (List.prefix_refl _) s hs
  rw [hhead] at hlist
  cases l with
  | nil => cases hx
  | cons y l => cases hlist.1

end AepLog

end PersistTree.Aep
