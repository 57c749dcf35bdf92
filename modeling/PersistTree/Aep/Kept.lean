import PersistTree.Aep.AepLog
import PersistTree.Library.NextFit

/-!
# What the persistent log keeps

`Put` packs the payloads into entries like next-fit packs items into bins, as long as each of them
fits into an entry. A payload that does not is still copied to a new entry, past the end of its data
array, and `w_oft` is larger than `size` from then on.
-/
namespace PersistTree.Aep

open Library

namespace AepLog

variable {log t : AepLog} {x y z : ℕ} {e : LogEntry} {key : Key} {P : List ℕ} {b : Bins Key}
  {entrySize : UInt64}

/-- The entries from `head` to `tail` are live. -/
structure Linked (log : AepLog) (P : List ℕ) (y : ℕ) : Prop where
  list : log.entries.IsList LogEntry.next log.head (P ++ [y])
  tail : log.tail = some y

/-- The entries are well formed and hold the payloads as the bins do. -/
structure Represents (log : AepLog) (P : List ℕ) (y : ℕ) (b : Bins Key) : Prop extends
    Linked log P y where
  sized : ∀ z ∈ P ++ [y], ∃ e, log.entries.load z = some e ∧ Sized log.entrySize e
  closed : P.map log.written = b.closed.map List.flatten
  current : log.written y = b.current.flatten

theorem written_eq (h : log.entries.load x = some e) :
    log.written x = e.data.take e.wOft.toNat := by
  rw [written, h]
  rfl

theorem Sized.length_written (hs : Sized log.entrySize e) (h : log.entries.load x = some e) :
    (log.written x).length = e.wOft.toNat := by
  have hle := UInt64.le_iff_toNat_le.mp hs.wOft
  rw [written_eq h, List.length_take, hs.data, ← hs.size]
  exact min_eq_left hle

theorem new_represents (entrySize : UInt64) :
    (new entrySize).Represents [] 0 Bins.empty where
  list := ⟨rfl, freshEntry entrySize, rfl, rfl⟩
  tail := rfl
  sized := by
    intro z hz
    obtain rfl := List.mem_singleton.mp hz
    exact ⟨freshEntry entrySize, rfl, freshEntry_sized entrySize⟩
  closed := rfl
  current := rfl

theorem Sized.append (hs : Sized entrySize e)
    (hroom : e.wOft.toNat + key.length ≤ entrySize.toNat) :
    Sized entrySize (e.append key) ∧
      (e.append key).data.take (e.append key).wOft.toNat = e.data.take e.wOft.toNat ++ key := by
  have hlt := entrySize.toNat_lt
  have hoft : (e.append key).wOft.toNat = e.wOft.toNat + key.length := by
    rw [LogEntry.append, UInt64.toNat_add, UInt64.toNat_ofNat']
    omega
  refine ⟨⟨hs.size, ?_, ?_⟩, ?_⟩
  · exact (length_overwrite e.data e.wOft.toNat key).trans hs.data
  · rw [UInt64.le_iff_toNat_le, hoft]
    exact hroom.trans_eq (congrArg UInt64.toNat hs.size.symm)
  · rw [hoft]
    exact take_overwrite (hroom.trans_eq hs.data.symm)

/-- The unsigned subtraction is the room that is left. -/
theorem Sized.room (hs : Sized entrySize e) :
    (e.size - e.wOft).toNat = entrySize.toNat - e.wOft.toNat := by
  rw [UInt64.toNat_sub_of_le _ _ hs.wOft, hs.size]

theorem Linked.store (h : log.Linked P y) {e' : LogEntry} (he : log.entries.load y = some e)
    (hnext : e'.next = e.next) :
    Linked { log with entries := log.entries.store y e' } P y where
  list := by
    apply h.list.congr
    intro z hz
    by_cases hzy : z = y
    · subst z
      dsimp only
      rw [Heap.load_store_self he, he, Option.map_some, Option.map_some, hnext]
    · dsimp only
      rw [Heap.load_store_ne (Ne.symm hzy)]
  tail := h.tail

/-- The log when `Put` has linked a new entry in behind the entry `e` at `y`. -/
def opened (log : AepLog) (y : ℕ) (e : LogEntry) : AepLog :=
  { log with
    entries := (log.entries.alloc (freshEntry log.entrySize)).store y
      { e with next := some log.entries.fresh }
    tail := some log.entries.fresh }

theorem Linked.ne_fresh (h : log.Linked P y) (hz : z ∈ P ++ [y]) : z ≠ log.entries.fresh := by
  obtain ⟨e, he⟩ := h.list.load hz
  exact (Heap.lt_fresh he).ne

theorem Linked.load_opened_fresh (h : log.Linked P y) :
    (log.opened y e).entries.load log.entries.fresh = some (freshEntry log.entrySize) := by
  unfold opened
  rw [Heap.load_store_ne (h.ne_fresh (by simp)), Heap.load_alloc_self]

theorem load_opened_tail (he : log.entries.load y = some e) :
    (log.opened y e).entries.load y = some { e with next := some log.entries.fresh } :=
  Heap.load_store_self (Heap.load_alloc he (freshEntry log.entrySize)) _

theorem Linked.load_opened_of_mem (h : log.Linked P y) (hz : z ∈ P) :
    (log.opened y e).entries.load z = log.entries.load z := by
  have hzy : y ≠ z := by
    rintro rfl
    exact (List.nodup_append.mp h.list.nodup).2.2 y hz y (by simp) rfl
  obtain ⟨f, hf⟩ := h.list.load (List.mem_append_left _ hz)
  unfold opened
  rw [Heap.load_store_ne hzy, Heap.load_alloc hf, hf]

theorem Linked.opened (h : log.Linked P y) (he : log.entries.load y = some e) :
    (log.opened y e).Linked (P ++ [y]) log.entries.fresh where
  list := h.list.concat (load_opened_tail he) rfl h.load_opened_fresh rfl fun _ hz =>
    h.load_opened_of_mem hz
  tail := rfl

theorem Linked.written_opened (h : log.Linked P y) (he : log.entries.load y = some e)
    (hz : z ∈ P ++ [y]) : (log.opened y e).written z = log.written z := by
  rcases List.mem_append.mp hz with hz | hz
  · unfold written
    rw [h.load_opened_of_mem hz]
  · obtain rfl := List.mem_singleton.mp hz
    rw [written_eq he, written_eq (load_opened_tail he)]

theorem append_eq (hy : log.tail = some y) (he : log.entries.load y = some e) (key : Key) :
    log.append key = .ok { log with entries := log.entries.store y (e.append key) } := by
  rw [append, hy, entry_eq he]
  rfl

theorem written_store_ne (h : z ≠ y) (e' : LogEntry) :
    written { log with entries := log.entries.store y e' } z = log.written z := by
  unfold written
  dsimp only
  rw [Heap.load_store_ne (Ne.symm h)]

theorem put_room (hy : log.tail = some y) (he : log.entries.load y = some e)
    (hroom : key.length < (e.size - e.wOft).toNat) : log.put key = log.append key := by
  rw [put, hy, entry_eq he, ok_bind]
  exact if_pos hroom

theorem put_opened (hy : log.tail = some y) (he : log.entries.load y = some e)
    (hroom : ¬key.length < (e.size - e.wOft).toNat) :
    log.put key = (log.opened y e).append key := by
  rw [put, hy, entry_eq he, ok_bind]
  exact if_neg hroom

theorem Linked.put_full (h : log.Linked P y) (he : log.entries.load y = some e)
    (hfull : ¬key.length < (e.size - e.wOft).toNat) :
    ∃ t, log.put key = .ok t ∧ t.entrySize = log.entrySize ∧
      t.Linked (P ++ [y]) log.entries.fresh ∧
      t.entries.load log.entries.fresh = some ((freshEntry log.entrySize).append key) ∧
      ∀ z ∈ P ++ [y], t.entries.load z = (log.opened y e).entries.load z ∧
        t.written z = log.written z := by
  have hnew := h.load_opened_fresh (e := e)
  refine ⟨_, (put_opened h.tail he hfull).trans (append_eq rfl hnew key), rfl,
    (h.opened he).store hnew rfl, Heap.load_store_self hnew _, ?_⟩
  intro z hz
  exact ⟨Heap.load_store_ne (Ne.symm (h.ne_fresh hz)) _,
    (written_store_ne (h.ne_fresh hz) _).trans (h.written_opened he hz)⟩

theorem Linked.put (h : log.Linked P y) (key : Key) :
    ∃ t Q z, log.put key = .ok t ∧ t.Linked Q z := by
  obtain ⟨e, he⟩ := h.list.load (by simp : y ∈ P ++ [y])
  by_cases hroom : key.length < (e.size - e.wOft).toNat
  · exact ⟨_, P, y, (put_room h.tail he hroom).trans (append_eq h.tail he key), h.store he rfl⟩
  · obtain ⟨t, ht, -, hlinked, -⟩ := h.put_full he hroom
    exact ⟨t, _, _, ht, hlinked⟩

theorem Represents.sized_opened (h : log.Represents P y b) (he : log.entries.load y = some e)
    (hz : z ∈ P ++ [y]) :
    ∃ f, (log.opened y e).entries.load z = some f ∧ Sized log.entrySize f := by
  obtain ⟨f, hf, hs⟩ := h.sized z hz
  rcases List.mem_append.mp hz with hz | hz
  · exact ⟨f, (h.load_opened_of_mem hz).trans hf, hs⟩
  · obtain rfl := List.mem_singleton.mp hz
    obtain rfl := Option.some.inj (he.symm.trans hf)
    exact ⟨_, load_opened_tail he, hs.size, hs.data, hs.wOft⟩

theorem Represents.put (h : log.Represents P y b) (hlen : key.length ≤ log.entrySize.toNat) :
    ∃ t Q z, log.put key = .ok t ∧ t.entrySize = log.entrySize ∧
      t.Represents Q z (b.add List.length log.entrySize.toNat key) := by
  obtain ⟨e, he, hs⟩ := h.sized y (by simp)
  have htotal : total List.length b.current = e.wOft.toNat := by
    rw [total, ← List.length_flatten, ← h.current, hs.length_written he]
  unfold Bins.add
  rw [htotal]
  by_cases hroom : key.length < (e.size - e.wOft).toNat
  · have hfits : e.wOft.toNat + key.length < log.entrySize.toNat := by
      rw [hs.room] at hroom
      omega
    obtain ⟨hs', hdata⟩ := hs.append hfits.le
    have hne : ∀ z ∈ P, z ≠ y := by
      rintro z hz rfl
      exact (List.nodup_append.mp h.list.nodup).2.2 z hz z (by simp) rfl
    refine ⟨_, P, y, (put_room h.tail he hroom).trans (append_eq h.tail he key), rfl, ?_⟩
    rw [if_pos hfits]
    refine ⟨h.store he rfl, ?_, ?_, ?_⟩
    · intro z hz
      by_cases hzy : z = y
      · subst z
        exact ⟨_, Heap.load_store_self he _, hs'⟩
      · obtain ⟨f, hf, hfs⟩ := h.sized z hz
        exact ⟨f, (Heap.load_store_ne (Ne.symm hzy) _).trans hf, hfs⟩
    · rw [← h.closed]
      exact List.map_congr_left fun z hz => written_store_ne (hne z hz) _
    · rw [written_eq (Heap.load_store_self he _), hdata, ← written_eq he, h.current,
        List.flatten_append, List.flatten_singleton]
  · have hfull : ¬e.wOft.toNat + key.length < log.entrySize.toNat := by
      rw [hs.room] at hroom
      have := UInt64.le_iff_toNat_le.mp hs.wOft
      omega
    obtain ⟨hs', hdata⟩ := (freshEntry_sized log.entrySize).append ((Nat.zero_add _).trans_le hlen)
    obtain ⟨t, ht, hsize, hlinked, hnew, hold⟩ := h.put_full he hroom
    refine ⟨t, P ++ [y], log.entries.fresh, ht, hsize, ?_⟩
    rw [if_neg hfull]
    refine ⟨hlinked, ?_, ?_, ?_⟩
    · intro z hz
      rcases List.mem_append.mp hz with hz | hz
      · obtain ⟨f, hf, hfs⟩ := h.sized_opened he hz
        exact ⟨f, (hold z hz).1.trans hf, hsize.symm ▸ hfs⟩
      · obtain rfl := List.mem_singleton.mp hz
        exact ⟨_, hnew, hsize.symm ▸ hs'⟩
    · rw [List.map_congr_left fun z hz => (hold z hz).2, List.map_append, List.map_append, h.closed]
      simp [h.current]
    · rw [written_eq hnew, hdata]
      simp [freshEntry]

/-- Every payload fits: the log refines next-fit packing. -/
theorem putAll_represents {keys : List Key} (hlen : ∀ key ∈ keys, key.length ≤ entrySize.toNat) :
    ∃ t P y, (new entrySize).putAll keys = .ok t ∧ t.entrySize = entrySize ∧
      t.Represents P y (Bins.addAll List.length entrySize.toNat keys) := by
  induction keys using List.reverseRecOn with
  | nil => exact ⟨new entrySize, [], 0, rfl, rfl, new_represents entrySize⟩
  | append_singleton keys key ih =>
    obtain ⟨s, P, y, hs, hsize, hrep⟩ := ih fun k hk => hlen k (List.mem_append_left _ hk)
    have hkey : key.length ≤ s.entrySize.toNat := by
      rw [hsize]
      exact hlen key (by simp)
    obtain ⟨t, Q, z, ht, hsize', hrep'⟩ := hrep.put hkey
    refine ⟨t, Q, z, ?_, hsize'.trans hsize, ?_⟩
    · rw [putAll_concat, hs]
      exact ht
    · rw [hsize] at hrep'
      rw [Bins.addAll_concat]
      exact hrep'

/-- The log on the chain `chain` keeps the payloads `keys`, those of one entry in one of the
`groups`. -/
structure Keeps (log : AepLog) (keys : List Key) (chain : List ℕ) (groups : List (List Key)) :
    Prop where
  list : log.entries.IsList LogEntry.next log.head chain
  tail : log.tail = chain.getLast?
  within : ∀ x ∈ chain, ∃ e, log.entries.load x = some e ∧ e.wOft ≤ e.size
  concat : chain.flatMap log.written = keys.flatten
  split : groups.flatten = keys
  contiguous : chain.map log.written = groups.map List.flatten

theorem Represents.keeps (h : log.Represents P y b) : log.Keeps b.items (P ++ [y]) b.bins := by
  have hgroups : (P ++ [y]).map log.written = b.bins.map List.flatten := by
    rw [Bins.bins, List.map_append, List.map_append, h.closed]
    simp [h.current]
  refine ⟨h.list, ?_, ?_, ?_, rfl, hgroups⟩
  · rw [List.getLast?_concat]
    exact h.tail
  · intro x hx
    obtain ⟨e, he, hs⟩ := h.sized x hx
    exact ⟨e, he, hs.wOft⟩
  · rw [List.flatMap_def, hgroups, Bins.items, List.flatten_flatten]

/-- What the new entry holds of a payload larger than an entry. -/
theorem Represents.not_keeps (h : log.Represents P y b) (hput : log.put key = .ok t)
    (hlen : log.entrySize.toNat < key.length) (chain : List ℕ) (groups : List (List Key)) :
    ¬t.Keeps (b.items ++ [key]) chain groups := by
  intro hkeeps
  obtain ⟨e, he, hs⟩ := h.sized y (by simp)
  have hfull : ¬key.length < (e.size - e.wOft).toNat := by
    rw [hs.room]
    omega
  obtain ⟨t', ht, -, hlinked, hnew, hold⟩ := h.put_full he hfull
  obtain rfl := Except.ok.inj (hput.symm.trans ht)
  have hshort : (t.written log.entries.fresh).length ≤ log.entrySize.toNat := by
    rw [written_eq hnew]
    refine (List.length_take_le' _ _).trans_eq ?_
    exact (length_overwrite _ _ key).trans (freshEntry_sized log.entrySize).data
  have hconcat := hkeeps.concat
  have hbefore := h.keeps.concat
  rw [hkeeps.list.unique hlinked.list, List.flatMap_append, List.flatMap_singleton,
    List.flatMap_congr fun z hz => (hold z hz).2, hbefore, List.flatten_append,
    List.flatten_singleton] at hconcat
  rw [List.append_cancel_left hconcat] at hshort
  omega

theorem forall_fits_of_keeps {keys : List Key}
    (h : ∀ ks, ks <+: keys → ∃ log chain groups, (new entrySize).putAll ks = .ok log ∧
      log.Keeps ks chain groups) : ∀ key ∈ keys, key.length ≤ entrySize.toNat := by
  induction keys using List.reverseRecOn with
  | nil => nofun
  | append_singleton keys key ih =>
    have hold := ih fun ks hks => h ks (hks.trans (List.prefix_append keys [key]))
    obtain ⟨s, P, y, hs, hsize, hrep⟩ := putAll_represents hold
    obtain ⟨t, chain, groups, ht, hkeeps⟩ := h _ (List.prefix_refl _)
    rw [putAll_concat, hs] at ht
    intro k hk
    rcases List.mem_append.mp hk with hk | hk
    · exact hold k hk
    · obtain rfl := List.mem_singleton.mp hk
      by_contra hlen
      rw [← hsize, Nat.not_le] at hlen
      refine hrep.not_keeps ht hlen chain groups ?_
      rw [Bins.items_addAll]
      exact hkeeps

end AepLog

end PersistTree.Aep
