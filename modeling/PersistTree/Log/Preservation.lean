import PersistTree.Log.AllocateFile

/-!
# Write-ahead log preservation

The log of a list must survive until the list is flushed. `snprintf` cuts the last digit off the
number in a log's name, so ten logs in a row share one file, and a new log starts at offset 0 over
whatever its file holds. The logs survive as long as no log is opened under the name of a list that
is still queued or being flushed.
-/
namespace PersistTree.Log

open Library Handoff Transition

/-- The bytes of a record are in its file, where they were written. -/
def Present (files : List UInt8 → LogFile) (r : LogRecord) : Prop :=
  ∀ j b, r.bytes[j]? = some b → (files r.file).get? (r.offset + j) = some b

/-- Every key of every list has been logged, in the order of the list; and what was logged for a
list is present until its `Run` has ended. -/
structure Preserved (s : State) : Prop where
  logged : ∀ n, s.core.keys n = (s.records.filter fun r => r.list = n).map LogRecord.bytes
  present : ∀ r ∈ s.records, r.list ∉ s.core.deleted → Present s.files r

/-- `AllocateFile` opens no log under the name of a list that is queued or being flushed. -/
def NameFree (p : Params) (s : State) (a : Action) : Prop :=
  InRealloc s.core a → s.core.skiplist = none → ∀ n < s.core.made, ∀ al ∈ s.queued n,
    al.file ≠ logName p.path ((s.skiplistSeqNumber + 1) % 2 ^ 32)

variable {p : Params} {s t : State} {a : Action} {n w made size : ℕ} {core : Handoff.State}
  {skiplist : Option ℕ} {keys : ℕ → List Key} {deleted : List ℕ} {f : LogFile}
  {files : List UInt8 → LogFile} {allocator : Option PersistentAllocator}
  {queued : ℕ → Option PersistentAllocator} {records : List LogRecord} {al : PersistentAllocator}
  {name bytes : List UInt8} {r : LogRecord} {key : Key}

/-- The file of the active list is where its records are, below the next offset, and those of the
lists in the background are elsewhere, each with its allocator. -/
structure Separate (skiplist : Option ℕ) (made : ℕ) (keys : ℕ → List Key) (deleted : List ℕ)
    (files : List UInt8 → LogFile) (allocator : Option PersistentAllocator)
    (queued : ℕ → Option PersistentAllocator) (records : List LogRecord) : Prop where
  logged : ∀ n, keys n = (records.filter fun r => r.list = n).map LogRecord.bytes
  present : ∀ r ∈ records, r.list ∉ deleted → Present files r
  bound : ∀ r ∈ records, r.list < made
  fresh : ∀ n, skiplist = some n → n < made
  active : ∀ n, skiplist = some n → ∃ al, allocator = some al ∧ ∀ r ∈ records, r.list ∉ deleted →
    if r.list = n then r.file = al.file ∧ r.offset + r.bytes.length ≤ al.curIndex
    else r.file ≠ al.file
  queued : ∀ r ∈ records, r.list ∉ deleted →
    skiplist = some r.list ∨ ∃ al, queued r.list = some al ∧ al.file = r.file

def Separated (s : State) : Prop :=
  Separate s.core.skiplist s.core.made s.core.keys s.core.deleted s.files s.allocator s.queued
    s.records

theorem LogFile.get?_write_lt {offset i : ℕ} (h : i < offset) :
    (f.write offset bytes).get? i = f.get? i := by
  simp only [LogFile.get?, LogFile.write, if_neg (Nat.not_le.mpr h)]

theorem LogFile.get?_write {offset j : ℕ} {b : UInt8} (h : offset + bytes.length ≤ f.length)
    (hj : bytes[j]? = some b) : (f.write offset bytes).get? (offset + j) = some b := by
  have hlt : j < bytes.length := (List.getElem?_eq_some_iff.mp hj).1
  have hin : offset + j < f.length := by omega
  simp only [LogFile.get?, LogFile.write, if_pos hin, if_pos (Nat.le_add_right offset j),
    Nat.add_sub_cancel_left, hj, Option.getD_some]

theorem Present.update (h : Present files r) {g : LogFile}
    (hne : r.file = name → ∀ j < r.bytes.length, g.get? (r.offset + j) =
      (files name).get? (r.offset + j)) : Present (Function.update files name g) r := by
  intro j b hj
  by_cases he : r.file = name
  · have hlt : j < r.bytes.length := (List.getElem?_eq_some_iff.mp hj).1
    rw [he, Function.update_self, hne he j hlt, ← he]
    exact h j b hj
  · rw [Function.update_of_ne he]
    exact h j b hj

theorem Separate.append
    (h : Separate (some n) made keys deleted files (some al) queued records)
    (hfits : al.curIndex + key.length ≤ (files al.file).length) :
    Separate (some n) made (Function.update keys n (keys n ++ [key])) deleted
      (Function.update files al.file ((files al.file).write al.curIndex key))
      (some { al with curIndex := al.curIndex + key.length }) queued
      (records ++ [⟨n, al.file, al.curIndex, key⟩]) := by
  obtain ⟨al', ⟨⟩, hactive⟩ := h.active n rfl
  have hmem : ∀ {P : LogRecord → Prop}, (∀ r ∈ records, P r) → P ⟨n, al.file, al.curIndex, key⟩ →
      ∀ r ∈ records ++ [⟨n, al.file, al.curIndex, key⟩], P r := by
    intro P hold hnew r hr
    rcases List.mem_append.mp hr with hr | hr
    · exact hold r hr
    · rw [List.mem_singleton.mp hr]
      exact hnew
  constructor
  · intro m
    rw [List.filter_append, List.map_append, ← h.logged m]
    by_cases hm : m = n
    · subst m
      simp
    · simp [hm, Ne.symm hm]
  · apply hmem
    · intro r hr hlive
      apply (h.present r hr hlive).update
      intro he j hj
      apply LogFile.get?_write_lt
      have hr' := hactive r hr hlive
      split_ifs at hr' with hlist
      · omega
      · exact absurd he hr'
    · intro _ j b hj
      rw [Function.update_self]
      exact LogFile.get?_write hfits hj
  · exact hmem h.bound (h.fresh n rfl)
  · exact h.fresh
  · rintro m ⟨⟩
    refine ⟨_, rfl, hmem ?_ ?_⟩
    · intro r hr hlive
      have hr' := hactive r hr hlive
      split_ifs at hr' ⊢ with hlist
      · exact ⟨hr'.1, le_trans hr'.2 (Nat.le_add_right _ _)⟩
      · exact hr'
    · intro _
      rw [if_pos rfl]
      exact ⟨rfl, le_rfl⟩
  · apply hmem h.queued
    intro _
    exact Or.inl rfl

theorem Separate.handOver
    (h : Separate (some n) made keys deleted files allocator queued records) :
    Separate none made keys deleted files none (Function.update queued n allocator) records := by
  obtain ⟨al, rfl, hactive⟩ := h.active n rfl
  refine ⟨h.logged, h.present, h.bound, nofun, nofun, ?_⟩
  intro r hr hlive
  right
  have hr' := hactive r hr hlive
  by_cases he : r.list = n
  · rw [if_pos he] at hr'
    exact ⟨al, by rw [he, Function.update_self], hr'.1.symm⟩
  · obtain ⟨al', hal', hfile⟩ := (h.queued r hr hlive).resolve_left fun hs =>
      he (Option.some.inj hs).symm
    exact ⟨al', by rw [Function.update_of_ne he, hal'], hfile⟩

/-- `Realloc` opens a log under a name that no list in the background uses. -/
theorem Separate.allocateFile
    (h : Separate none made keys deleted files allocator queued records)
    (hname : ∀ m < made, ∀ al ∈ queued m, al.file ≠ name) (size : ℕ) :
    Separate (some made) (made + 1) keys deleted
      (Function.update files name ((files name).resize size)) (some ⟨name, size, 0⟩) queued
      records := by
  have hqueued : ∀ r ∈ records, r.list ∉ deleted →
      ∃ al, queued r.list = some al ∧ al.file = r.file := by
    intro r hr hlive
    exact (h.queued r hr hlive).resolve_left nofun
  have hother : ∀ r ∈ records, r.list ∉ deleted → r.file ≠ name := by
    intro r hr hlive
    obtain ⟨al, hal, hfile⟩ := hqueued r hr hlive
    rw [← hfile]
    exact hname r.list (h.bound r hr) al hal
  constructor
  · exact h.logged
  · intro r hr hlive
    apply (h.present r hr hlive).update
    intro he
    exact absurd he (hother r hr hlive)
  · intro r hr
    exact Nat.lt_succ_of_lt (h.bound r hr)
  · rintro m ⟨⟩
    exact Nat.lt_succ_self _
  · rintro m ⟨⟩
    refine ⟨_, rfl, ?_⟩
    intro r hr hlive
    rw [if_neg (h.bound r hr).ne]
    exact hother r hr hlive
  · intro r hr hlive
    exact Or.inr (hqueued r hr hlive)

theorem Separate.deleteLog
    (h : Separate skiplist made keys deleted files allocator queued records) (n : ℕ) :
    Separate skiplist made keys (n :: deleted) files allocator (Function.update queued n none)
      records := by
  have hlive : ∀ {r : LogRecord}, r.list ∉ n :: deleted → r.list ≠ n ∧ r.list ∉ deleted :=
    fun hr => by rwa [List.mem_cons, not_or] at hr
  constructor
  · exact h.logged
  · intro r hr hr'
    exact h.present r hr (hlive hr').2
  · exact h.bound
  · exact h.fresh
  · intro m hm
    obtain ⟨al, hal, hactive⟩ := h.active m hm
    refine ⟨al, hal, ?_⟩
    intro r hr hr'
    exact hactive r hr (hlive hr').2
  · intro r hr hr'
    obtain ⟨hne, hr'⟩ := hlive hr'
    rw [Function.update_of_ne hne]
    exact h.queued r hr hr'

theorem Separated.reallocLog (h : Separated s) (hn : s.core.skiplist = none)
    (hf : core.fault = none) (hlist : core.skiplist = some s.core.made)
    (hmade : core.made = s.core.made + 1) (hkeys : core.keys = s.core.keys)
    (hdeleted : core.deleted = s.core.deleted)
    (hname : ∀ m < s.core.made, ∀ al ∈ s.queued m,
      al.file ≠ logName p.path ((s.skiplistSeqNumber + 1) % 2 ^ 32)) :
    Separated (Log.reallocLog p { s with core := core }) := by
  unfold Separated at h
  rw [hn] at h
  have hsep := h.allocateFile hname ((p.maxMemSkiplistSize + 1048576) % 2 ^ 64)
  rw [← hlist, ← hmade, ← hkeys, ← hdeleted] at hsep
  rw [Log.reallocLog, if_neg (by rw [hf]; simp)]
  exact hsep

theorem Separated.insert (h : Separated s) (hlist : core.skiplist = s.core.skiplist)
    (hmade : core.made = s.core.made) (hdeleted : core.deleted = s.core.deleted)
    (hkeys : ∀ n, s.core.skiplist = some n →
      core.keys = Function.update s.core.keys n (s.core.keys n ++ [key])) :
    Separated (logEffect p s core (.insert key)) := by
  rcases appendLog_cases s key with he | ⟨n, al, hn, hal, hfits, he⟩
  · simp only [logEffect, he]
    exact h
  · simp only [logEffect, he]
    unfold Separated at h ⊢
    rw [hn, hal] at h
    rw [hlist, hmade, hdeleted, hkeys n hn, hn]
    exact h.append hfits

theorem Separated.assertLog (h : Separated s) (f : FlushNVM) : Separated (Log.assertLog s f) := by
  unfold Log.assertLog
  split_ifs
  · exact h
  · exact h

theorem Separated.logEffect (h : Separated s) (hf : s.core.fault = none) (hfree : NameFree p s a)
    (hm : Moves p.toParams s.core a core) : Separated (Log.logEffect p s core a) := by
  cases hm with
  | insertNull key hp hl =>
    refine h.insert rfl rfl rfl ?_
    intro n hn
    rw [hl] at hn
    cases hn
  | insert key n pc hp hl hpc =>
    refine h.insert rfl rfl rfl ?_
    intro m hm
    rw [hl] at hm
    cases hm
    rfl
  | reallocKept a n hp hl =>
    rcases hp with ⟨rfl, hp⟩ | ⟨rfl, hp⟩
    · exact h
    · simp only [Log.logEffect, hp]
      exact h
  | realloc a hp hl =>
    have hname := hfree hp hl
    rcases hp with ⟨rfl, hp⟩ | ⟨rfl, hp⟩
    · exact h.reallocLog hl hf rfl rfl rfl rfl hname
    · simp only [Log.logEffect, hp]
      exact h.reallocLog hl hf rfl rfl rfl rfl hname
  | push hp hq =>
    unfold Separated at h
    cases hn : s.core.skiplist with
    | none =>
      simp only [Log.logEffect, hp, hn]
      rw [hn] at h
      exact h
    | some n =>
      simp only [Log.logEffect, hp, hn, Log.handOver, hf]
      rw [hn] at h
      exact h.handOver
  | pushFull hp =>
    cases hn : s.core.skiplist with
    | none =>
      simp only [Log.logEffect, hp, hn]
      exact h
    | some n =>
      simp only [Log.logEffect, hp, hn, Log.handOver]
      exact h
  | block hp hb | pass hp hb | waited hp hq | sleep hp hq | loadTrue hp hr | loadFalse hp hr
  | enqueue hp =>
    simp only [Log.logEffect, hp]
    exact h
  | start w hw hpc | testLeave w hw hpc | testStay w hw hpc | loopLeave w hw hpc
  | loopStay w hw hpc | popNone w hw hpc | pop w f queue hw hpc | sizeNotify w hw hpc
  | sizeSkip w hw hpc | notify w hw hpc | notifyWake w hw hpc | clear w hw hpc =>
    simp only [Log.logEffect, hpc]
    exact h
  | run w n hw hpc | runFault w n hw hpc =>
    simp only [Log.logEffect, hpc]
    apply Separated.assertLog
    exact h
  | endRun w hw hpc =>
    simp only [Log.logEffect, hpc, Log.deleteLog]
    unfold Separated
    cases (s.core.workers w).flush.skiplist with
    | none => exact h
    | some n => exact Separate.deleteLog h n
  | _ => exact h

theorem Separated.preserved (h : Separated s) : Preserved s := ⟨h.logged, h.present⟩

theorem Separated.step (h : Separated s) (hfree : NameFree p s a)
    (hs : Log.step p s a = some t) : Separated t := by
  obtain ⟨core, hcore, rfl⟩ := Option.map_eq_some_iff.mp hs
  exact h.logEffect (fault_of_step hcore) hfree (moves_of_step hcore)

theorem init_separated (p : Params) (seq : ℕ) (files : List UInt8 → LogFile) :
    Separated (init p seq files) where
  logged := fun _ => rfl
  present := nofun
  bound := nofun
  fresh := by
    rintro n ⟨⟩
    exact Nat.zero_lt_one
  active := fun _ _ => ⟨_, rfl, nofun⟩
  queued := nofun

/-- As long as no log is opened under the name of a list that is queued or being flushed, the log of
every list that is not yet flushed is preserved. -/
theorem preserved_of_nameFree (p : Params) (seq : ℕ) (files : List UInt8 → LogFile)
    (as : List Action) (h : Guarded (step p) (init p seq files) as (NameFree p)) :
    Along (step p) (init p seq files) as Preserved := by
  have hI : Along (step p) (init p seq files) as Separated :=
    h.along (init_separated p seq files) fun _ _ _ hs hfree hstep => hs.step hfree hstep
  exact hI.mono fun _ hs => hs.preserved

instance (s : State) (a : Action) : Decidable (InRealloc s.core a) := by
  unfold InRealloc
  infer_instance

instance (p : Params) (s : State) (a : Action) : Decidable (NameFree p s a) := by
  unfold NameFree
  infer_instance

/-- A key is queued and another one logged; the first log has number 9 and the second one 10. -/
def twoLogs : List Action :=
  List.flatten [[.insert [97]], List.replicate 5 .producer, [.insert [98]]]

theorem preserved_of_nameFree_two :
    Along (step ⟨⟨2, 1, 2⟩, [108]⟩) (init ⟨⟨2, 1, 2⟩, [108]⟩ 8 fun _ => ⟨0, fun _ => 0⟩) twoLogs
      Preserved :=
  preserved_of_nameFree ⟨⟨2, 1, 2⟩, [108]⟩ 8 _ twoLogs (Guarded.of_check (by decide +kernel))

/-- With the numbers 1 and 2 both logs are the file `l0000000`, and the second key overwrites the
first one, whose list is still queued. -/
theorem preserved_fails :
    ∃ s, run (step ⟨⟨2, 1, 2⟩, [108]⟩)
        (init ⟨⟨2, 1, 2⟩, [108]⟩ 0 fun _ => ⟨0, fun _ => 0⟩) twoLogs = some s ∧ ¬Preserved s := by
  have hrun : (run (step ⟨⟨2, 1, 2⟩, [108]⟩)
      (init ⟨⟨2, 1, 2⟩, [108]⟩ 0 fun _ => ⟨0, fun _ => 0⟩) twoLogs).map (fun s =>
        (s.records.head?, s.core.deleted, (s.files (logName [108] 1)).get? 0)) =
      some (some ⟨0, logName [108] 1, 0, [97]⟩, [], some 98) := by
    decide +kernel
  obtain ⟨s, hs, he⟩ := Option.map_eq_some_iff.mp hrun
  simp only [Prod.mk.injEq] at he
  obtain ⟨hrecord, hdeleted, hbyte⟩ := he
  refine ⟨s, hs, ?_⟩
  intro h
  have hpresent := h.present _ (List.mem_of_mem_head? hrecord) (by rw [hdeleted]; simp) 0 97 rfl
  exact absurd (hpresent.symm.trans hbyte) (by decide)

end PersistTree.Log
