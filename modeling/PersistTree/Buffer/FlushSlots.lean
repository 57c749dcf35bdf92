import PersistTree.Buffer.FlushNVM
import PersistTree.SkipLists.SlotAccess

/-!
# The slot accesses of a flush

`Run` reads the slots of the DRAM list on level 0, each behind the key of its node, and between two
of these reads `Insert` goes through the slots of the NVM list.
-/
namespace PersistTree

open Library

namespace FlushNVM

/-- The accesses of the loop of `Run` from node `start` on: those to the DRAM list and those to the
NVM list. -/
def slotsFrom (list : MemorySkipList) (junk : ℕ → List UInt8) (env : ℕ → Env) :
    ℕ → Ptr → PersistentSkipList → List SlotOp × List SlotOp
  | 0, _, _ => ([], [])
  | _ + 1, none, _ => ([], [])
  | fuel + 1, some start, nvm =>
    match list.keyAt start with
    | none => ([], [])
    | some buffer =>
      let c : Call := ⟨env nvm.nodes.length, cString (buffer ++ junk start)⟩
      match nvm.insert c with
      | .error _ => ([], nvm.insertSlots c)
      | .ok nvm' =>
        let rest := match list.nodes.next 0 start with
          | some next => slotsFrom list junk env fuel next nvm'
          | none => ([], [])
        (.next start 0 :: rest.1, nvm.insertSlots c ++ rest.2)

/-- The accesses of `Run`. -/
def runSlots (f : FlushNVM) (junk : ℕ → List UInt8) (env : ℕ → Env) (nvm : PersistentSkipList) :
    List SlotOp × List SlotOp :=
  match f.skiplist with
  | none => ([], [])
  | some list =>
    let rest := match list.nodes.next 0 list.head with
      | some start => slotsFrom list junk env (list.nodes.length + 1) start nvm
      | none => ([], [])
    (.next list.head 0 :: rest.1, rest.2)

variable {list : MemorySkipList} {junk : ℕ → List UInt8} {env : ℕ → Env}
  {nvm : PersistentSkipList} {A B l : List ℕ} {ops : List SlotOp} {op : SlotOp}

theorem slotsFrom_readable {nxt : ℕ → Option Ptr} {x : ℕ} (hc : Chain nxt x l)
    (hread : ∀ y, list.nodes.next 0 y = nxt y ∨
      list.nodes.next 0 y = none ∧ list.keyAt y = none) {fuel : ℕ} {start : Ptr}
    (hstart : nxt x = some start) (hop : op ∈ (slotsFrom list junk env fuel start nvm).1) :
    ∃ y q, op = .next y 0 ∧ list.nodes.next 0 y = some q := by
  induction hc generalizing fuel start nvm with
  | nil hx =>
    obtain rfl := Option.some.inj (hx.symm.trans hstart)
    cases fuel <;> cases hop
  | @cons x y l hx hc ih =>
    obtain rfl := Option.some.inj (hx.symm.trans hstart)
    cases fuel with
    | zero => cases hop
    | succ fuel =>
      rw [slotsFrom] at hop
      rcases hkey : list.keyAt y with _ | buffer
      · rw [hkey] at hop
        cases hop
      · have hnext : list.nodes.next 0 y = some l.head? := by
          rcases hread y with he | ⟨-, hnone⟩
          · rw [he]
            exact hc.next_eq
          · rw [hkey] at hnone
            cases hnone
        simp only [hkey, hnext] at hop
        rcases hins : nvm.insert ⟨env nvm.nodes.length, cString (buffer ++ junk y)⟩ with e | nvm'
        · rw [hins] at hop
          cases hop
        · rw [hins] at hop
          rcases List.mem_cons.mp hop with rfl | hop
          · exact ⟨y, _, rfl, hnext⟩
          · exact ih hc.next_eq hop

theorem safe_runSlots (h : Recorded ops list.nodes) (hf : list.Flushable)
    (hhead : (SlotOp.next list.head 0).Allowed ops) :
    SafeTrace (ops ++ (runSlots ⟨some list⟩ junk env nvm).1) := by
  refine h.safe.reads fun op hop => ?_
  rw [runSlots] at hop
  rcases List.mem_cons.mp hop with rfl | hop
  · exact ⟨list.head, 0, rfl, hhead⟩
  · obtain ⟨nxt, L, hc, hread⟩ := hf
    rcases hq : list.nodes.next 0 list.head with _ | start
    · simp only [hq] at hop
      cases hop
    · simp only [hq] at hop
      have hstart : nxt list.head = some start := by
        rcases hread list.head with he | ⟨hnone, -⟩
        · rw [← he, hq]
        · rw [hq] at hnone
          cases hnone
      obtain ⟨y, q, rfl, hy⟩ := slotsFrom_readable hc hread hstart hop
      exact ⟨y, 0, rfl, h.next_allowed hy⟩

/-- The accesses of a `Run` to the NVM list are those of a run of `Insert` calls. -/
theorem slotsFrom_insertAll (list : MemorySkipList) (junk : ℕ → List UInt8) (env : ℕ → Env)
    (fuel : ℕ) (start : Ptr) (nvm : PersistentSkipList) : ∃ calls : List Call,
      (slotsFrom list junk env fuel start nvm).2 = nvm.insertAllSlots calls ∧
        ∀ c ∈ calls, ∃ k, c.toEnv = env k := by
  induction fuel generalizing start nvm with
  | zero => exact ⟨[], rfl, by simp⟩
  | succ fuel ih =>
    cases start with
    | none => exact ⟨[], rfl, by simp⟩
    | some start =>
      rw [slotsFrom]
      rcases hkey : list.keyAt start with _ | buffer
      · exact ⟨[], rfl, by simp⟩
      · generalize hc : (⟨env nvm.nodes.length, cString (buffer ++ junk start)⟩ : Call) = c
        have henv : c.toEnv = env nvm.nodes.length := by rw [← hc]
        dsimp only
        rw [hc]
        rcases hins : nvm.insert c with e | nvm'
        · refine ⟨[c], ?_, ?_⟩
          · simp only [PersistentSkipList.insertAllSlots, hins, List.append_nil]
          · intro d hd
            obtain rfl := List.mem_singleton.mp hd
            exact ⟨_, henv⟩
        · obtain ⟨calls, hcalls, hcallsEnv⟩ : ∃ calls : List Call,
              (match list.nodes.next 0 start with
                | some next => slotsFrom list junk env fuel next nvm'
                | none => ([], [])).2 = nvm'.insertAllSlots calls ∧
                ∀ c ∈ calls, ∃ k, c.toEnv = env k := by
            rcases list.nodes.next 0 start with _ | next
            · exact ⟨[], rfl, by simp⟩
            · exact ih next nvm'
          refine ⟨c :: calls, ?_, List.forall_mem_cons.mpr ⟨⟨_, henv⟩, hcallsEnv⟩⟩
          simp only [PersistentSkipList.insertAllSlots, hins, hcalls]

theorem recorded_runSlots {list : MemorySkipList} (hv : PersistentSkipList.Valid nvm A B)
    (h : Recorded ops nvm.nodes)
    (henv : ∀ k, 1 ≤ (env k).height ∧ (env k).height ≤ nvm.kMaxHeight) :
    ∃ m : Arena Key, Recorded (ops ++ (runSlots ⟨some list⟩ junk env nvm).2) m := by
  obtain ⟨calls, hcalls, hcallsEnv⟩ : ∃ calls : List Call,
      (runSlots ⟨some list⟩ junk env nvm).2 = nvm.insertAllSlots calls ∧
        ∀ c ∈ calls, ∃ k, c.toEnv = env k := by
    rw [runSlots]
    rcases hq : list.nodes.next 0 list.head with _ | start
    · exact ⟨[], by simp only [hq]; rfl, by simp⟩
    · simp only [hq]
      exact slotsFrom_insertAll list junk env _ start nvm
  have hheights : ∀ c ∈ calls, 1 ≤ c.height ∧ c.height ≤ nvm.kMaxHeight := by
    intro c hc
    obtain ⟨k, hk⟩ := hcallsEnv c hc
    rw [hk]
    exact henv k
  obtain ⟨m, hm, -⟩ := hv.recorded_insertAll h hheights
  exact ⟨m, hcalls ▸ hm⟩

end FlushNVM

/-- Everything that is done to the slots of an NVM list up to the last of some `Insert` calls. -/
def PersistentSkipList.slots (maxHeight keySize optNum per1gNum : ℕ) (calls : List Call) :
    List SlotOp :=
  newSlots maxHeight ++ (new maxHeight keySize optNum per1gNum).insertAllSlots calls

/-- The same for a DRAM list. -/
def MemorySkipList.slots (maxHeight keySize : ℕ) (calls : List Call) : List SlotOp :=
  newSlots maxHeight ++ (new maxHeight keySize).insertAllSlots calls

theorem PersistentSkipList.slots_safe {maxHeight : ℕ} (keySize optNum per1gNum : ℕ)
    (h : 0 < maxHeight % 2 ^ 16) {calls : List Call} (hheights : ∀ c ∈ calls,
      1 ≤ c.height ∧ c.height ≤ (new maxHeight keySize optNum per1gNum).kMaxHeight) :
    SafeTrace (slots maxHeight keySize optNum per1gNum calls) ∧
      ∀ nvm, (new maxHeight keySize optNum per1gNum).insertAll calls = .ok nvm →
        Recorded (slots maxHeight keySize optNum per1gNum calls) nvm.nodes ∧
          nvm.kMaxHeight = maxHeight % 2 ^ 16 ∧ ∃ A B, Valid nvm A B := by
  have hv := new_valid keySize optNum per1gNum h
  obtain ⟨m, hm, hnodes⟩ := hv.recorded_insertAll (recorded_new _ _ _ _) hheights
  refine ⟨hm.safe, fun nvm hnvm => ?_⟩
  obtain ⟨hcfg, hvalid⟩ := hv.insertAll hheights hnvm
  exact ⟨hnodes nvm hnvm ▸ hm, hcfg.kMaxHeight, hvalid⟩

theorem MemorySkipList.slots_safe {maxHeight : ℕ} (keySize : ℕ) (h : 0 < maxHeight % 2 ^ 16)
    {calls : List Call} (hheights : ∀ c ∈ calls,
      1 ≤ c.height ∧ c.height ≤ (new maxHeight keySize).kMaxHeight) :
    SafeTrace (slots maxHeight keySize calls) ∧
      ∀ list, (new maxHeight keySize).insertAll calls = .ok list →
        Recorded (slots maxHeight keySize calls) list.nodes ∧ list.head = 0 ∧ list.Flushable := by
  have hnew := new_sorted keySize h
  have hs : Sound (new maxHeight keySize) [] [] := ⟨hnew.located, hnew.intact⟩
  obtain ⟨m, hm, hlist⟩ := hs.steady.recorded_insertAll (recorded_new _ _) hheights
  refine ⟨hm.safe, fun list hl => ?_⟩
  obtain ⟨rfl, hhead, hflush⟩ := hlist list hl
  exact ⟨hm, hhead, hflush⟩

theorem head_allowed {maxHeight : ℕ} (h : 0 < maxHeight % 2 ^ 16) (ops : List SlotOp) :
    (SlotOp.next 0 0).Allowed (newSlots maxHeight ++ ops) := by
  refine ⟨⟨maxHeight, by simp [newSlots], lt_of_lt_of_le h (Nat.mod_le _ _)⟩, ?_⟩
  apply List.mem_append_left
  exact List.mem_cons_of_mem _ (List.mem_map.mpr ⟨0, List.mem_range.mpr h, rfl⟩)

end PersistTree
