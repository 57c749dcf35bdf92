import PersistTree.Buffer.KeyCopies
import PersistTree.Library.Decimal

/-!
# The order check

`PrintKey` reads two numbers of eight digits off each key and reports an error when they do not come
after those of the key before it. `Run` checks the keys of a DRAM list this way and `Print` those of
the NVM list. For keys of 16 digits the check agrees with the comparison of the lists.
-/
namespace PersistTree

open Library

/-- `PrintKey` for one key after the other: whether it reports an error. -/
def orderErrors : ℕ × ℕ → List Key → List Bool
  | _, [] => []
  | last, key :: keys => (printKey key last).2 :: orderErrors (printKey key last).1 keys

/-- The first 16 bytes of a key are digits. -/
def StartsWithDigits (key : Key) : Prop := 16 ≤ key.length ∧ ∀ b ∈ key.take 16, IsDigit b

namespace PersistentSkipList

/-- `PrintKey` of the NVM list, which does the same. -/
def printKey (str : List UInt8) (last : ℕ × ℕ) : (ℕ × ℕ) × Bool := PersistTree.printKey str last

/-- The loop of `Print` from node `start` on. -/
def printFrom (s : PersistentSkipList) (junk : ℕ → List UInt8) :
    ℕ → Ptr → ℕ × ℕ → Except Fault (List Bool)
  | 0, _, _ => .error .badAccess
  | _ + 1, none, _ => .ok []
  | fuel + 1, some start, last => do
    let node ← deref s.nodes[start]?
    let printed := printKey (node.payload ++ junk start) last
    let next ← deref (s.nodes.next 0 start)
    let rest ← printFrom s junk fuel next printed.1
    return printed.2 :: rest

/-- `Print`: which keys the error is reported for. -/
def print (s : PersistentSkipList) (junk : ℕ → List UInt8) : Except Fault (List Bool) := do
  let start ← deref (s.nodes.next 0 s.head)
  printFrom s junk (s.nodes.length + 1) start (0, 0)

variable {s : PersistentSkipList} {junk : ℕ → List UInt8} {L : List ℕ}

theorem printFrom_eq {x : ℕ} {l : List ℕ} (hc : Chain (s.nodes.next 0) x l) {fuel : ℕ}
    (hf : l.length < fuel) (last : ℕ × ℕ) : s.printFrom junk fuel l.head? last =
      .ok (orderErrors last (l.map fun y => s.keyOf y ++ junk y)) := by
  induction hc generalizing fuel last with
  | nil h =>
    obtain ⟨fuel, rfl⟩ : ∃ k, fuel = k + 1 := ⟨fuel - 1, by omega⟩
    rfl
  | @cons x y l h ht ih =>
    obtain ⟨fuel, rfl⟩ : ∃ k, fuel = k + 1 := ⟨fuel - 1, by omega⟩
    have hnode := List.getElem?_eq_getElem (Arena.lt_length_of_next ht.next_eq)
    have hf' : l.length < fuel := by
      simp only [List.length_cons] at hf
      omega
    rw [List.head?_cons, printFrom, hnode, ht.next_eq]
    simp only [deref_some, ok_bind]
    rw [ih hf', ok_bind, List.map_cons, orderErrors, keyOf_eq hnode]
    rfl

/-- `Print` checks the keys of the list in level-0 order. -/
theorem print_eq (hc : Chain (s.nodes.next 0) s.head L) :
    s.print junk = .ok (orderErrors (0, 0) (L.map fun y => s.keyOf y ++ junk y)) := by
  rw [print, hc.next_eq, deref_some, ok_bind]
  exact printFrom_eq hc (Nat.lt_succ_of_le (Arena.chain_length_le hc)) (0, 0)

end PersistentSkipList

/-- `Run` checks the strings that it passes on. -/
theorem FlushNVM.runFrom_reports {list : MemorySkipList} {junk : ℕ → List UInt8} {env : ℕ → Env}
    {fuel : ℕ} {start : Ptr} {s t : FlushState} (h : runFrom list junk env fuel start s = .ok t) :
    t.reports = s.reports ++ orderErrors s.last (passedFrom list junk fuel start) := by
  induction fuel generalizing start s with
  | zero => cases h
  | succ fuel ih =>
    cases start with
    | none =>
      cases h
      exact (List.append_nil _).symm
    | some start =>
      obtain ⟨buffer, hbuffer, h⟩ := bind_eq_ok.mp h
      obtain ⟨nvm, hnvm, h⟩ := bind_eq_ok.mp h
      obtain ⟨next, hnext, h⟩ := bind_eq_ok.mp h
      rw [passedFrom, deref_eq_ok.mp hbuffer, deref_eq_ok.mp hnext, ih h]
      exact List.append_assoc _ _ _

variable {keys : List Key} {key a b : Key} {last : ℕ × ℕ} {k : ℕ}

theorem length_orderErrors (last : ℕ × ℕ) (keys : List Key) :
    (orderErrors last keys).length = keys.length := by
  induction keys generalizing last with
  | nil => rfl
  | cons key keys ih => rw [orderErrors, List.length_cons, ih, List.length_cons]

theorem digits_eq {str : List UInt8} (h : ∀ b ∈ str, IsDigit b) {num : ℕ}
    (hnum : (num + 1) * 10 ^ str.length ≤ 2 ^ 64) : digits str num = decimalFrom num str := by
  induction str generalizing num with
  | nil => rfl
  | cons b str ih =>
    have hb : 48 ≤ b.toNat ∧ b.toNat ≤ 57 := h b (by simp)
    rw [List.length_cons, pow_succ'] at hnum
    have hnext : (10 * num + (b.toNat - 48) + 1) * 10 ^ str.length ≤ 2 ^ 64 := by
      calc (10 * num + (b.toNat - 48) + 1) * 10 ^ str.length
          ≤ ((num + 1) * 10) * 10 ^ str.length := Nat.mul_le_mul_right _ (by omega)
        _ = (num + 1) * (10 * 10 ^ str.length) := Nat.mul_assoc _ _ _
        _ ≤ 2 ^ 64 := hnum
    have hlt : 10 * num + (b.toNat - 48) + 1 ≤ 2 ^ 64 :=
      (Nat.le_mul_of_pos_right _ (Nat.pow_pos (by omega))).trans hnext
    have hchar : signedChar b = b.toNat := if_pos (by omega)
    have hstep : ((signedChar b - 48 + 10 * num) % 2 ^ 64).toNat = 10 * num + (b.toNat - 48) := by
      rw [hchar]
      omega
    rw [digits, hstep, ih (fun c hc => h c (List.mem_cons_of_mem b hc)) hnext]
    rfl

/-- The numbers that `PrintKey` reads off a key. -/
def keyNumbers (key : Key) : ℕ × ℕ :=
  (decimalValue (key.take 8), decimalValue ((key.drop 8).take 8))

theorem eightChars_eq {lo : ℕ} (h : lo + 8 ≤ key.length) :
    eightChars key lo = (key.drop lo).take 8 := by
  apply List.ext_getElem
  · simp only [eightChars, List.length_map, List.length_range, List.length_take, List.length_drop]
    omega
  · intro i hi _
    have hi8 : i < 8 := by simpa [eightChars] using hi
    have hlt : lo + i < key.length := by omega
    simp [eightChars, hlt]

theorem StartsWithDigits.parts (h : StartsWithDigits key) :
    key.take 16 = key.take 8 ++ (key.drop 8).take 8 ∧ (∀ b ∈ key.take 8, IsDigit b) ∧
      ∀ b ∈ (key.drop 8).take 8, IsDigit b := by
  have hsplit : key.take (8 + 8) = key.take 8 ++ (key.drop 8).take 8 := List.take_add
  refine ⟨hsplit, ?_, ?_⟩
  · intro b hb
    exact h.2 b (hsplit ▸ List.mem_append_left _ hb)
  · intro b hb
    exact h.2 b (hsplit ▸ List.mem_append_right _ hb)

theorem StartsWithDigits.length_take (h : StartsWithDigits key) :
    (key.take 8).length = 8 ∧ ((key.drop 8).take 8).length = 8 := by
  have := h.1
  simp only [List.length_take, List.length_drop]
  omega

theorem printKey_eq (h : StartsWithDigits key) (last : ℕ × ℕ) :
    printKey key last = (keyNumbers key, !decide (last.1 < (keyNumbers key).1 ∨
      last.1 = (keyNumbers key).1 ∧ last.2 < (keyNumbers key).2)) := by
  have hlen := h.1
  obtain ⟨-, hnum, hseq⟩ := h.parts
  obtain ⟨hlen8, hlen16⟩ := h.length_take
  have h0 : eightChars key 0 = key.take 8 := eightChars_eq (by omega)
  have h8 : eightChars key 8 = (key.drop 8).take 8 := eightChars_eq hlen
  simp only [printKey, h0, h8]
  rw [digits_eq hnum (by rw [hlen8]; decide), digits_eq hseq (by rw [hlen16]; decide)]
  rfl

theorem StartsWithDigits.of_take_eq (h : StartsWithDigits a) (he : b.take 16 = a.take 16) :
    StartsWithDigits b := by
  refine ⟨?_, by rw [he]; exact h.2⟩
  have hlen := congrArg List.length he
  rw [List.length_take, List.length_take, min_eq_left h.1] at hlen
  exact min_eq_left_iff.mp hlen

theorem StartsWithDigits.printKey_of_take_eq (h : StartsWithDigits a)
    (he : b.take 16 = a.take 16) (last : ℕ × ℕ) : printKey b last = printKey a last := by
  have hnumbers : keyNumbers b = keyNumbers a := by
    have hfirst := congrArg (List.take 8) he
    have hsecond := congrArg (List.drop 8) he
    rw [List.take_take, List.take_take] at hfirst
    rw [List.drop_take, List.drop_take] at hsecond
    exact Prod.ext (congrArg decimalValue hfirst) (congrArg decimalValue hsecond)
  rw [printKey_eq (h.of_take_eq he), printKey_eq h, hnumbers]

theorem orderErrors_map_eq {f g : ℕ → Key} {L : List ℕ} (hg : ∀ y ∈ L, StartsWithDigits (g y))
    (hfg : ∀ y ∈ L, (f y).take 16 = (g y).take 16) (last : ℕ × ℕ) :
    orderErrors last (L.map f) = orderErrors last (L.map g) := by
  induction L generalizing last with
  | nil => rfl
  | cons y L ih =>
    rw [List.map_cons, List.map_cons, orderErrors, orderErrors,
      (hg y (by simp)).printKey_of_take_eq (hfg y (by simp)),
      ih (fun z hz => hg z (by simp [hz])) fun z hz => hfg z (by simp [hz])]

theorem StartsWithDigits.fillsWindow (h : StartsWithDigits key) : FillsWindow 16 key :=
  ⟨h.1, fun h0 => absurd (h.2 0 h0).1 (by decide)⟩

/-- The numbers of two keys are ordered like the keys. -/
theorem strncmp_neg_iff_keyNumbers (ha : StartsWithDigits a) (hb : StartsWithDigits b) :
    strncmp a b 16 < 0 ↔ (keyNumbers a).1 < (keyNumbers b).1 ∨
      (keyNumbers a).1 = (keyNumbers b).1 ∧ (keyNumbers a).2 < (keyNumbers b).2 := by
  have hview : ∀ {key : Key}, StartsWithDigits key → strnview 16 key =
      (key.take 8).map UInt8.toNat ++ ((key.drop 8).take 8).map UInt8.toNat := by
    intro key h
    have h0 : (0 : UInt8) ∉ key.take 16 := fun hmem => absurd (h.2 0 hmem).1 (by decide)
    rw [strnview_of_nul_free h.1 h0, h.parts.1, List.map_append]
  obtain ⟨-, hanum, haseq⟩ := ha.parts
  obtain ⟨-, hbnum, hbseq⟩ := hb.parts
  have hlen8 : (a.take 8).length = (b.take 8).length :=
    ha.length_take.1.trans hb.length_take.1.symm
  have hlen16 : ((a.drop 8).take 8).length = ((b.drop 8).take 8).length :=
    ha.length_take.2.trans hb.length_take.2.symm
  rw [strncmp_neg_iff, hview ha, hview hb, append_lt_append_iff (by simpa using hlen8),
    List.map_inj_right fun _ _ => UInt8.toNat_inj.mp, ← decimalValue_lt_iff hanum hbnum hlen8,
    ← decimalValue_inj hanum hbnum hlen8, ← decimalValue_lt_iff haseq hbseq hlen16]
  rfl

theorem keyNumbers_eq_zero_iff (h : StartsWithDigits key) :
    keyNumbers key = (0, 0) ↔ key.take 16 = List.replicate 16 48 := by
  obtain ⟨hsplit, hnum, hseq⟩ := h.parts
  have hzeros : ∀ b ∈ List.replicate 8 (48 : UInt8), IsDigit b := by
    intro b hb
    obtain rfl := List.eq_of_mem_replicate hb
    decide
  have hvalue : decimalValue (List.replicate 8 48) = 0 := rfl
  have h8 : decimalValue (key.take 8) = 0 ↔ key.take 8 = List.replicate 8 48 := by
    rw [← hvalue]
    exact decimalValue_inj hnum hzeros h.length_take.1
  have h16 : decimalValue ((key.drop 8).take 8) = 0 ↔
      (key.drop 8).take 8 = List.replicate 8 48 := by
    rw [← hvalue]
    exact decimalValue_inj hseq hzeros h.length_take.2
  have hreplicate : List.replicate 16 (48 : UInt8) = List.replicate 8 48 ++ List.replicate 8 48 :=
    rfl
  rw [keyNumbers, Prod.mk.injEq, h8, h16, hsplit, hreplicate]
  constructor
  · rintro ⟨hfirst, hsecond⟩
    rw [hfirst, hsecond]
  · intro happend
    exact List.append_inj happend h.length_take.1

theorem orderErrors_first (hkeys : ∀ key ∈ keys, StartsWithDigits key)
    (hkey : keys[0]? = some key) :
    (orderErrors (0, 0) keys)[0]? = some true ↔ key.take 16 = List.replicate 16 48 := by
  obtain ⟨keys, rfl⟩ : ∃ l, keys = key :: l := by
    cases keys with
    | nil => cases hkey
    | cons x l => exact ⟨l, congrArg (· :: l) (Option.some.inj hkey)⟩
  have h := hkeys key (by simp)
  rw [← keyNumbers_eq_zero_iff h, orderErrors, List.getElem?_cons_zero, Option.some_inj,
    printKey_eq h, Bool.not_eq_true', decide_eq_false_iff_not, Prod.ext_iff]
  dsimp only
  omega

theorem orderErrors_next (hkeys : ∀ key ∈ keys, StartsWithDigits key) (ha : keys[k]? = some a)
    (hb : keys[k + 1]? = some b) (last : ℕ × ℕ) :
    (orderErrors last keys)[k + 1]? = some true ↔ 0 ≤ strncmp a b 16 := by
  induction keys generalizing k last with
  | nil => cases ha
  | cons key keys ih =>
    rw [List.getElem?_cons_succ] at hb
    rw [orderErrors, List.getElem?_cons_succ]
    cases k with
    | succ k => exact ih (fun x hx => hkeys x (List.mem_cons_of_mem key hx)) ha hb _
    | zero =>
      obtain rfl : key = a := Option.some.inj ha
      obtain ⟨keys, rfl⟩ : ∃ l, keys = b :: l := by
        cases keys with
        | nil => cases hb
        | cons x l => exact ⟨l, congrArg (· :: l) (Option.some.inj hb)⟩
      have hkey := hkeys key (by simp)
      have hnext := hkeys b (by simp)
      rw [orderErrors, List.getElem?_cons_zero, Option.some_inj, printKey_eq hkey,
        printKey_eq hnext, Bool.not_eq_true', decide_eq_false_iff_not, ← not_lt,
        strncmp_neg_iff_keyNumbers hkey hnext]

/-- Nothing is reported exactly for strictly increasing keys of which the first is not zero. -/
theorem orderErrors_silent_iff (hkeys : ∀ key ∈ keys, StartsWithDigits key) :
    true ∉ orderErrors (0, 0) keys ↔
      (∀ key, keys[0]? = some key → key.take 16 ≠ List.replicate 16 48) ∧
        keys.IsChain fun a b => strncmp a b 16 < 0 := by
  rw [List.isChain_iff_getElem]
  constructor
  · intro hsilent
    constructor
    · intro key hkey hzeros
      exact hsilent (List.mem_of_getElem? ((orderErrors_first hkeys hkey).mpr hzeros))
    · intro k hk
      by_contra hle
      have ha := List.getElem?_eq_getElem (Nat.lt_of_succ_lt hk)
      have hreport := (orderErrors_next hkeys ha (List.getElem?_eq_getElem hk) (0, 0)).mpr
        (not_lt.mp hle)
      exact hsilent (List.mem_of_getElem? hreport)
  · rintro ⟨hfirst, hchain⟩ hreport
    obtain ⟨k, hk, hget⟩ := List.mem_iff_getElem.mp hreport
    have hget' := List.getElem?_eq_some_iff.mpr ⟨hk, hget⟩
    rw [length_orderErrors] at hk
    cases k with
    | zero =>
      have hkey := List.getElem?_eq_getElem hk
      exact hfirst _ hkey ((orderErrors_first hkeys hkey).mp hget')
    | succ k =>
      have ha := List.getElem?_eq_getElem (Nat.lt_of_succ_lt hk)
      have hle := (orderErrors_next hkeys ha (List.getElem?_eq_getElem hk) (0, 0)).mp hget'
      exact absurd (hchain k hk) (not_lt.mpr hle)

/-- What the order check should report for the keys of a list: each one that does not compare above
the key before it, and a first key of zeros. -/
structure ReportsDisorder (keys : List Key) (reports : List Bool) : Prop where
  length : reports.length = keys.length
  first : ∀ key, keys[0]? = some key →
    (reports[0]? = some true ↔ key.take 16 = List.replicate 16 48)
  next : ∀ k a b, keys[k]? = some a → keys[k + 1]? = some b →
    (reports[k + 1]? = some true ↔ 0 ≤ strncmp a b 16)
  silent : true ∉ reports ↔
    (∀ key, keys[0]? = some key → key.take 16 ≠ List.replicate 16 48) ∧
      keys.IsChain fun a b => strncmp a b 16 < 0

theorem orderErrors_reportsDisorder (hkeys : ∀ key ∈ keys, StartsWithDigits key) :
    ReportsDisorder keys (orderErrors (0, 0) keys) where
  length := length_orderErrors _ _
  first _ hkey := orderErrors_first hkeys hkey
  next _ _ _ ha hb := orderErrors_next hkeys ha hb _
  silent := orderErrors_silent_iff hkeys

theorem PersistentSkipList.print_reportsDisorder {s : PersistentSkipList} {L : List ℕ}
    (hc : Chain (s.nodes.next 0) s.head L) (hkeys : ∀ y ∈ L, StartsWithDigits (s.keyOf y))
    (junk : ℕ → List UInt8) :
    ∃ reports, s.print junk = .ok reports ∧ ReportsDisorder (L.map s.keyOf) reports := by
  refine ⟨_, print_eq hc, ?_⟩
  rw [orderErrors_map_eq hkeys fun y hy => List.take_append_of_le_length (hkeys y hy).1]
  exact orderErrors_reportsDisorder (by simpa using hkeys)

theorem MemorySkipList.keyAt_of_startsWithDigits {list : MemorySkipList} {y : ℕ}
    (h : StartsWithDigits (list.keyOf y)) : list.keyAt y = some (list.keyOf y) := by
  have hlen := h.1
  unfold keyOf at hlen ⊢
  cases hk : list.keyAt y with
  | none =>
    rw [hk] at hlen
    cases hlen
  | some key => rfl

theorem FlushNVM.run_reportsDisorder {list : MemorySkipList} {L : List ℕ}
    (hc : Chain (list.nodes.next 0) list.head L) (hkeys : ∀ y ∈ L, StartsWithDigits (list.keyOf y))
    {junk : ℕ → List UInt8} {env : ℕ → Env} {nvm nvm' : PersistentSkipList}
    (h : (FlushNVM.mk (some list)).run junk env nvm = .ok nvm') :
    ∃ start st, list.nodes.next 0 list.head = some (some start) ∧
      runFrom list junk env (list.nodes.length + 1) (some start) ⟨nvm, (0, 0), []⟩ = .ok st ∧
      st.nvm = nvm' ∧ ReportsDisorder (L.map list.keyOf) st.reports := by
  obtain ⟨start, hstart, h⟩ := bind_eq_ok.mp h
  cases start with
  | none => cases h
  | some start =>
    obtain ⟨st, hst, h⟩ := bind_eq_ok.mp h
    refine ⟨start, st, deref_eq_ok.mp hstart, hst, Except.ok.inj h, ?_⟩
    have hhead : some start = L.head? :=
      Option.some.inj ((deref_eq_ok.mp hstart).symm.trans hc.next_eq)
    rw [hhead] at hst
    have hreports := runFrom_reports hst
    rw [passedFrom_eq hc (fun y hy => MemorySkipList.keyAt_of_startsWithDigits (hkeys y hy))
        (Nat.lt_succ_of_le (Arena.chain_length_le hc)),
      List.nil_append, orderErrors_map_eq hkeys fun y hy =>
        ((hkeys y hy).fillsWindow.cString (junk y)).1] at hreports
    rw [hreports]
    exact orderErrors_reportsDisorder (by simpa using hkeys)

/-- `Print` on every NVM list, and every `Run` on a DRAM list that comes to its end, report exactly
the keys that do not compare above the key before them, and a first key of zeros. A `Run` comes to
its end if the list has a key and the insertions return. -/
theorem print_and_run_report :
    (∀ (s : PersistentSkipList) (L : List ℕ) (junk : ℕ → List UInt8),
      Chain (s.nodes.next 0) s.head L → (∀ y ∈ L, StartsWithDigits (s.keyOf y)) →
        ∃ reports, s.print junk = .ok reports ∧ ReportsDisorder (L.map s.keyOf) reports) ∧
    ∀ (list : MemorySkipList) (L : List ℕ) (junk : ℕ → List UInt8) (env : ℕ → Env)
      (nvm nvm' : PersistentSkipList),
      Chain (list.nodes.next 0) list.head L → (∀ y ∈ L, StartsWithDigits (list.keyOf y)) →
        ((FlushNVM.mk (some list)).run junk env nvm = .ok nvm' ↔ L ≠ [] ∧
          FlushNVM.insertKeys env (L.map fun y => cString (list.keyOf y ++ junk y)) nvm =
            .ok nvm') ∧
        ((FlushNVM.mk (some list)).run junk env nvm = .ok nvm' →
          ∃ start st, list.nodes.next 0 list.head = some (some start) ∧
            FlushNVM.runFrom list junk env (list.nodes.length + 1) (some start)
              ⟨nvm, (0, 0), []⟩ = .ok st ∧
            st.nvm = nvm' ∧ ReportsDisorder (L.map list.keyOf) st.reports) := by
  constructor
  · intro s L junk hc hkeys
    exact PersistentSkipList.print_reportsDisorder hc hkeys junk
  · intro list L junk env nvm nvm' hc hkeys
    constructor
    · apply FlushNVM.run_eq_ok_iff hc
      intro y hy
      exact MemorySkipList.keyAt_of_startsWithDigits (hkeys y hy)
    · intro hrun
      exact FlushNVM.run_reportsDisorder hc hkeys hrun

def PersistentSkipList.pair (a b : Key) : PersistentSkipList :=
  { new 1 16 1 1 with
    nodes := [⟨[32], [some (some 1)]⟩, ⟨a, [some (some 2)]⟩, ⟨b, [some none]⟩] }

def MemorySkipList.pair (a b : Key) : MemorySkipList :=
  { new 1 16 with
    nodes := [⟨newNode [32] 1, [some (some 1)]⟩, ⟨newNode a 1, [some (some 2)]⟩,
      ⟨newNode b 1, [some none]⟩] }

/-- The same key twice in the NVM list, and a DRAM list that is out of order. -/
theorem print_and_run_report_pair :
    (∃ reports, (PersistentSkipList.pair (List.replicate 16 49) (List.replicate 16 49)).print
        (fun _ => [97]) = .ok reports ∧
      ReportsDisorder [List.replicate 16 49, List.replicate 16 49] reports) ∧
    ∃ st, FlushNVM.runFrom (MemorySkipList.pair (List.replicate 16 50) (List.replicate 16 49))
        (fun _ => [97]) (fun _ => ⟨1, fun _ => []⟩) 4 (some 1)
        ⟨PersistentSkipList.new 1 16 1 1, (0, 0), []⟩ = .ok st ∧
      ReportsDisorder [List.replicate 16 50, List.replicate 16 49] st.reports := by
  have hdigits : ∀ b : UInt8, IsDigit b → StartsWithDigits (List.replicate 16 b) := by
    intro b hb
    refine ⟨by simp, fun c hc => ?_⟩
    obtain rfl : c = b := List.eq_of_mem_replicate (List.mem_of_mem_take hc)
    exact hb
  constructor
  · refine print_and_run_report.1 _ [1, 2] _ (.cons rfl (.cons rfl (.nil rfl))) ?_
    intro y hy
    rcases List.mem_pair.mp hy with rfl | rfl
    · exact hdigits 49 (by decide)
    · exact hdigits 49 (by decide)
  · have hkeys : ∀ y ∈ [1, 2], StartsWithDigits ((MemorySkipList.pair (List.replicate 16 50)
        (List.replicate 16 49)).keyOf y) := by
      intro y hy
      rcases List.mem_pair.mp hy with rfl | rfl
      · exact hdigits 50 (by decide)
      · exact hdigits 49 (by decide)
    obtain ⟨hends, hreport⟩ := print_and_run_report.2 _ [1, 2] (fun _ => [97])
      (fun _ => ⟨1, fun _ => []⟩) (PersistentSkipList.new 1 16 1 1) _
      (.cons rfl (.cons rfl (.nil rfl))) hkeys
    obtain ⟨start, st, hstart, hst, -, hreports⟩ :=
      hreport (hends.mpr ⟨List.cons_ne_nil _ _, rfl⟩)
    cases hstart
    exact ⟨st, hst, hreports⟩

end PersistTree
