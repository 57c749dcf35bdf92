import PersistTree.Crash.Links

/-!
# The contents of the nodes after a crash

`NewNode` persists the bytes of the key, but not the `key_` word that the constructor of `Node`
stores; and what `Insert` persists after each link is the first word of the predecessor. The word
of the newest node is therefore never durable while that node is the newest one, although the node
is linked durably. This module turns the observation into the exact set of crash points at which
the contents survive: those before the first node is linked.
-/
namespace PersistTree.PersistentSkipList

open Library Library.PersistentMemory

/-- `y` can be reached from the head through the links of an image. -/
def DurablyReachable (img : PmAddr → Option PmWord) (head y : ℕ) : Prop :=
  Relation.ReflTransGen (fun a b => ∃ i, durableNext img i a = some (some b)) head y

/-- Every reachable node points to its buffer, and the buffer holds the key of the call that made
the node; node `y` is made by call number `y`. -/
def ContentsDurable (img : PmAddr → Option PmWord) (head : ℕ) (keys : List Key) : Prop :=
  ∀ y, y ≠ head → DurablyReachable img head y → img (.key y) = some (.buffer y) ∧
    ∀ key, keys[y - 1]? = some key → ∀ j b, key[j]? = some b → img (.byte y j) = some (.byte b)

def BaseUnlinked (p : List PmOp) : Prop :=
  ∀ y x, Op.store (PmAddr.next 0 y) (PmWord.link (some x)) ∉ p

def NoLink (p : List PmOp) : Prop :=
  ∀ i y x, Op.store (PmAddr.next i y) (PmWord.link (some x)) ∉ p

/-- Some crash leaves a node in the level-0 chain whose `key_` was never written. -/
def Exposed (head : ℕ) (p : List PmOp) : Prop :=
  ∃ img y l, CrashImage p img ∧ y ≠ head ∧ Chain (durableNext img 0) head l ∧ y ∈ l ∧
    img (.key y) = none

def Settles (head : ℕ) (p : List PmOp) : Prop := NoLink p ∨ (¬BaseUnlinked p ∧ Exposed head p)

variable {head x y : ℕ} {p : List PmOp} {img : PmAddr → Option PmWord} {keys : List Key}

theorem NoLink.contentsDurable (hp : NoLink p) (hi : CrashImage p img) :
    ContentsDurable img head keys := by
  intro y hy hr
  have hstuck : ∀ z, DurablyReachable img head z → z = head := by
    intro z hz
    induction hz with
    | refl => rfl
    | @tail a b _ hstep ih =>
      obtain ⟨i, hb⟩ := hstep
      have hword : img (.next i a) = some (.link (some b)) := by
        rw [durableNext] at hb
        split at hb
        · rename_i q hq
          rw [hq, Option.some.inj hb]
        · cases hb
      exact absurd (hi.store_mem hword) (hp i a b)
  exact absurd (hstuck y hr) hy

theorem Exposed.not_contentsDurable (hp : Exposed head p) (keys : List Key) :
    ∃ img, CrashImage p img ∧ ¬ContentsDurable img head keys := by
  obtain ⟨img, y, l, hi, hy, hc, hmem, hkey⟩ := hp
  refine ⟨img, hi, ?_⟩
  intro h
  have hreach : DurablyReachable img head y :=
    (hc.reaches hmem).lift id fun _ _ hstep => ⟨0, hstep⟩
  rw [(h y hy hreach).1] at hkey
  cases hkey

/-- At both kinds of crash points the contents are safe exactly when nothing is linked yet. -/
theorem Settles.safe_iff (hp : Settles head p) (keys : List Key) :
    (∀ img, CrashImage p img → ContentsDurable img head keys) ↔ BaseUnlinked p := by
  rcases hp with hp | ⟨hlinked, hexposed⟩
  · exact ⟨fun _ => hp 0, fun _ img hi => hp.contentsDurable hi⟩
  · obtain ⟨img, hi, hbad⟩ := hexposed.not_contentsDurable keys
    exact ⟨fun h => absurd (h img hi) hbad, fun h => absurd h hlinked⟩

variable {m m' m₀ : Arena Key} {ops base os : List PmOp} {A B L : List ℕ} {i k n N : ℕ} {q : Ptr}

/-- A linked node of the base list `L` whose `key_` is not durable. -/
structure Lost (head y : ℕ) (L : List ℕ) (ops : List PmOp) : Prop where
  mem : y ∈ L
  ne_head : y ≠ head
  lost : (cell (.key y) ops).durable = none
  linked : ¬BaseUnlinked ops

theorem not_baseUnlinked_append (h : ¬BaseUnlinked ops) : ¬BaseUnlinked (ops ++ os) :=
  fun hall => h fun y x hm => hall y x (List.mem_append_left _ hm)

theorem Lost.append (h : Lost head y L ops) (hp : ∀ r, .persist r ∈ os → .key y ∉ r) :
    Lost head y L (ops ++ os) where
  mem := h.mem
  ne_head := h.ne_head
  lost := (durable_append hp).trans h.lost
  linked := not_baseUnlinked_append h.linked

/-- While nothing but stores follow the settled links of `m`, a lost node stays exposed: the crash
may drop all of these stores. -/
theorem Lost.settles (h : Lost head y L (ops ++ os)) (hset : Settled linkAddr ops (linkWords m))
    (hc : Chain (m.next 0) head L) (hos : ∀ r, .persist r ∉ os) : Settles head (ops ++ os) := by
  refine Or.inr ⟨h.linked, durableImage (ops ++ os), y, L, durableImage_crashImage _, h.ne_head, ?_,
    h.mem, h.lost⟩
  have himg : durableImage (ops ++ os) = durableImage ops := by
    funext a
    exact durable_append fun r hr => absurd hr (hos r)
  rw [himg, durableNext_eq (hset.image (durableImage_crashImage ops))]
  exact hc

theorem Lost.settles_now (h : Lost head y L ops) (hset : Settled linkAddr ops (linkWords m))
    (hc : Chain (m.next 0) head L) : Settles head ops := by
  have h' : Lost head y L (ops ++ []) := by rwa [List.append_nil]
  have hsettles := h'.settles hset hc (by simp)
  rwa [List.append_nil] at hsettles

/-- The store that links a node exposes it at once: it may reach the medium on its own. -/
theorem exposed_of_link (hset : Settled linkAddr ops (linkWords m))
    (hm : m.setNext x i q = some m') (hc : Chain (m'.next 0) head L) (hy : y ∈ L)
    (hne : y ≠ head) (hlost : (cell (.key y) ops).durable = none) :
    Exposed head (ops ++ [.store (linkAddr (i, x)) (.link q)]) := by
  refine ⟨Function.update (durableImage ops) (linkAddr (i, x)) (some (.link q)), y, L, ?_, hne, ?_,
    hy, ?_⟩
  · intro a
    by_cases ha : a = linkAddr (i, x)
    · subst a
      exact Or.inr ⟨_, by simp, Function.update_self _ _ _⟩
    · rw [Function.update_of_ne ha]
      exact Or.inl (durable_append (by simp)).symm
  · have hlinks : (fun k => Function.update (durableImage ops) (linkAddr (i, x))
        (some (.link q)) (linkAddr k)) = linkWords m' := by
      rw [linkWords_setNext hm, ← hset.image (durableImage_crashImage ops)]
      funext k
      by_cases hk : k = (i, x)
      · subst k
        simp
      · rw [Function.update_of_ne hk, Function.update_of_ne (linkAddr_injective.ne hk)]
    rw [durableNext_eq hlinks]
    exact hc
  · rw [Function.update_of_ne (by simp)]
    exact hlost

/-- The linking loop between two rounds, seen from the crash points since `base`. Until the first
round ends the list is empty and unlinked, or has a lost node of its own; from then on the new node
is lost. -/
structure Stage (base : List PmOp) (head x : ℕ) (A B : List ℕ) (k : ℕ) (m : Arena Key)
    (ops : List PmOp) : Prop where
  settled : Settled linkAddr ops (linkWords m)
  unpersisted : ∀ y, x ≤ y → (cell (.key y) ops).durable = none
  settles : Throughout base ops (Settles head)
  before : k = 0 → (A ++ B = [] ∧ NoLink ops) ∨ ∃ y, Lost head y (A ++ B) ops
  after : 0 < k → ¬BaseUnlinked ops

theorem Stage.lost (h : Stage base head x A B k m ops) (hk : 0 < k) (hx : x ≠ head) :
    Lost head x (A ++ x :: B) ops :=
  ⟨by simp, hx, h.unpersisted x le_rfl, h.after hk⟩

theorem round_persists {k p : ℕ} {succ : Ptr} (hp : p < x) (hy : x ≤ y) :
    ∀ r, .persist r ∈ setNextOps x k succ ++ setNextOps p k (some x) ++ persistNodeOps p →
      PmAddr.key y ∉ r := by
  intro r hr
  simp only [setNextOps, persistNodeOps, List.cons_append, List.nil_append, List.mem_cons,
    reduceCtorEq, Op.persist.injEq, List.not_mem_nil, or_false, false_or] at hr
  rcases hr with rfl | rfl | rfl
  · simp
  · simp
  · simp only [List.mem_singleton, PmAddr.key.injEq]
    omega

theorem Lost.throughout_setNext {L' : List ℕ} (h : Lost head y L ops)
    (hset : Settled linkAddr ops (linkWords m)) (hc : Chain (m.next 0) head L)
    (hm : m.setNext x i q = some m') (hc' : Chain (m'.next 0) head L') (hy : y ∈ L')
    (hall : Throughout base ops (Settles head)) :
    Throughout base (ops ++ setNextOps x i q) (Settles head) ∧
      Settled linkAddr (ops ++ setNextOps x i q) (linkWords m') := by
  have hstore : Lost head y L (ops ++ [.store (linkAddr (i, x)) (.link q)]) := h.append (by simp)
  have hsettled : Settled linkAddr (ops ++ [.store (linkAddr (i, x)) (.link q)] ++
      [.persist [linkAddr (i, x)]]) (linkWords m') := by
    rw [linkWords_setNext hm]
    exact hset.store_persist linkAddr_injective
  have hend : Lost head y L (ops ++ [.store (linkAddr (i, x)) (.link q)] ++
      [.persist [linkAddr (i, x)]]) := hstore.append (by simp)
  have hend' : Lost head y L' (ops ++ [.store (linkAddr (i, x)) (.link q)] ++
      [.persist [linkAddr (i, x)]]) := ⟨hy, hend.ne_head, hend.lost, hend.linked⟩
  have hall₁ := hall.concat (hstore.settles hset hc (by simp))
  have hall₂ := hall₁.concat (hend'.settles_now hsettled hc')
  rw [List.append_assoc] at hall₂ hsettled
  exact ⟨hall₂, hsettled⟩

theorem Lost.throughout_append (h : Lost head y L ops) (hp : ∀ r, .persist r ∈ os → .key y ∉ r)
    (ho : ∀ o ∈ os, ∀ k, o.Avoids (linkAddr k)) (hset : Settled linkAddr ops (linkWords m))
    (hc : Chain (m.next 0) head L) (hall : Throughout base ops (Settles head)) :
    Throughout base (ops ++ os) (Settles head) ∧ Settled linkAddr (ops ++ os) (linkWords m) := by
  refine ⟨hall.append ?_, hset.of_avoids ho⟩
  intro q hq
  have hlost : Lost head y L (ops ++ q) := h.append fun r hr => hp r (hq.subset hr)
  exact hlost.settles_now (hset.of_avoids fun o hm => ho o (hq.subset hm)) hc

theorem persistNodeOps_persists {p : ℕ} (hp : p < x) :
    ∀ r, .persist r ∈ persistNodeOps p → PmAddr.key x ∉ r := by
  intro r hr
  obtain rfl : r = [.key p] := by simpa [persistNodeOps] using hr
  simp only [List.mem_singleton, PmAddr.key.injEq]
  omega

variable {m₁ m₂ : Arena Key} {p : ℕ} {succ : Ptr}

theorem NoLink.append (h : NoLink ops) (h' : NoLink os) : NoLink (ops ++ os) := by
  intro i y z hm
  rcases List.mem_append.mp hm with hm | hm
  · exact h i y z hm
  · exact h' i y z hm

theorem setNextOps_noLink (x i : ℕ) {q : List PmOp} (hq : q <+: setNextOps x i none) :
    NoLink q := by
  intro j y z hm
  simpa [setNextOps] using hq.subset hm

theorem Stage.own_slot (h : Stage base head x A B 0 m ops)
    (hr : Round m₀ m m₁ m₂ head x A B N 0 p succ) (hc : Chain (m.next 0) head (A ++ B))
    (hc₁ : Chain (m₁.next 0) head (A ++ B)) :
    Throughout base (ops ++ setNextOps x 0 succ) (Settles head) ∧
      Settled linkAddr (ops ++ setNextOps x 0 succ) (linkWords m₁) := by
  rcases h.before rfl with ⟨hnil, hno⟩ | ⟨y, hy⟩
  · have hsucc : succ = none := by
      have hA : A = [] := (List.append_eq_nil_iff.mp hnil).1
      have hhead : p = head := by simpa [hA] using hr.pred
      have hnext := hc.next_eq
      rw [hnil, ← hhead, hr.succ_eq] at hnext
      exact Option.some.inj hnext
    subst succ
    have hset := h.settled.store_persist (k := (0, x)) (v := .link none) linkAddr_injective
    rw [← linkWords_setNext hr.own, List.append_assoc] at hset
    exact ⟨h.settles.append fun q hq => Or.inl (hno.append (setNextOps_noLink x 0 hq)), hset⟩
  · exact hy.throughout_setNext h.settled hc hr.own hc₁ hy.mem h.settles

/-- The second half stores the link to the new node, which exposes it from the store on. -/
theorem throughout_link (hall : Throughout base ops (Settles head))
    (hset : Settled linkAddr ops (linkWords m)) (hm : m.setNext p 0 (some x) = some m')
    (hc : Chain (m'.next 0) head L) (hx : x ∈ L) (hne : x ≠ head)
    (hlost : (cell (.key x) ops).durable = none) :
    Throughout base (ops ++ setNextOps p 0 (some x)) (Settles head) ∧
      Settled linkAddr (ops ++ setNextOps p 0 (some x)) (linkWords m') ∧
      Lost head x L (ops ++ setNextOps p 0 (some x)) := by
  have hlinked : ¬BaseUnlinked (ops ++ [.store (linkAddr (0, p)) (.link (some x))]) :=
    fun hall => hall p x (by simp)
  have hall₁ := hall.concat (Or.inr ⟨hlinked, exposed_of_link hset hm hc hx hne hlost⟩)
  have hset' := hset.store_persist (k := (0, p)) (v := .link (some x)) linkAddr_injective
  rw [← linkWords_setNext hm] at hset'
  have hx' : Lost head x L (ops ++ [.store (linkAddr (0, p)) (.link (some x))] ++
      [.persist [linkAddr (0, p)]]) :=
    ⟨hx, hne, (durable_append (by simp)).trans ((durable_append (by simp)).trans hlost),
      not_baseUnlinked_append hlinked⟩
  have hall₂ := hall₁.concat (hx'.settles_now hset' hc)
  rw [List.append_assoc] at hall₂ hset' hx'
  exact ⟨hall₂, hset', hx'⟩

theorem Stage.round_zero (h : Stage base head x A B 0 m ops)
    (hr : Round m₀ m m₁ m₂ head x A B N 0 p succ) (hN : 0 < N) (hx : x ≠ head) (hp : p < x)
    (hpos : ∀ y ∈ A ++ x :: B, 0 < m₀.height y) :
    Stage base head x A B 1 m₂
      (ops ++ (setNextOps x 0 succ ++ setNextOps p 0 (some x) ++ persistNodeOps p)) := by
  have hc : Chain (m.next 0) head (A ++ B) := by simpa using hr.before.base hN hpos
  have hc₁ : Chain (m₁.next 0) head (A ++ B) := by simpa using hr.between.base hN hpos
  have hc₂ : Chain (m₂.next 0) head (A ++ x :: B) := by simpa using hr.after.base hN hpos
  obtain ⟨hall₁, hset₁⟩ := h.own_slot hr hc hc₁
  have hlost₁ : (cell (.key x) (ops ++ setNextOps x 0 succ)).durable = none :=
    (durable_append (by simp [setNextOps])).trans (h.unpersisted x le_rfl)
  obtain ⟨hall₂, hset₂, hx₂⟩ :=
    throughout_link hall₁ hset₁ hr.link hc₂ (by simp) hx hlost₁
  obtain ⟨hall₃, hset₃⟩ := hx₂.throughout_append (persistNodeOps_persists hp)
    (persistNodeOps_avoids p) hset₂ hc₂ hall₂
  have hx₃ := hx₂.append (persistNodeOps_persists hp)
  rw [List.append_assoc, List.append_assoc, ← List.append_assoc (setNextOps x 0 succ)]
    at hall₃ hset₃ hx₃
  refine ⟨hset₃, ?_, hall₃, fun hk => absurd hk Nat.one_ne_zero, fun _ => hx₃.linked⟩
  intro y hy
  exact (durable_append (round_persists hp hy)).trans (h.unpersisted y hy)

theorem Stage.round_succ (h : Stage base head x A B k m ops) (hk : 0 < k)
    (hr : Round m₀ m m₁ m₂ head x A B N k p succ) (hN : 0 < N) (hx : x ≠ head) (hp : p < x)
    (hpos : ∀ y ∈ A ++ x :: B, 0 < m₀.height y) :
    Stage base head x A B (k + 1) m₂
      (ops ++ (setNextOps x k succ ++ setNextOps p k (some x) ++ persistNodeOps p)) := by
  have hc := hr.before.base hN hpos
  have hc₁ := hr.between.base hN hpos
  have hc₂ := hr.after.base hN hpos
  rw [if_neg (by omega)] at hc hc₁ hc₂
  have hlost := h.lost hk hx
  obtain ⟨hall₁, hset₁⟩ :=
    hlost.throughout_setNext h.settled hc hr.own hc₁ hlost.mem h.settles
  have hlost₁ : Lost head x (A ++ x :: B) (ops ++ setNextOps x k succ) :=
    hlost.append (by simp [setNextOps])
  obtain ⟨hall₂, hset₂⟩ := hlost₁.throughout_setNext hset₁ hc₁ hr.link hc₂ hlost.mem hall₁
  have hlost₂ : Lost head x (A ++ x :: B) (ops ++ setNextOps x k succ ++ setNextOps p k (some x)) :=
    hlost₁.append (by simp [setNextOps])
  obtain ⟨hall₃, hset₃⟩ := hlost₂.throughout_append (persistNodeOps_persists hp)
    (persistNodeOps_avoids p) hset₂ hc₂ hall₂
  rw [List.append_assoc, List.append_assoc, ← List.append_assoc (setNextOps x k succ)]
    at hall₃ hset₃
  refine ⟨hset₃, ?_, hall₃, fun hk => absurd hk (Nat.succ_ne_zero k), ?_⟩
  · intro y hy
    exact (durable_append (round_persists hp hy)).trans (h.unpersisted y hy)
  · intro _
    exact not_baseUnlinked_append (h.after hk)

variable {s s' : PersistentSkipList} {c : Call} {calls : List Call}

/-- The list between two calls, after `n` of them: the newest node is lost. -/
structure Forgetful (s : PersistentSkipList) (n : ℕ) (A B : List ℕ) : Prop
    extends Durable s n A B where
  unpersisted : ∀ y, s.nodes.length ≤ y → (cell (.key y) s.ops).durable = none
  newest : (A ++ B = [] ∧ NoLink s.ops) ∨ ∃ y, Lost s.head y (A ++ B) s.ops

theorem newNodeOps_persists (x y : ℕ) (key : Key) :
    ∀ r, .persist r ∈ newNodeOps x key → PmAddr.key y ∉ r := by
  intro r hr
  simp only [newNodeOps, List.mem_append, List.mem_map, reduceCtorEq, and_false, exists_false,
    List.mem_cons, Op.persist.injEq, List.not_mem_nil, or_false, false_or] at hr
  rw [hr]
  simp

theorem noLink_of_avoids (ho : ∀ o ∈ os, ∀ k, o.Avoids (linkAddr k)) : NoLink os :=
  fun i y _ hm => ho _ hm (i, y) rfl

theorem Forgetful.stage (hf : Forgetful s n A B) (key : Key) (height : ℕ) {A' B' : List ℕ}
    (hsame : A ++ B = A' ++ B') :
    Stage s.ops s.head s.nodes.length A' B' 0 (s.nodes.alloc key height)
      (s.ops ++ newNodeOps s.nodes.length key) := by
  have hwords : linkWords (s.nodes.alloc key height) = linkWords s.nodes := by
    funext k
    rw [linkWords, Arena.next_alloc, linkWords]
  have havoids := newNodeOps_avoids s.nodes.length key
  have hpersists := fun y => newNodeOps_persists s.nodes.length y key
  refine ⟨?_, ?_, ?_, ?_, fun h => absurd h (lt_irrefl 0)⟩
  · rw [hwords]
    exact hf.settled.of_avoids havoids
  · intro y hy
    exact (durable_append (hpersists y)).trans (hf.unpersisted y hy)
  · rcases hf.newest with ⟨-, hno⟩ | ⟨y, hy⟩
    · exact (Throughout.refl (Or.inl hno)).append fun q hq =>
        Or.inl (hno.append (noLink_of_avoids fun o hm => havoids o (hq.subset hm)))
    · have hnow := Throughout.refl (hy.settles_now hf.settled hf.located.base)
      exact (hy.throughout_append (hpersists y) havoids hf.settled hf.located.base hnow).1
  · intro _
    rw [← hsame]
    apply hf.newest.imp (fun h => ⟨h.1, h.2.append (noLink_of_avoids havoids)⟩)
    rintro ⟨y, hy⟩
    exact ⟨y, hy.append (hpersists y)⟩

theorem Forgetful.insert (hf : Forgetful s n A B) (hpos : 1 ≤ c.height)
    (hle : c.height ≤ s.kMaxHeight) (he : s.insert c = .ok s') :
    s'.head = s.head ∧ s'.kMaxHeight = s.kMaxHeight ∧
      Throughout s.ops s'.ops (Settles s.head) ∧ ∃ A' B', Forgetful s' (n + 1) A' B' := by
  obtain ⟨A', B', hsame, hlink, hd, -⟩ := hf.toDurable.insert hpos hle he
  have halloc : ∀ y ∈ s.head :: (A' ++ B'), y < s.nodes.length := hsame ▸ hf.located.allocated
  have hN : 0 < s.kMaxHeight := lt_of_lt_of_le hpos hle
  have hx : s.nodes.length ≠ s.head := Nat.ne_of_gt (halloc s.head (by simp))
  have htall : ∀ y ∈ A' ++ s.nodes.length :: B',
      0 < (s.nodes.alloc c.key c.height).height y := fun y hy => by
    rw [← hlink.heights]
    exact (hd.located.heights y (by simpa using hy)).1
  have hself : (s.nodes.alloc c.key c.height).height s.nodes.length = c.height :=
    Arena.alloc_height_self _ _ _
  have hstage := hlink.rounds (Stage s.ops s.head s.nodes.length A' B')
    (fun k m ops p succ m₁ m₂ _ hr h => by
      have hp : p < s.nodes.length := halloc p (by
        rcases List.mem_cons.mp hr.pred with rfl | hp
        · simp
        · simp [hp])
      rcases Nat.eq_zero_or_pos k with rfl | hk
      · exact h.round_zero hr hN hx hp htall
      · exact h.round_succ hk hr hN hx hp htall)
    (hf.stage c.key c.height hsame)
  rw [hself] at hstage
  refine ⟨hlink.head, hlink.sameConfig.kMaxHeight, ?_, A' ++ [s.nodes.length], B', hd,
    ?_, Or.inr ⟨s.nodes.length, ?_⟩⟩
  · intro p hb hp
    exact hstage.settles p hb hp
  · intro y hy
    rw [hlink.length] at hy
    exact hstage.unpersisted y (by omega)
  · rw [hlink.head, List.append_assoc]
    exact hstage.lost hpos hx

theorem new_forgetful {maxHeight : ℕ} (keySize optNum per1gNum : ℕ) (h : 0 < maxHeight % 2 ^ 16) :
    Forgetful (new maxHeight keySize optNum per1gNum) 0 [] [] where
  toDurable := new_durable keySize optNum per1gNum h
  unpersisted y _ := by
    have hslots : ∀ r, .persist r ∈ (List.range (maxHeight % 2 ^ 16)).flatMap
        (fun i => setNextOps 0 i none) → PmAddr.key y ∉ r := fun r hr => by
      obtain ⟨i, -, hr⟩ := List.mem_flatMap.mp hr
      obtain rfl : r = [.next i 0] := by simpa [setNextOps] using hr
      simp
    have hhead : ∀ r, .persist r ∈ newNodeOps 0 [32] → PmAddr.key y ∉ r :=
      newNodeOps_persists 0 y [32]
    calc (cell (.key y) (new maxHeight keySize optNum per1gNum).ops).durable
        = (cell (PmAddr.key y) (([] : List PmOp) ++ newNodeOps 0 [32])).durable :=
          durable_append hslots
      _ = (cell (PmAddr.key y) ([] : List PmOp)).durable := durable_append hhead
      _ = none := rfl
  newest := by
    refine Or.inl ⟨rfl, NoLink.append (noLink_of_avoids (newNodeOps_avoids 0 [32])) ?_⟩
    intro i y z hm
    obtain ⟨j, -, hm⟩ := List.mem_flatMap.mp hm
    exact setNextOps_noLink 0 j (List.prefix_refl _) i y z hm

theorem Forgetful.insertAll (hf : Forgetful s n A B)
    (hheights : ∀ c ∈ calls, 1 ≤ c.height ∧ c.height ≤ s.kMaxHeight)
    (he : s.insertAll calls = .ok s') :
    s'.kMaxHeight = s.kMaxHeight ∧ ∃ A' B', Forgetful s' (n + calls.length) A' B' := by
  induction calls generalizing s n A B with
  | nil =>
    cases he
    exact ⟨rfl, A, B, hf⟩
  | cons c calls ih =>
    rw [PersistentSkipList.insertAll, List.foldlM_cons] at he
    obtain ⟨t, ht, he⟩ := bind_eq_ok.mp he
    obtain ⟨hpos, hle⟩ := hheights c (by simp)
    obtain ⟨-, hkt, -, A', B', hf'⟩ := hf.insert hpos hle ht
    have hrest : ∀ c' ∈ calls, 1 ≤ c'.height ∧ c'.height ≤ t.kMaxHeight := by
      rw [hkt]
      exact fun c' hc' => hheights c' (List.mem_cons_of_mem _ hc')
    obtain ⟨hk, A'', B'', hf''⟩ := ih hf' hrest he
    refine ⟨hk.trans hkt, A'', B'', ?_⟩
    rwa [List.length_cons, Nat.add_comm calls.length 1, ← Nat.add_assoc]

/-- The contents survive every crash at `p` if and only if no link to a node has been stored on
level 0 before `p`. -/
theorem contentsDurable_iff (maxHeight keySize optNum per1gNum : ℕ) (calls : List Call) (c : Call)
    (hheights : ∀ c' ∈ c :: calls,
      1 ≤ c'.height ∧ c'.height ≤ (new maxHeight keySize optNum per1gNum).kMaxHeight)
    (s : PersistentSkipList)
    (hs : (new maxHeight keySize optNum per1gNum).insertAll calls = .ok s) (p : List PmOp)
    (hp : CrashPoint s c p) :
    (∀ img, CrashImage p img → ContentsDurable img s.head ((calls ++ [c]).map Call.key)) ↔
      BaseUnlinked p := by
  obtain ⟨hpos, hle⟩ := hheights c (by simp)
  have hK : 0 < maxHeight % 2 ^ 16 := lt_of_lt_of_le hpos hle
  obtain ⟨hk, A, B, hf⟩ := (new_forgetful keySize optNum per1gNum hK).insertAll
    (fun c' hc' => hheights c' (List.mem_cons_of_mem _ hc')) hs
  refine Settles.safe_iff ?_ _
  rcases hp with rfl | ⟨s', he, hb, hp⟩
  · rcases hf.newest with ⟨-, hno⟩ | ⟨y, hy⟩
    · exact Or.inl hno
    · exact hy.settles_now hf.settled hf.located.base
  · exact (hf.insert hpos (hk ▸ hle) he).2.2.1 p hb hp

/-- A crash inside the second `Insert`, when the node of the first one is linked and the new node's
own slot has just been stored. -/
theorem contentsDurable_iff_second : ∃ s t p,
    (new 1 1 0 1).insertAll [⟨⟨1, fun _ => []⟩, [97]⟩] = .ok s ∧
    s.insert ⟨⟨1, fun _ => []⟩, [98]⟩ = .ok t ∧ p <+: t.ops ∧ s.ops.length < p.length ∧
    p.length < t.ops.length ∧
    ((∀ img, CrashImage p img → ContentsDurable img s.head [[97], [98]]) ↔ BaseUnlinked p) ∧
    ¬BaseUnlinked p := by
  obtain ⟨s, hs⟩ : ∃ s, (new 1 1 0 1).insertAll [⟨⟨1, fun _ => []⟩, [97]⟩] = .ok s := ⟨_, rfl⟩
  obtain ⟨t, ht⟩ : ∃ t, s.insert ⟨⟨1, fun _ => []⟩, [98]⟩ = .ok t := by
    cases hs
    exact ⟨_, rfl⟩
  have hprefix : t.ops.take (s.ops.length + 4) <+: t.ops := List.take_prefix _ _
  refine ⟨s, t, t.ops.take (s.ops.length + 4), hs, ht, hprefix, ?_, ?_, ?_, ?_⟩
  · cases hs
    cases ht
    decide
  · cases hs
    cases ht
    decide
  · refine contentsDurable_iff 1 1 0 1 [⟨⟨1, fun _ => []⟩, [97]⟩] ⟨⟨1, fun _ => []⟩, [98]⟩
      (by simp [new]) s hs _ (Or.inr ⟨t, ht, ?_, hprefix⟩)
    cases hs
    cases ht
    exact ⟨_, rfl⟩
  · cases hs
    cases ht
    intro h
    refine h 0 1 ?_
    repeat constructor

/-- After the first `Insert` has returned, a crash can leave its node linked without a `key_`. -/
theorem contentsDurable_fails :
    ∃ s, (new 1 1 0 1).insertAll [⟨⟨1, fun _ => []⟩, [97]⟩] = .ok s ∧
      ∃ img, CrashImage s.ops img ∧ ¬ContentsDurable img s.head [[97]] := by
  refine ⟨_, rfl, durableImage _, durableImage_crashImage _, ?_⟩
  intro h
  have hkey := (h 1 (by decide) (.single ⟨0, rfl⟩)).1
  cases hkey

end PersistTree.PersistentSkipList
