import Mathlib.Data.List.Basic
import Mathlib.Tactic

/-!
# Executable labelled transition systems

A system is a partial step function: `step s a` is the state after action `a`, or `none` when
the action is not enabled in `s`. A schedule is a list of actions, so every interleaving of
several parties is one schedule. Invariants are carried along schedules by the two induction
rules below; the second one only asks for preservation by steps that meet a guard.
-/
namespace PersistTree.Transition

variable {σ α : Type*} (step : σ → α → Option σ)

/-- The state a schedule ends in, or `none` if one of its actions was not enabled. -/
def run : σ → List α → Option σ
  | s, [] => some s
  | s, a :: as => (step s a).bind fun t => run t as

theorem run_append (s : σ) (as bs : List α) :
    run step s (as ++ bs) = (run step s as).bind fun t => run step t bs := by
  induction as generalizing s with
  | nil => rfl
  | cons a as ih =>
    simp only [List.cons_append, run, Option.bind_assoc]
    exact congrArg _ (funext ih)

theorem run_concat {s t : σ} {as : List α} {a : α} :
    run step s (as ++ [a]) = some t ↔ ∃ u, run step s as = some u ∧ step u a = some t := by
  simp [run_append, Option.bind_eq_some_iff, run]

theorem run_prefix {s t : σ} {as bs : List α} (hb : bs <+: as) (h : run step s as = some t) :
    ∃ u, run step s bs = some u := by
  obtain ⟨cs, rfl⟩ := hb
  rw [run_append] at h
  obtain ⟨u, hu, -⟩ := Option.bind_eq_some_iff.mp h
  exact ⟨u, hu⟩

/-- `s` is the end of some schedule from `init`. -/
def Reachable (init s : σ) : Prop := ∃ as, run step init as = some s

/-- Every state visited by the schedule, the first and the last included, satisfies `P`. -/
def Along (init : σ) (as : List α) (P : σ → Prop) : Prop :=
  ∀ bs, bs <+: as → ∀ s, run step init bs = some s → P s

/-- Every action of the schedule is taken in a state in which `ok` allows it. -/
def Guarded (init : σ) (as : List α) (ok : σ → α → Prop) : Prop :=
  ∀ bs a, bs ++ [a] <+: as → ∀ s, run step init bs = some s → ok s a

/-- The decision procedure for `Guarded`. -/
def check (ok : σ → α → Prop) [∀ s a, Decidable (ok s a)] : σ → List α → Bool
  | _, [] => true
  | s, a :: as => decide (ok s a) && (step s a).all fun t => check ok t as

variable {step} {init : σ}

theorem Guarded.cons {as : List α} {a : α} {ok : σ → α → Prop} (ha : ok init a)
    (h : ∀ t, step init a = some t → Guarded step t as ok) : Guarded step init (a :: as) ok := by
  intro bs b hb s hr
  cases bs with
  | nil =>
    cases hr
    rw [List.nil_append, List.cons_prefix_cons] at hb
    rw [hb.1]
    exact ha
  | cons c bs =>
    rw [List.cons_append, List.cons_prefix_cons] at hb
    obtain ⟨rfl, hb⟩ := hb
    obtain ⟨t, ht, hr⟩ := Option.bind_eq_some_iff.mp hr
    exact h t ht bs b hb s hr

theorem Guarded.of_check {as : List α} {ok : σ → α → Prop} [∀ s a, Decidable (ok s a)]
    (h : check step ok init as) : Guarded step init as ok := by
  induction as generalizing init with
  | nil => exact fun bs a hb => absurd (List.prefix_nil.mp hb) (by simp)
  | cons a as ih =>
    rw [check, Bool.and_eq_true, Option.all_eq_true] at h
    exact .cons (of_decide_eq_true h.1) fun t ht => ih (h.2 t ht)

theorem Guarded.of_forall {as : List α} {ok : α → Prop} (h : ∀ a ∈ as, ok a) :
    Guarded step init as fun _ a => ok a :=
  fun _ a hb _ _ => h a (hb.subset (by simp))

theorem Guarded.of_prefix {as bs : List α} {ok : σ → α → Prop}
    (h : Guarded step init as ok) (hb : bs <+: as) : Guarded step init bs ok :=
  fun cs a hc => h cs a (hc.trans hb)

theorem Guarded.and {as : List α} {ok ok' : σ → α → Prop} (h : Guarded step init as ok)
    (h' : Guarded step init as ok') : Guarded step init as fun s a => ok s a ∧ ok' s a :=
  fun bs a hb s hr => ⟨h bs a hb s hr, h' bs a hb s hr⟩

theorem Guarded.of_append {as bs : List α} {ok : σ → α → Prop} {s : σ}
    (h : Guarded step init (as ++ bs) ok) (hs : run step init as = some s) :
    Guarded step s bs ok := by
  intro cs a hc t ht
  refine h (as ++ cs) a ?_ t ?_
  · rw [List.append_assoc]
    exact (List.prefix_append_right_inj as).mpr hc
  · rw [run_append, hs]
    exact ht

/-- What holds of the empty schedule and is kept by every further guarded step holds of every
guarded schedule and the state it leads to. -/
theorem Guarded.induction {ok : σ → α → Prop} {P : List α → σ → Prop} (h0 : P [] init)
    (hstep : ∀ as s a t, P as s → ok s a → step s a = some t → P (as ++ [a]) t) {as : List α}
    (hg : Guarded step init as ok) {s : σ} (hr : run step init as = some s) : P as s := by
  induction as using List.reverseRecOn generalizing s with
  | nil =>
    cases hr
    exact h0
  | append_singleton as a ih =>
    obtain ⟨u, hu, hs⟩ := (run_concat step).mp hr
    have hok : ok u a := hg as a (List.prefix_refl _) u hu
    exact hstep as u a s (ih (hg.of_prefix (List.prefix_append as [a])) hu) hok hs

/-- What holds initially and is preserved by the guarded steps holds at the end of every
guarded schedule. -/
theorem Guarded.invariant {ok : σ → α → Prop} {I : σ → Prop} (h0 : I init)
    (hstep : ∀ s a t, I s → ok s a → step s a = some t → I t) {as : List α}
    (hg : Guarded step init as ok) {s : σ} (hr : run step init as = some s) : I s :=
  hg.induction h0 (fun _ s a t => hstep s a t) hr

theorem Guarded.along {ok : σ → α → Prop} {I : σ → Prop} (h0 : I init)
    (hstep : ∀ s a t, I s → ok s a → step s a = some t → I t) {as : List α}
    (hg : Guarded step init as ok) : Along step init as I :=
  fun _ hb _ hr => (hg.of_prefix hb).invariant h0 hstep hr

theorem run_induction {P : List α → σ → Prop} (h0 : P [] init)
    (hstep : ∀ as s a t, P as s → step s a = some t → P (as ++ [a]) t) {as : List α} {s : σ}
    (hr : run step init as = some s) : P as s := by
  have hg : Guarded step init as fun _ _ => True := fun _ _ _ _ _ => trivial
  exact hg.induction h0 (fun as s a t h _ => hstep as s a t h) hr

/-- What holds initially and is preserved by every step holds of every reachable state. -/
theorem Reachable.invariant {I : σ → Prop} (h0 : I init)
    (hstep : ∀ s a t, I s → step s a = some t → I t) {s : σ}
    (hr : Reachable step init s) : I s := by
  obtain ⟨as, hr⟩ := hr
  have hg : Guarded step init as (fun _ _ => True) := fun _ _ _ _ _ => trivial
  exact hg.invariant h0 (fun s a t hI _ => hstep s a t hI) hr

theorem Reachable.of_run {as : List α} {s : σ} (h : run step init as = some s) :
    Reachable step init s := ⟨as, h⟩

theorem Reachable.concat {s t : σ} {a : α} (h : Reachable step init s) (ha : step s a = some t) :
    Reachable step init t := by
  obtain ⟨as, hs⟩ := h
  exact ⟨as ++ [a], (run_concat step).mpr ⟨s, hs, ha⟩⟩

theorem Along.mono {as : List α} {P Q : σ → Prop} (h : Along step init as P)
    (hPQ : ∀ s, P s → Q s) : Along step init as Q :=
  fun bs hb s hr => hPQ s (h bs hb s hr)

section Measure

variable {μ : σ → ℕ} {I : σ → Prop} {ok : σ → α → Prop}

/-- A schedule whose steps all decrease a measure is no longer than the measure allows. -/
theorem Guarded.length_le (hI : ∀ s a t, I s → ok s a → step s a = some t → I t)
    (hμ : ∀ s a t, I s → ok s a → step s a = some t → μ t < μ s) (h0 : I init) {as : List α}
    (hg : Guarded step init as ok) {s : σ} (hr : run step init as = some s) :
    as.length + μ s ≤ μ init := by
  induction as using List.reverseRecOn generalizing s with
  | nil =>
    cases hr
    simp
  | append_singleton as a ih =>
    obtain ⟨u, hu, hs⟩ := (run_concat step).mp hr
    have hpre := hg.of_prefix (List.prefix_append as [a])
    have hlt := hμ u a s (hpre.invariant h0 hI hu) (hg as a (List.prefix_refl _) u hu) hs
    have hle := ih hpre hu
    rw [List.length_append, List.length_singleton]
    omega

end Measure

section Confinement

variable {room : σ → Bool}

/-- The system that ends where there is no room any more. -/
def confined (step : σ → α → Option σ) (room : σ → Bool) (s : σ) (a : α) : Option σ :=
  if room s then step s a else none

theorem confined_eq_some {s t : σ} {a : α} (h : confined step room s a = some t) :
    room s = true ∧ step s a = some t := Option.ite_none_right_eq_some.mp h

theorem confined_of_room {s : σ} (h : room s = true) (a : α) : confined step room s a = step s a :=
  if_pos h

theorem run_of_confined {as : List α} {s t : σ} (h : run (confined step room) s as = some t) :
    run step s as = some t := by
  induction as generalizing s with
  | nil => exact h
  | cons a as ih =>
    obtain ⟨u, hu, h⟩ := Option.bind_eq_some_iff.mp h
    exact Option.bind_eq_some_iff.mpr ⟨u, (confined_eq_some hu).2, ih h⟩

/-- A guard on the confined system guards the same schedule of the other. -/
theorem Guarded.of_confined {as : List α} {t : σ} {ok : σ → α → Prop}
    (hr : run (confined step room) init as = some t)
    (hg : Guarded (confined step room) init as ok) : Guarded step init as ok := by
  intro bs a hb s hs
  obtain ⟨u, hu⟩ := run_prefix _ ((List.prefix_append bs [a]).trans hb) hr
  obtain rfl := Option.some.inj (hs.symm.trans (run_of_confined hu))
  exact hg bs a hb s hu

end Confinement

section Projection

variable {σ' β : Type*} {step' : σ' → β → Option σ'} {init' : σ'} {view : σ' → σ}
  {f : β → Option α} {bs : List β}

theorem exists_prefix_of_filterMap {as : List α} {a : α} (h : as ++ [a] <+: bs.filterMap f) :
    ∃ cs b, cs ++ [b] <+: bs ∧ cs.filterMap f = as ∧ f b = some a := by
  induction bs using List.reverseRecOn with
  | nil => exact absurd (List.prefix_nil.mp h) (List.append_ne_nil_of_right_ne_nil _ (by simp))
  | append_singleton bs b ih =>
    have hold : as ++ [a] <+: bs.filterMap f →
        ∃ cs c, cs ++ [c] <+: bs ++ [b] ∧ cs.filterMap f = as ∧ f c = some a := by
      intro h
      obtain ⟨cs, c, hcs, hc⟩ := ih h
      exact ⟨cs, c, hcs.trans (List.prefix_append bs [b]), hc⟩
    rw [List.filterMap_append] at h
    cases hb : f b with
    | none =>
      rw [List.filterMap_cons_none hb, List.filterMap_nil, List.append_nil] at h
      exact hold h
    | some a' =>
      rw [List.filterMap_cons_some hb, List.filterMap_nil] at h
      rcases List.prefix_concat_iff.mp h with he | h
      · obtain ⟨rfl, ha⟩ := List.append_inj' he rfl
        obtain rfl := List.singleton_inj.mp ha
        exact ⟨bs, b, List.prefix_refl _, rfl, hb⟩
      · exact hold h

/-- Each step of a system is seen in another one as the step `f` names, or not at all. -/
def Projects (step : σ → α → Option σ) (step' : σ' → β → Option σ') (view : σ' → σ)
    (f : β → Option α) : Prop :=
  ∀ s b t, step' s b = some t → (f b = none ∧ view t = view s) ∨
    ∃ a, f b = some a ∧ step (view s) a = some (view t)

theorem Projects.run (h : Projects step step' view f) {t : σ'}
    (hr : run step' init' bs = some t) :
    Transition.run step (view init') (bs.filterMap f) = some (view t) := by
  induction bs using List.reverseRecOn generalizing t with
  | nil =>
    cases hr
    rfl
  | append_singleton bs b ih =>
    obtain ⟨s, hs, ht⟩ := (run_concat _).mp hr
    rw [List.filterMap_append]
    rcases h s b t ht with ⟨hb, hview⟩ | ⟨a, hb, hstep⟩
    · rw [List.filterMap_cons_none hb, List.filterMap_nil, List.append_nil, hview]
      exact ih hs
    · rw [List.filterMap_cons_some hb, List.filterMap_nil]
      exact (run_concat _).mpr ⟨view s, ih hs, hstep⟩

/-- A guard on the actions that are seen may be checked in either system. -/
theorem Projects.guarded_iff (h : Projects step step' view f) {t : σ'}
    (hr : Transition.run step' init' bs = some t) {ok : σ → α → Prop} :
    Guarded step' init' bs (fun s b => ∀ a, f b = some a → ok (view s) a) ↔
      Guarded step (view init') (bs.filterMap f) ok := by
  constructor
  · intro hg as a has u hu
    obtain ⟨cs, b, hcs, rfl, hb⟩ := exists_prefix_of_filterMap has
    obtain ⟨s, hs⟩ := run_prefix _ ((List.prefix_append cs [b]).trans hcs) hr
    obtain rfl := Option.some.inj (hu.symm.trans (h.run hs))
    exact hg cs b hcs s hs a hb
  · intro hg cs b hcs s hs a hb
    refine hg (cs.filterMap f) a ?_ (view s) (h.run hs)
    obtain ⟨ds, rfl⟩ := hcs
    rw [List.filterMap_append, List.filterMap_append, List.filterMap_cons_some hb,
      List.filterMap_nil]
    exact List.prefix_append _ _

end Projection

section Simulation

variable {σ' β : Type*} {step' : σ' → β → Option σ'} {init' : σ'} {view : σ' → σ}
  {trace : σ' → List α} {I : σ' → Prop}

/-- A system whose states record in `trace` which actions of another system they have been through,
and show in `view` the state of that system. Each of its steps is one action of the other system
or none, and every action of the other system can be brought about by some of its steps. -/
structure Simulates (step : σ → α → Option σ) (init : σ) (step' : σ' → β → Option σ')
    (init' : σ') (view : σ' → σ) (trace : σ' → List α) (I : σ' → Prop) : Prop where
  start : I init' ∧ trace init' = [] ∧ view init' = init
  invariant : ∀ s b t, I s → step' s b = some t → I t
  forward : ∀ s b t, I s → step' s b = some t → (trace t = trace s ∧ view t = view s) ∨
    ∃ a, trace t = trace s ++ [a] ∧ step (view s) a = some (view t)
  backward : ∀ s a v, I s → step (view s) a = some v →
    ∃ bs t, run step' s bs = some t ∧ trace t = trace s ++ [a] ∧ view t = v

/-- The schedules of the simulated system are exactly the traces of the simulating one, with the
same states at their ends. -/
theorem Simulates.run_iff (h : Simulates step init step' init' view trace I) {as : List α} {v : σ} :
    run step init as = some v ↔ ∃ t, Reachable step' init' t ∧ trace t = as ∧ view t = v := by
  have hI : ∀ t, Reachable step' init' t → I t := fun t ht => ht.invariant h.start.1 h.invariant
  constructor
  · intro hr
    induction as using List.reverseRecOn generalizing v with
    | nil =>
      cases hr
      exact ⟨init', ⟨[], rfl⟩, h.start.2⟩
    | append_singleton as a ih =>
      obtain ⟨u, hu, hs⟩ := (run_concat step).mp hr
      obtain ⟨s, hreach, rfl, rfl⟩ := ih hu
      obtain ⟨bs, t, ht, htrace, hview⟩ := h.backward s a v (hI s hreach) hs
      obtain ⟨cs, hcs⟩ := hreach
      exact ⟨t, ⟨cs ++ bs, by rw [run_append, hcs, Option.bind_some, ht]⟩, htrace, hview⟩
  · rintro ⟨t, ⟨bs, hbs⟩, rfl, rfl⟩
    induction bs using List.reverseRecOn generalizing t with
    | nil =>
      cases hbs
      rw [h.start.2.1, h.start.2.2]
      rfl
    | append_singleton bs b ih =>
      obtain ⟨s, hs, ht⟩ := (run_concat step').mp hbs
      have hrun := ih s hs
      rcases h.forward s b t (hI s ⟨bs, hs⟩) ht with ⟨htrace, hview⟩ | ⟨a, htrace, hstep⟩
      · rw [htrace, hview, hrun]
      · rw [htrace, run_concat]
        exact ⟨view s, hrun, hstep⟩

end Simulation

end PersistTree.Transition
