import Mathlib.Data.List.Basic
import Mathlib.Tactic

/-!
# Persistent memory with explicit write-back

A program writes cells with plain stores and makes ranges of cells durable with persist
instructions. A store that no later persist covers may or may not have reached the medium, and
each such store is decided independently. A crash therefore leaves, in every cell, the value
that the last persist of the cell made durable or one of the values stored since.
-/
namespace PersistTree.Library.PersistentMemory

variable {ι ν : Type*}

inductive Op (ι ν : Type*) where
  | store (a : ι) (v : ν)
  | persist (range : List ι)

/-- What is known of one cell: its durable value, if it ever had one, and the values stored
since, oldest first. -/
structure Cell (ν : Type*) where
  durable : Option ν
  pending : List ν

/-- The values a cell can hold after a crash. -/
def Cell.Survives (c : Cell ν) (v : Option ν) : Prop := v = c.durable ∨ ∃ w ∈ c.pending, v = some w

variable [DecidableEq ι]

def Cell.exec (a : ι) (c : Cell ν) : Op ι ν → Cell ν
  | .store b v => if b = a then { c with pending := c.pending ++ [v] } else c
  | .persist range =>
    if a ∈ range then
      match c.pending.getLast? with
      | some v => { durable := some v, pending := [] }
      | none => c
    else c

/-- The state of cell `a` after a sequence of instructions on a medium without data. -/
def cell (a : ι) (ops : List (Op ι ν)) : Cell ν :=
  ops.foldl (Cell.exec a) { durable := none, pending := [] }

/-- `img` is a possible content of the medium after a crash that follows `ops`. -/
def CrashImage (ops : List (Op ι ν)) (img : ι → Option ν) : Prop :=
  ∀ a, (cell a ops).Survives (img a)

variable {a b : ι} {v w : ν} {ops : List (Op ι ν)} {r : List ι} {img : ι → Option ν}

theorem cell_concat (a : ι) (ops : List (Op ι ν)) (o : Op ι ν) :
    cell a (ops ++ [o]) = (cell a ops).exec a o := by
  simp [cell, List.foldl_append]

@[simp] theorem cell_store_self :
    cell a (ops ++ [.store a v]) =
      { durable := (cell a ops).durable, pending := (cell a ops).pending ++ [v] } := by
  simp [cell_concat, Cell.exec]

theorem cell_store_of_ne (h : b ≠ a) : cell a (ops ++ [.store b v]) = cell a ops := by
  simp [cell_concat, Cell.exec, h]

theorem cell_persist_of_not_mem (h : a ∉ r) : cell a (ops ++ [.persist r]) = cell a ops := by
  simp [cell_concat, Cell.exec, h]

theorem cell_persist_of_mem (h : a ∈ r) {l : List ν} (hp : (cell a ops).pending = l ++ [v]) :
    cell a (ops ++ [.persist r]) = { durable := some v, pending := [] } := by
  simp [cell_concat, Cell.exec, h, hp]

/-- Whether an instruction leaves the state of cell `a` alone. -/
def Op.Avoids (a : ι) : Op ι ν → Prop
  | .store b _ => b ≠ a
  | .persist range => a ∉ range

theorem cell_of_avoids {o : Op ι ν} (h : o.Avoids a) : cell a (ops ++ [o]) = cell a ops := by
  cases o with
  | store b v => exact cell_store_of_ne h
  | persist r => exact cell_persist_of_not_mem h

theorem cell_append_of_avoids {os : List (Op ι ν)} (h : ∀ o ∈ os, o.Avoids a) :
    cell a (ops ++ os) = cell a ops := by
  induction os using List.reverseRecOn with
  | nil => simp
  | append_singleton os o ih =>
    rw [← List.append_assoc, cell_of_avoids (h o (by simp))]
    exact ih fun o' ho' => h o' (by simp [ho'])

theorem durable_append {os : List (Op ι ν)} (h : ∀ r, .persist r ∈ os → a ∉ r) :
    (cell a (ops ++ os)).durable = (cell a ops).durable := by
  induction os using List.reverseRecOn with
  | nil => simp
  | append_singleton os o ih =>
    rw [← List.append_assoc, ← ih fun r hr => h r (by simp [hr])]
    cases o with
    | store b v =>
      by_cases hb : b = a
      · subst b
        rw [cell_store_self]
      · rw [cell_store_of_ne hb]
    | persist r => rw [cell_persist_of_not_mem (h r (by simp))]

theorem CrashImage.store_mem (hi : CrashImage ops img) (h : img a = some v) :
    .store a v ∈ ops := by
  have hall : ∀ w, (cell a ops).durable = some w ∨ w ∈ (cell a ops).pending →
      .store a w ∈ ops := by
    clear hi h
    induction ops using List.reverseRecOn with
    | nil => simp [cell]
    | append_singleton ops o ih =>
      intro w hw
      rw [cell_concat] at hw
      cases o with
      | store b u =>
        by_cases hb : b = a
        · subst b
          simp only [Cell.exec, if_true, List.mem_append, List.mem_singleton] at hw
          rcases hw with hw | hw | rfl
          · exact List.mem_append_left _ (ih w (Or.inl hw))
          · exact List.mem_append_left _ (ih w (Or.inr hw))
          · simp
        · rw [Cell.exec, if_neg hb] at hw
          exact List.mem_append_left _ (ih w hw)
      | persist r =>
        refine List.mem_append_left _ (ih w ?_)
        by_cases hr : a ∈ r
        · rw [Cell.exec, if_pos hr] at hw
          cases hl : (cell a ops).pending.getLast? with
          | none => simpa [hl] using hw
          | some u =>
            simp only [hl, Option.some.injEq, List.not_mem_nil, or_false] at hw
            exact Or.inr (hw ▸ List.mem_of_mem_getLast? hl)
        · rwa [Cell.exec, if_neg hr] at hw
  rcases hi a with he | ⟨w, hw, he⟩
  · exact hall v (Or.inl (he.symm.trans h))
  · obtain rfl : w = v := Option.some.inj (he.symm.trans h)
    exact hall w (Or.inr hw)

/-- The image in which every outstanding store is lost. -/
def durableImage (ops : List (Op ι ν)) (a : ι) : Option ν := (cell a ops).durable

theorem durableImage_crashImage (ops : List (Op ι ν)) : CrashImage ops (durableImage ops) :=
  fun _ => Or.inl rfl

section WriteThrough

variable {κ : Type*} {f : κ → ι} {val : κ → Option ν} {k : κ}

/-- The cells of a class hold exactly `val` on the medium, with no store outstanding. -/
def Settled (f : κ → ι) (ops : List (Op ι ν)) (val : κ → Option ν) : Prop :=
  ∀ k, cell (f k) ops = { durable := val k, pending := [] }

theorem Settled.image (hs : Settled f ops val) (hi : CrashImage ops img) :
    (fun k => img (f k)) = val := by
  funext k
  rcases hi (f k) with h | ⟨w, hw, _⟩
  · rw [h, hs k]
  · rw [hs k] at hw
    simp at hw

theorem Settled.of_avoids (hs : Settled f ops val) {os : List (Op ι ν)}
    (h : ∀ o ∈ os, ∀ k, o.Avoids (f k)) : Settled f (ops ++ os) val := fun k => by
  rw [cell_append_of_avoids fun o ho => h o ho k]
  exact hs k

/-- After one more store the image of the class is the old one or the new one. -/
theorem Settled.image_store [DecidableEq κ] (hs : Settled f ops val) (hf : f.Injective)
    (hi : CrashImage (ops ++ [.store (f k) v]) img) :
    (fun k => img (f k)) = val ∨ (fun k => img (f k)) = Function.update val k (some v) := by
  have hother : ∀ j, j ≠ k → img (f j) = val j := by
    intro j hj
    have := hi (f j)
    rw [cell_store_of_ne (hf.ne (Ne.symm hj)), hs j] at this
    rcases this with h | ⟨w, hw, _⟩
    · exact h
    · simp at hw
  have hk := hi (f k)
  rw [cell_store_self, hs k] at hk
  rcases hk with h | ⟨w, hw, h⟩
  · left
    funext j
    by_cases hj : j = k
    · subst j
      exact h
    · exact hother j hj
  · right
    obtain rfl : w = v := by simpa using hw
    funext j
    by_cases hj : j = k
    · subst j
      simpa using h
    · simpa [hj] using hother j hj

/-- A store that is persisted at once leaves the class settled on the new content. -/
theorem Settled.store_persist [DecidableEq κ] (hs : Settled f ops val) (hf : f.Injective) :
    Settled f (ops ++ [.store (f k) v] ++ [.persist [f k]]) (Function.update val k (some v)) := by
  intro j
  by_cases hj : j = k
  · subst j
    rw [cell_persist_of_mem (by simp) (l := []) (v := v) (by simp [hs k])]
    simp
  · have hne : f k ≠ f j := hf.ne (Ne.symm hj)
    rw [cell_persist_of_not_mem (by simpa using Ne.symm hne), cell_store_of_ne hne, hs j]
    simp [hj]

end WriteThrough

/-- Every crash point at or after `base` and no later than the end of `ops` satisfies `G`. -/
def Throughout (base ops : List (Op ι ν)) (G : List (Op ι ν) → Prop) : Prop :=
  ∀ p, base <+: p → p <+: ops → G p

omit [DecidableEq ι] in
theorem Throughout.refl {G : List (Op ι ν) → Prop} (h : G ops) : Throughout ops ops G := by
  intro p hb hp
  obtain rfl : p = ops := hp.eq_of_length_le hb.length_le
  exact h

omit [DecidableEq ι] in
theorem Throughout.concat {base : List (Op ι ν)} {o : Op ι ν} {G : List (Op ι ν) → Prop}
    (h : Throughout base ops G) (ho : G (ops ++ [o])) : Throughout base (ops ++ [o]) G := by
  intro p hb hp
  rcases List.prefix_concat_iff.mp hp with rfl | hp
  · exact ho
  · exact h p hb hp

omit [DecidableEq ι] in
theorem Throughout.append {base os : List (Op ι ν)} {G : List (Op ι ν) → Prop}
    (h : Throughout base ops G) (ho : ∀ q, q <+: os → G (ops ++ q)) :
    Throughout base (ops ++ os) G := by
  intro p hb hp
  rcases List.prefix_or_prefix_of_prefix hp (List.prefix_append ops os) with hp' | ⟨q, rfl⟩
  · exact h p hb hp'
  · exact ho q ((List.prefix_append_right_inj ops).mp hp)

/-- Every crash between `base` and the end of `ops` leaves an image in `P`. -/
abbrev CrashSafe (base ops : List (Op ι ν)) (P : (ι → Option ν) → Prop) : Prop :=
  Throughout base ops fun p => ∀ img, CrashImage p img → P img

end PersistTree.Library.PersistentMemory
