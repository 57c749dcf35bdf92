import PersistTree.SkipLists.Position

/-!
# The contents of a list

Keys at least `key_size_` bytes long fill the window of `strncmp`, so what lies behind their
buffers is invisible and the order of a list does not depend on the environment. A list filled by
some calls holds the key and the height of every call in exactly one node, in the order of
`strncmp`. Putting a node where its key fits keeps this.
-/
namespace PersistTree

open Library

variable {keySize x : ℕ} {keyOf keyOf' : ℕ → Key} {height height' : ℕ → ℕ} {done : List Call}
  {c : Call} {A B A' B' : List ℕ}

/-- The nodes `A ++ B` hold what the calls `done` inserted, sorted by the first `keySize` bytes. -/
structure Filled (keySize : ℕ) (keyOf : ℕ → Key) (height : ℕ → ℕ) (done : List Call)
    (A B : List ℕ) : Prop where
  keyLength : ∀ y ∈ A ++ B, keySize ≤ (keyOf y).length
  sorted : SortedBy (fun y => strnview keySize (keyOf y)) (A ++ B)
  contents : ((A ++ B).map fun y => (keyOf y, height y)).Perm
    (done.map fun c => (c.key, c.height))

namespace Filled

theorem empty (keySize : ℕ) (keyOf : ℕ → Key) (height : ℕ → ℕ) :
    Filled keySize keyOf height [] [] [] := ⟨by simp, List.Pairwise.nil, List.Perm.refl _⟩

theorem view_eq (hf : Filled keySize keyOf height done A B) (env : Env) {y : ℕ}
    (hy : y ∈ A ++ B) :
    strnview keySize (keyOf y ++ env.junk y) = strnview keySize (keyOf y) :=
  strnview_append (hf.keyLength y hy) _

theorem sorted_view (hf : Filled keySize keyOf height done A B) (env : Env) :
    SortedBy (fun y => strnview keySize (keyOf y ++ env.junk y)) (A ++ B) :=
  SortedBy.congr hf.sorted fun _ hy => hf.view_eq env hy

theorem keys_perm (hf : Filled keySize keyOf height done A B) :
    ((A ++ B).map keyOf).Perm (done.map Call.key) := by
  have h := hf.contents.map Prod.fst
  simpa only [List.map_map, Function.comp_def] using h

theorem length_level (hf : Filled keySize keyOf height done A B) (i : ℕ) :
    (level height i (A ++ B)).length = done.countP fun c => decide (i < c.height) := by
  have hcount := hf.contents.countP_eq fun c : Key × ℕ => decide (i < c.2)
  rw [List.countP_map, List.countP_map] at hcount
  rw [level, ← List.countP_eq_length_filter]
  exact hcount

theorem ne_nil (hf : Filled keySize keyOf height done A B) (h : done ≠ []) : A ++ B ≠ [] := by
  intro hnil
  have hlen := hf.contents.length_eq
  rw [hnil, List.map_nil, List.length_nil, List.length_map] at hlen
  exact h (List.length_eq_zero_iff.mp hlen.symm)

/-- A new node `x` between `A'` and `B'`, where its key fits. -/
theorem insert (hf : Filled keySize keyOf height done A B) (hsame : A ++ B = A' ++ B') (env : Env)
    (hcut : Cut (fun y => strnview keySize (keyOf y ++ env.junk y)) (strnview keySize c.key) A' B')
    (hkey : keySize ≤ c.key.length) (hx : keyOf' x = c.key) (hhx : height' x = c.height)
    (hold : ∀ y ∈ A' ++ B', keyOf' y = keyOf y ∧ height' y = height y) :
    Filled keySize keyOf' height' (done ++ [c]) (A' ++ [x]) B' := by
  have hsorted : SortedBy (fun y => strnview keySize (keyOf' y)) (A' ++ B') := by
    have h := hf.sorted
    rw [hsame] at h
    exact SortedBy.congr h fun y hy => by rw [(hold y hy).1]
  -- the cut found with the views of this call is one for the keys themselves
  have hcut' : Cut (fun y => strnview keySize (keyOf' y)) (strnview keySize (keyOf' x)) A' B' := by
    rw [hx]
    exact hcut.congr fun y hy => by rw [(hold y hy).1, ← hf.view_eq env (hsame ▸ hy)]
  have hperm := perm_insert x A' B'
  refine ⟨?_, by rw [List.append_assoc]; exact hcut'.sorted hsorted, ?_⟩
  · intro y hy
    rcases List.mem_append.mp (hperm.subset hy) with hy | hy
    · rw [(hold y hy).1]
      exact hf.keyLength y (hsame ▸ hy)
    · rw [List.mem_singleton.mp hy, hx]
      exact hkey
  · have hentries : ((A' ++ B') ++ [x]).map (fun y => (keyOf' y, height' y)) =
        (A ++ B).map (fun y => (keyOf y, height y)) ++ [(c.key, c.height)] := by
      rw [List.map_append, List.map_singleton, hx, hhx, hsame]
      congr 1
      exact List.map_congr_left fun y hy => by rw [(hold y hy).1, (hold y hy).2]
    have hdone : (done ++ [c]).map (fun c => (c.key, c.height)) =
        done.map (fun c => (c.key, c.height)) ++ [(c.key, c.height)] := List.map_append
    apply (hperm.map _).trans
    rw [hentries, hdone]
    exact hf.contents.append_right _

theorem pairwise_le (hf : Filled keySize keyOf height done A B) :
    (A ++ B).Pairwise fun a b => strncmp (keyOf a) (keyOf b) keySize ≤ 0 :=
  hf.sorted.imp fun hab => strncmp_nonpos_iff.mpr hab

theorem view_ne (hf : Filled keySize keyOf height done A B) (env : Env)
    (hdiff : ∀ d ∈ done, strncmp d.key c.key keySize ≠ 0) {y : ℕ} (hy : y ∈ A ++ B) :
    strnview keySize (keyOf y ++ env.junk y) ≠ strnview keySize c.key := by
  rw [hf.view_eq env hy]
  have hmem : keyOf y ∈ done.map Call.key := hf.keys_perm.subset (List.mem_map_of_mem hy)
  obtain ⟨d, hd, hdy⟩ := List.mem_map.mp hmem
  rw [← hdy]
  exact fun h => hdiff d hd (strncmp_eq_zero_iff.mpr h)

theorem pairwise_lt (hf : Filled keySize keyOf height done A B)
    (hdiff : done.Pairwise fun c d => strncmp c.key d.key keySize ≠ 0) :
    (A ++ B).Pairwise fun a b => strncmp (keyOf a) (keyOf b) keySize < 0 := by
  have hviews : (done.map Call.key).Pairwise fun a b => strnview keySize a ≠ strnview keySize b :=
    List.pairwise_map.mpr (hdiff.imp fun h he => h (strncmp_eq_zero_iff.mpr he))
  have hne := List.pairwise_map.mp ((hf.keys_perm.symm.pairwise_iff Ne.symm).mp hviews)
  exact hf.sorted.imp₂ (fun a b hle hab => strncmp_neg_iff.mpr (lt_of_le_of_ne hle hab)) hne

end Filled

variable {δ : Type} {m : Arena δ} {head maxHeight kMaxHeight : ℕ} {prev : List ℕ}

/-- The layout of a list that was filled by `calls`: `L` is the level-0 chain, the higher levels are
its subsequences of taller nodes, and the fingers are the last nodes of their levels up to the node
the level-0 finger points to. -/
structure Layout (m : Arena δ) (keyOf : ℕ → Key) (head : ℕ) (prev : List ℕ)
    (maxHeight kMaxHeight : ℕ) (calls : List Call) (L : List ℕ) : Prop where
  base : Chain (m.next 0) head L
  nodup : L.Nodup
  contents : (L.map fun y => (keyOf y, m.height y)).Perm (calls.map fun c => (c.key, c.height))
  levels : ∀ i < kMaxHeight, Chain (m.next i) head (level m.height i L)
  upper : ∀ i, maxHeight ≤ i → level m.height i L = []
  fingers : ∃ A x B, L = A ++ x :: B ∧ prev[0]? = some x ∧
    ∀ i < maxHeight, prev[i]? = some (finger m.height head i (A ++ [x]))

theorem Filled.layout (hf : Filled keySize keyOf m.height done A B)
    (hl : FingerList m head prev maxHeight kMaxHeight A B) (hstart : A = [] → B = [])
    (hne : done ≠ []) : Layout m keyOf head prev maxHeight kMaxHeight done (A ++ B) := by
  have hA : A ≠ [] := fun hA => hf.ne_nil hne (by rw [hA, hstart hA]; rfl)
  obtain ⟨A', x, rfl⟩ := (List.eq_nil_or_concat' A).resolve_left hA
  refine ⟨hl.base, (List.nodup_cons.mp hl.nodup).2, hf.contents, hl.chains, ?_, ?_⟩
  · exact fun i hi => level_eq_nil.mpr fun a ha => le_trans (hl.heights a ha).2 hi
  · refine ⟨A', x, B, by rw [List.append_assoc]; rfl, ?_, hl.fingers⟩
    rw [hl.finger_zero, lastFrom_append]
    rfl

end PersistTree
