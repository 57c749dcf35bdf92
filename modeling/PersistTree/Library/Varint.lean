import Mathlib.Data.Set.Basic
import Mathlib.Tactic

/-!
# Prefix codes and variable-length integers

A code whose words can be read off the front of any text. Words one after another can be read as
well, and so can texts that each follow the code word of their length, whatever is in them. The
base-128 notation for numbers is such a code: every byte but the last has its high bit set.
-/
namespace PersistTree.Library

variable {α β : Type*}

/-- A text that starts with a code word of an element of `s` starts with no other one. -/
def PrefixCodeOn (s : Set α) (code : α → List β) : Prop :=
  ∀ x ∈ s, ∀ y ∈ s, ∀ a b, code x ++ a = code y ++ b → x = y ∧ a = b

namespace PrefixCodeOn

variable {s : Set α} {code : α → List β} {x y : α}

theorem eq_of_prefix (hc : PrefixCodeOn s code) (hx : x ∈ s) (hy : y ∈ s)
    (h : code x <+: code y) : x = y := by
  obtain ⟨a, ha⟩ := h
  exact (hc x hx y hy a [] (by rw [ha, List.append_nil])).1

theorem injOn (hc : PrefixCodeOn s code) : Set.InjOn code s := by
  intro x hx y hy h
  exact hc.eq_of_prefix hx hy (h ▸ List.prefix_rfl)

theorem flatMap_inj (hc : PrefixCodeOn s code) (hne : ∀ x ∈ s, code x ≠ []) {l l' : List α}
    (hl : ∀ x ∈ l, x ∈ s) (hl' : ∀ x ∈ l', x ∈ s) (h : l.flatMap code = l'.flatMap code) :
    l = l' := by
  induction l generalizing l' with
  | nil =>
    cases l' with
    | nil => rfl
    | cons y l' =>
      have hy : code y = [] := (List.append_eq_nil_iff.mp h.symm).1
      exact absurd hy (hne y (hl' y List.mem_cons_self))
  | cons x l ih =>
    cases l' with
    | nil =>
      have hx : code x = [] := (List.append_eq_nil_iff.mp h).1
      exact absurd hx (hne x (hl x List.mem_cons_self))
    | cons y l' =>
      obtain ⟨hx, hrl⟩ := List.forall_mem_cons.mp hl
      obtain ⟨hy, hrl'⟩ := List.forall_mem_cons.mp hl'
      rw [List.flatMap_cons, List.flatMap_cons] at h
      obtain ⟨rfl, hrest⟩ := hc x hx y hy _ _ h
      rw [ih hrl hrl' hrest]

/-- Texts of any content, each behind the code word of its length. -/
theorem lengthPrefixed (hc : PrefixCodeOn s code) {t : Set (List β)} {size : ℕ → α}
    (hs : ∀ v ∈ t, size v.length ∈ s)
    (hsize : ∀ v ∈ t, ∀ w ∈ t, size v.length = size w.length → v.length = w.length) :
    PrefixCodeOn t fun v => code (size v.length) ++ v := by
  intro v hv w hw a b h
  rw [List.append_assoc, List.append_assoc] at h
  obtain ⟨hlen, hrest⟩ := hc _ (hs v hv) _ (hs w hw) _ _ h
  exact List.append_inj hrest (hsize v hv w hw hlen)

end PrefixCodeOn

/-- Seven bits a byte, the lowest first. -/
def varint (n : ℕ) : List UInt8 :=
  if n < 128 then [UInt8.ofNat n] else UInt8.ofNat (n % 128 + 128) :: varint (n / 128)

variable {m n : ℕ}

theorem varint_of_lt (h : n < 128) : varint n = [UInt8.ofNat n] := by
  rw [varint, if_pos h]

theorem varint_of_le (h : 128 ≤ n) :
    varint n = UInt8.ofNat (n % 128 + 128) :: varint (n / 128) := by
  rw [varint, if_neg (not_lt.mpr h)]

theorem varint_ne_nil (n : ℕ) : varint n ≠ [] := by
  rw [varint]
  split_ifs
  · exact List.cons_ne_nil _ _
  · exact List.cons_ne_nil _ _

theorem byte_inj (hm : m < 256) (hn : n < 256) (h : UInt8.ofNat m = UInt8.ofNat n) :
    m = n := by
  have h' := congrArg UInt8.toNat h
  rwa [UInt8.toNat_ofNat_of_lt' hm, UInt8.toNat_ofNat_of_lt' hn] at h'

/-- The high bit of its first byte tells whether a number goes on. -/
theorem prefixCodeOn_varint : PrefixCodeOn Set.univ varint := by
  intro m _ n _ a b h
  induction m using Nat.strong_induction_on generalizing n with
  | _ m ih =>
    rcases lt_or_ge m 128 with hm | hm
    · rw [varint_of_lt hm] at h
      rcases lt_or_ge n 128 with hn | hn
      · rw [varint_of_lt hn] at h
        obtain ⟨hhead, htail⟩ := List.cons.inj h
        exact ⟨byte_inj (by omega) (by omega) hhead, htail⟩
      · rw [varint_of_le hn] at h
        have := byte_inj (by omega) (by omega) (List.cons.inj h).1
        omega
    · rw [varint_of_le hm] at h
      rcases lt_or_ge n 128 with hn | hn
      · rw [varint_of_lt hn] at h
        have := byte_inj (by omega) (by omega) (List.cons.inj h).1
        omega
      · rw [varint_of_le hn] at h
        obtain ⟨hhead, htail⟩ := List.cons.inj h
        have hlow := byte_inj (by omega) (by omega) hhead
        obtain ⟨hhigh, hab⟩ := ih (m / 128) (by omega) trivial (n / 128) trivial htail
        exact ⟨by omega, hab⟩

theorem length_varint_le {k : ℕ} (h : n < 128 ^ (k + 1)) : (varint n).length ≤ k + 1 := by
  induction k generalizing n with
  | zero =>
    rw [varint_of_lt (by omega)]
    rfl
  | succ k ih =>
    rcases lt_or_ge n 128 with hn | hn
    · rw [varint_of_lt hn, List.length_singleton]
      omega
    · have hdiv : n / 128 < 128 ^ (k + 1) := Nat.div_lt_of_lt_mul (by rwa [pow_succ'] at h)
      rw [varint_of_le hn, List.length_cons]
      exact Nat.succ_le_succ (ih hdiv)

end PersistTree.Library
