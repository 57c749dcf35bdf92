import PersistTree.Pmem.MappedSkipList

/-!
# Running out of the mapping

`Allocate` never fails, so a list that outgrows its mapping goes wrong only when it touches the
bytes it was given. All of them are written when a node is made and linked, so that an `Insert`
returns only if its node lies inside the mapping; otherwise it ends in a bad access.
-/
namespace PersistTree

open Library PersistentAllocator

/-- The only way in which `r` can fail is an access outside the mapping. -/
def OnlyBadAccess {α : Type} (r : Except Fault α) : Prop := ∀ e, r = .error e → e = .badAccess

theorem OnlyBadAccess.ok {α : Type} (a : α) : OnlyBadAccess (.ok a) := fun _ h => by cases h

theorem OnlyBadAccess.ite {α : Type} {c : Prop} [Decidable c] (a : α) :
    OnlyBadAccess (if c then .ok a else .error .badAccess) := by
  intro e h
  split_ifs at h
  cases h
  rfl

theorem OnlyBadAccess.bind {α β : Type} {r : Except Fault α} {f : α → Except Fault β}
    (hr : OnlyBadAccess r) (hf : ∀ a, OnlyBadAccess (f a)) : OnlyBadAccess (r >>= f) := by
  cases r with
  | ok a => exact hf a
  | error e =>
    intro e' h
    cases h
    exact hr e rfl

namespace PersistentAllocator

variable {a a' : PersistentAllocator} {p w x : ℕ} {key : Key} {height : ℕ}

/-- The same mapping, with other contents. -/
structure SameMapping (a a' : PersistentAllocator) : Prop where
  pmemaddr : a'.pmemaddr = a.pmemaddr
  extent : a'.extent = a.extent

theorem SameMapping.trans {a'' : PersistentAllocator} (h : SameMapping a a')
    (h' : SameMapping a' a'') : SameMapping a a'' :=
  ⟨h'.pmemaddr.trans h.pmemaddr, h'.extent.trans h.extent⟩

theorem SameMapping.mapped {n : ℕ} (h : SameMapping a a') : a'.Mapped p n ↔ a.Mapped p n := by
  rw [Mapped, Mapped, h.pmemaddr, h.extent]

theorem onlyBadAccess_load (a : PersistentAllocator) (p : ℕ) : OnlyBadAccess (a.load p) := .ite _

theorem onlyBadAccess_store (a : PersistentAllocator) (p w : ℕ) :
    OnlyBadAccess (a.store p w) := .ite _

theorem onlyBadAccess_memcpy (a : PersistentAllocator) (p : ℕ) (bytes : List UInt8) :
    OnlyBadAccess (a.memcpy p bytes) := .ite _

theorem mapped_of_store (h : a.store p w = .ok a') :
    a.Mapped p 8 ∧ SameMapping a a' ∧ a'.curIndex = a.curIndex := by
  unfold store at h
  split_ifs at h with hp
  obtain rfl := Except.ok.inj h
  exact ⟨hp, ⟨rfl, rfl⟩, rfl⟩

theorem onlyBadAccess_newNode (a : PersistentAllocator) (key : Key) (height : ℕ) :
    OnlyBadAccess (a.newNode key height) :=
  (onlyBadAccess_memcpy _ _ _).bind fun _ => (onlyBadAccess_store _ _ _).bind fun _ => .ok _

theorem mapped_of_newNode (h : a.newNode key height = .ok (x, a')) :
    x = a.curIndex ∧ SameMapping a a' ∧
      a'.curIndex = a.curIndex + (8 + 8 * height) + key.length ∧
      (key = [] ∨ a.Mapped (x + (8 + 8 * height)) key.length) := by
  obtain ⟨b, hb, h⟩ := bind_eq_ok.mp h
  obtain ⟨c, hc, h⟩ := bind_eq_ok.mp h
  cases h
  obtain ⟨-, hsame, hcur⟩ := mapped_of_store hc
  unfold memcpy at hb
  split_ifs at hb with hkey
  obtain rfl := Except.ok.inj hb
  exact ⟨rfl, ⟨hsame.pmemaddr, hsame.extent⟩, hcur, hkey⟩

end PersistentAllocator

namespace MappedSkipList

variable {a a' : PersistentAllocator} {p p' : MappedSkipList} {prev x : ℕ} {key : Key} {height : ℕ}

theorem onlyBadAccess_initLevels (head prev : ℕ) :
    ∀ (n i : ℕ) (a : PersistentAllocator), OnlyBadAccess (initLevels head prev n i a) := by
  intro n
  induction n with
  | zero => exact fun _ a => .ok a
  | succ n ih =>
    exact fun i a => (onlyBadAccess_store _ _ _).bind fun _ =>
      (onlyBadAccess_store _ _ _).bind fun a => ih (i + 1) a

theorem onlyBadAccess_raiseLevels (head prev : ℕ) :
    ∀ (n lo : ℕ) (a : PersistentAllocator), OnlyBadAccess (raiseLevels head prev lo n a) := by
  intro n
  induction n with
  | zero => exact fun _ a => .ok a
  | succ n ih => exact fun lo a => (onlyBadAccess_store _ _ _).bind fun a => ih (lo + 1) a

theorem onlyBadAccess_linkLevels (prev x : ℕ) :
    ∀ (n i : ℕ) (a : PersistentAllocator), OnlyBadAccess (linkLevels prev x n i a) := by
  intro n
  induction n with
  | zero => exact fun _ a => .ok a
  | succ n ih =>
    exact fun i a => (onlyBadAccess_load _ _).bind fun _ => (onlyBadAccess_load _ _).bind fun _ =>
      (onlyBadAccess_store _ _ _).bind fun _ => (onlyBadAccess_load _ _).bind fun _ =>
      (onlyBadAccess_store _ _ _).bind fun _ => (onlyBadAccess_store _ _ _).bind fun a =>
      ih (i + 1) a

theorem onlyBadAccess_linkNode (p : MappedSkipList) (key : Key) (height : ℕ) :
    OnlyBadAccess (p.linkNode key height) :=
  (onlyBadAccess_raiseLevels _ _ _ _ _).bind fun _ => (onlyBadAccess_newNode _ _ _).bind fun _ =>
    (onlyBadAccess_linkLevels _ _ _ _ _).bind fun _ => .ok _

theorem sameMapping_raiseLevels {head : ℕ} :
    ∀ {n lo : ℕ} {a : PersistentAllocator}, raiseLevels head prev lo n a = .ok a' →
      SameMapping a a' ∧ a'.curIndex = a.curIndex := by
  intro n
  induction n with
  | zero =>
    rintro lo a ⟨⟩
    exact ⟨⟨rfl, rfl⟩, rfl⟩
  | succ n ih =>
    intro lo a h
    obtain ⟨b, hb, h⟩ := bind_eq_ok.mp h
    obtain ⟨-, hab, hcur⟩ := mapped_of_store hb
    obtain ⟨hba, hcur'⟩ := ih h
    exact ⟨hab.trans hba, hcur'.trans hcur⟩

theorem mapped_of_initLevels {head : ℕ} :
    ∀ {n i : ℕ} {a : PersistentAllocator}, initLevels head prev n i a = .ok a' →
      ∀ j, i ≤ j → j < i + n → a.Mapped (prev + 8 * j) 8 := by
  intro n
  induction n with
  | zero => exact fun _ j _ _ => by omega
  | succ n ih =>
    intro i a h j hij hj
    obtain ⟨b, hb, h⟩ := bind_eq_ok.mp h
    obtain ⟨c, hc, h⟩ := bind_eq_ok.mp h
    obtain ⟨-, hab, -⟩ := mapped_of_store hb
    obtain ⟨hfinger, hbc, -⟩ := mapped_of_store hc
    rcases Nat.eq_or_lt_of_le hij with rfl | hij
    · exact hab.mapped.mp hfinger
    · exact (hab.trans hbc).mapped.mp (ih h j hij (by omega))

theorem onlyBadAccess_new (a : PersistentAllocator) (maxHeight keySize optNum per1gNum : ℕ) :
    OnlyBadAccess (new a maxHeight keySize optNum per1gNum) :=
  (onlyBadAccess_newNode _ _ _).bind fun _ => (onlyBadAccess_initLevels _ _ _ _ _).bind fun _ =>
    .ok _

/-- The constructor returns only if the head and `prev_` lie inside the mapping. -/
theorem fits_of_new {maxHeight keySize optNum per1gNum : ℕ} (hk : 0 < maxHeight % 2 ^ 16)
    (h : new a maxHeight keySize optNum per1gNum = .ok p) :
    a.curIndex + (8 + 8 * maxHeight) + 1 + 8 * (maxHeight % 2 ^ 16) ≤
      a.pmemaddr + a.extent := by
  obtain ⟨⟨x, b⟩, hb, h⟩ := bind_eq_ok.mp h
  obtain ⟨c, hc, -⟩ := bind_eq_ok.mp h
  obtain ⟨rfl, hab, hcur, -⟩ := mapped_of_newNode hb
  have hlast := (mapped_of_initLevels hc (maxHeight % 2 ^ 16 - 1) (Nat.zero_le _) (by omega)).2
  have hpmem := hab.pmemaddr
  have hlen := hab.extent
  simp only [List.length_singleton] at hcur
  dsimp only [allocate] at hlast
  omega

theorem mapped_of_linkLevels :
    ∀ {n i : ℕ} {a : PersistentAllocator}, linkLevels prev x n i a = .ok a' →
      ∀ j, i ≤ j → j < i + n → a.Mapped (slot x j) 8 := by
  intro n
  induction n with
  | zero => exact fun _ j _ _ => by omega
  | succ n ih =>
    intro i a h j hij hj
    obtain ⟨q, -, h⟩ := bind_eq_ok.mp h
    obtain ⟨succ, -, h⟩ := bind_eq_ok.mp h
    obtain ⟨b, hb, h⟩ := bind_eq_ok.mp h
    obtain ⟨q', -, h⟩ := bind_eq_ok.mp h
    obtain ⟨c, hc, h⟩ := bind_eq_ok.mp h
    obtain ⟨d, hd, h⟩ := bind_eq_ok.mp h
    obtain ⟨hslot, hab, -⟩ := mapped_of_store hb
    obtain ⟨-, hbc, -⟩ := mapped_of_store hc
    obtain ⟨-, hcd, -⟩ := mapped_of_store hd
    rcases Nat.eq_or_lt_of_le hij with rfl | hij
    · exact hslot
    · exact ((hab.trans hbc).trans hcd).mapped.mp (ih h j hij (by omega))

/-- A node that has been linked lies inside the mapping. -/
theorem fits_of_linkNode (hpos : 1 ≤ height) (h : p.linkNode key height = .ok p') :
    p.allocator.curIndex + (8 + 8 * height) + key.length ≤
      p.allocator.pmemaddr + p.allocator.extent := by
  obtain ⟨a, ha, h⟩ := bind_eq_ok.mp h
  obtain ⟨⟨x, b⟩, hb, h⟩ := bind_eq_ok.mp h
  obtain ⟨c, hc, -⟩ := bind_eq_ok.mp h
  obtain ⟨hpa, hcur⟩ := sameMapping_raiseLevels ha
  obtain ⟨rfl, hab, -, hkey⟩ := mapped_of_newNode hb
  have hlast := mapped_of_linkLevels hc (height - 1) (Nat.zero_le _) (by omega)
  have hend := ((hpa.trans hab).mapped.mp hlast).2
  rw [slot, hcur] at hend
  rcases hkey with rfl | hkey
  · rw [List.length_nil]
    omega
  · have := (hpa.mapped.mp hkey).2
    omega

end MappedSkipList

end PersistTree
