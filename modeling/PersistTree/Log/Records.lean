import PersistTree.Library.Varint

/-!
# Length-prefixed records

`EncodeVarint32`, `PutVarint32` and `PutLengthPrefixedSlice` of `log_batch.cc`. The encoder has one
case for each number of bytes and stores the low byte of a shifted value; the five cases are the
base-128 notation of the value. A record is the encoded length of a string and the string.
-/
namespace PersistTree

open Library

/-- The bytes that `EncodeVarint32` writes at `dst`. -/
def encodeVarint32 (v : UInt32) : List UInt8 :=
  let B : UInt32 := 128
  if v < (1 : UInt32) <<< 7 then [v.toUInt8]
  else if v < (1 : UInt32) <<< 14 then [(v ||| B).toUInt8, (v >>> 7).toUInt8]
  else if v < (1 : UInt32) <<< 21 then
    [(v ||| B).toUInt8, ((v >>> 7) ||| B).toUInt8, (v >>> 14).toUInt8]
  else if v < (1 : UInt32) <<< 28 then
    [(v ||| B).toUInt8, ((v >>> 7) ||| B).toUInt8, ((v >>> 14) ||| B).toUInt8,
      (v >>> 21).toUInt8]
  else
    [(v ||| B).toUInt8, ((v >>> 7) ||| B).toUInt8, ((v >>> 14) ||| B).toUInt8,
      ((v >>> 21) ||| B).toUInt8, (v >>> 28).toUInt8]

/-- `PutVarint32(dst, v)`, by way of the five bytes of `buf`. -/
def putVarint32 (dst : List UInt8) (v : UInt32) : List UInt8 := dst ++ encodeVarint32 v

/-- `PutLengthPrefixedSlice(dst, value)`: the size of the string is cut to 32 bits. -/
def putLengthPrefixedSlice (dst value : List UInt8) : List UInt8 :=
  putVarint32 dst (UInt32.ofNat value.length) ++ value

theorem or_high_bit {m : ℕ} (h : m < 256) : m ||| 128 = m % 128 + 128 := by
  have hlow : m % 128 ||| 2 ^ 7 = m % 128 + 2 ^ 7 :=
    Nat.or_two_pow_eq_add_of_lt (Nat.mod_lt m (by decide))
  rcases lt_or_ge m 128 with hm | hm
  · rw [Nat.mod_eq_of_lt hm] at hlow ⊢
    exact hlow
  · have hm' : m % 128 ||| 2 ^ 7 = m := by omega
    calc m ||| 128 = (m % 128 ||| 2 ^ 7) ||| 2 ^ 7 := congrArg (· ||| 128) hm'.symm
      _ = m % 128 ||| 2 ^ 7 := by rw [Nat.or_assoc, Nat.or_self]
      _ = m % 128 + 128 := hlow

theorem toUInt8_or (v : UInt32) : (v ||| 128).toUInt8 = UInt8.ofNat (v.toNat % 128 + 128) := by
  have hlt : v.toNat % 128 + 128 < 256 := by omega
  have h := or_high_bit (Nat.mod_lt v.toNat (by decide : 0 < 256))
  rw [Nat.mod_mod_of_dvd _ (by decide)] at h
  apply UInt8.toNat_inj.mp
  rw [UInt32.toNat_toUInt8, UInt32.toNat_or, UInt8.toNat_ofNat_of_lt' hlt,
    Nat.or_mod_two_pow (n := 8)]
  exact h

theorem toUInt8_eq (v : UInt32) : v.toUInt8 = UInt8.ofNat v.toNat := by
  apply UInt8.toNat_inj.mp
  rw [UInt32.toNat_toUInt8, UInt8.toNat_ofNat']

/-- The five cases store the base-128 digits of the value. -/
theorem encodeVarint32_eq (v : UInt32) : encodeVarint32 v = varint v.toNat := by
  have hlt := v.toNat_lt
  have h7 : (v >>> 7).toNat = v.toNat / 128 := by
    simp [UInt32.toNat_shiftRight, Nat.shiftRight_eq_div_pow]
  have h14 : (v >>> 14).toNat = v.toNat / 128 / 128 := by
    simp [UInt32.toNat_shiftRight, Nat.shiftRight_eq_div_pow, Nat.div_div_eq_div_mul]
  have h21 : (v >>> 21).toNat = v.toNat / 128 / 128 / 128 := by
    simp [UInt32.toNat_shiftRight, Nat.shiftRight_eq_div_pow, Nat.div_div_eq_div_mul]
  have h28 : (v >>> 28).toNat = v.toNat / 128 / 128 / 128 / 128 := by
    simp [UInt32.toNat_shiftRight, Nat.shiftRight_eq_div_pow, Nat.div_div_eq_div_mul]
  have b7 : ((1 : UInt32) <<< 7).toNat = 128 := rfl
  have b14 : ((1 : UInt32) <<< 14).toNat = 16384 := rfl
  have b21 : ((1 : UInt32) <<< 21).toNat = 2097152 := rfl
  have b28 : ((1 : UInt32) <<< 28).toNat = 268435456 := rfl
  simp only [encodeVarint32, toUInt8_or, UInt32.lt_iff_toNat_lt, b7, b14, b21, b28]
  simp only [toUInt8_eq, h7, h14, h21, h28]
  generalize v.toNat = n at hlt ⊢
  split_ifs with h₁ h₂ h₃ h₄
  · rw [varint_of_lt h₁]
  · rw [varint_of_le (by omega), varint_of_lt (by omega)]
  · rw [varint_of_le (by omega), varint_of_le (n := n / 128) (by omega), varint_of_lt (by omega)]
  · rw [varint_of_le (by omega), varint_of_le (n := n / 128) (by omega),
      varint_of_le (n := n / 128 / 128) (by omega), varint_of_lt (by omega)]
  · rw [varint_of_le (by omega), varint_of_le (n := n / 128) (by omega),
      varint_of_le (n := n / 128 / 128) (by omega),
      varint_of_le (n := n / 128 / 128 / 128) (by omega), varint_of_lt (by omega)]

theorem length_encodeVarint32 (v : UInt32) : (encodeVarint32 v).length ≤ 5 := by
  have hlt := v.toNat_lt
  rw [encodeVarint32_eq]
  exact length_varint_le (by omega)

theorem prefixCodeOn_encodeVarint32 : PrefixCodeOn Set.univ encodeVarint32 := by
  intro v _ w _ a b h
  rw [encodeVarint32_eq, encodeVarint32_eq] at h
  obtain ⟨hv, hab⟩ := prefixCodeOn_varint v.toNat trivial w.toNat trivial a b h
  exact ⟨UInt32.toNat_inj.mp hv, hab⟩

/-- One record. -/
def record (value : List UInt8) : List UInt8 :=
  encodeVarint32 (UInt32.ofNat value.length) ++ value

theorem record_ne_nil (value : List UInt8) : record value ≠ [] := by
  intro h
  have hlen := (List.append_eq_nil_iff.mp h).1
  rw [encodeVarint32_eq] at hlen
  exact varint_ne_nil _ hlen

theorem prefixCodeOn_record : PrefixCodeOn {value | value.length < 2 ^ 32} record := by
  refine prefixCodeOn_encodeVarint32.lengthPrefixed (fun _ _ => trivial) ?_
  intro v hv w hw h
  have h' := congrArg UInt32.toNat h
  rwa [UInt32.toNat_ofNat_of_lt' hv, UInt32.toNat_ofNat_of_lt' hw] at h'

theorem foldl_putLengthPrefixedSlice (dst : List UInt8) (values : List (List UInt8)) :
    values.foldl putLengthPrefixedSlice dst = dst ++ values.flatMap record := by
  induction values generalizing dst with
  | nil => rw [List.foldl_nil, List.flatMap_nil, List.append_nil]
  | cons value values ih =>
    rw [List.foldl_cons, ih, List.flatMap_cons, putLengthPrefixedSlice, putVarint32, record]
    simp only [List.append_assoc]

/-- No encoded number starts another one, and the strings can be read off their records. -/
theorem putLengthPrefixedSlice_inj {values values' : List (List UInt8)}
    (h : ∀ value ∈ values, value.length < 2 ^ 32)
    (h' : ∀ value ∈ values', value.length < 2 ^ 32) :
    (∀ v w, encodeVarint32 v <+: encodeVarint32 w → v = w) ∧
      Function.Injective encodeVarint32 ∧
      (values.foldl putLengthPrefixedSlice [] = values'.foldl putLengthPrefixedSlice [] →
        values = values') := by
  refine ⟨?_, ?_, ?_⟩
  · intro v w hvw
    exact prefixCodeOn_encodeVarint32.eq_of_prefix trivial trivial hvw
  · exact Set.injOn_univ.mp prefixCodeOn_encodeVarint32.injOn
  · intro heq
    rw [foldl_putLengthPrefixedSlice, foldl_putLengthPrefixedSlice] at heq
    exact prefixCodeOn_record.flatMap_inj (fun value _ => record_ne_nil value) h h' heq

/-- A string that looks like the record of another one. -/
theorem putLengthPrefixedSlice_inj_nested :
    [[1, 97]].foldl putLengthPrefixedSlice [] ≠ [[97]].foldl putLengthPrefixedSlice [] := by
  intro heq
  have hlong : ∀ value ∈ [[(1 : UInt8), 97]], value.length < 2 ^ 32 := by simp
  have hshort : ∀ value ∈ [[(97 : UInt8)]], value.length < 2 ^ 32 := by simp
  exact absurd ((putLengthPrefixedSlice_inj hlong hshort).2.2 heq) (by decide)

end PersistTree
