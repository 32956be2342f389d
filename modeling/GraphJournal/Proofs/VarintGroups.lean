import Mathlib.Data.Nat.Digits.Defs
import GraphJournal.Varint

/-!
# Groups of seven bits

The bytes of a varint one by one: what each adds to the number, when they end, and what a decoder
makes of any number of them. The varint of a number is made of as many groups as the number has
digits to the base 128.

How many bytes of a string belong to the varint at its front is NOT treated here.
-/
namespace GraphJournal.Varint

set_option autoImplicit false

section Bits

theorem low_bits (b : UInt8) : (b &&& 0x7f).toNat = b.toNat % 128 := by
  have mask : (0x7f : UInt8).toNat = 2 ^ 7 - 1 := rfl
  rw [UInt8.toNat_and, mask, Nat.and_two_pow_sub_one_eq_mod]

theorem high_bit : ∀ n < 256, UInt8.ofNat n &&& 0x80 = 0 ↔ n < 128 := by
  decide +kernel

theorem ends_iff (b : UInt8) : b &&& 0x80 = 0 ↔ b.toNat < 128 := by
  have bit := high_bit b.toNat b.toNat_lt
  rwa [UInt8.ofNat_toNat] at bit

theorem one_lt_low_bits (b : UInt8) : 1 < b &&& 0x7f ↔ 1 < b.toNat % 128 := by
  rw [UInt8.lt_iff_toNat_lt, low_bits]
  rfl

end Bits

section Weight

/-- The number that the groups of all bytes make, the lowest first. -/
def weigh (bytes : Bytes) : Nat := Nat.ofDigits 128 (bytes.map (·.toNat % 128))

theorem weigh_cons (b : UInt8) (rest : Bytes) :
    weigh (b :: rest) = b.toNat % 128 + 128 * weigh rest := Nat.ofDigits_cons

theorem weigh_singleton (b : UInt8) : weigh [b] = b.toNat % 128 := Nat.ofDigits_singleton

theorem weigh_append (xs ys : Bytes) :
    weigh (xs ++ ys) = weigh xs + 128 ^ xs.length * weigh ys := by
  rw [weigh, List.map_append, Nat.ofDigits_append, List.length_map, weigh, weigh]

theorem weigh_lt (bytes : Bytes) : weigh bytes < 128 ^ bytes.length := by
  rw [← List.length_map (·.toNat % 128)]
  refine Nat.ofDigits_lt_base_pow_length (by decide) fun group h => ?_
  obtain ⟨b, -, rfl⟩ := List.mem_map.mp h
  exact Nat.mod_lt _ (by decide)

/-- Every byte says that another one follows. -/
def Continued (bytes : Bytes) : Prop := ∀ b ∈ bytes, 128 ≤ b.toNat

theorem Continued.cons {b : UInt8} {cs : Bytes} (high : 128 ≤ b.toNat) (more : Continued cs) :
    Continued (b :: cs) :=
  List.forall_mem_cons.mpr ⟨high, more⟩

end Weight

section Decode
variable {cs : Bytes} {b : UInt8} {index : Nat}

/-- The value with the group of one more byte. -/
def addGroup (index : Nat) (value : UInt64) (b : UInt8) : UInt64 :=
  value ||| (b &&& 0x7f).toUInt64 <<< UInt64.ofNat (7 * index)

/-- One byte of a varint, in numbers. -/
theorem decodeGroups_cons (few : index < maxLength) (offset : Nat) (value : UInt64) (b : UInt8)
    (rest : Bytes) :
    decodeGroups offset index value (b :: rest) =
      if index = 9 ∧ 1 < b.toNat % 128 then .error (.serialization .varintOverflow)
      else if b.toNat < 128 then .ok (addGroup index value b, index + 1)
      else decodeGroups offset (index + 1) (addGroup index value b) rest := by
  rw [decodeGroups, if_neg (Nat.ne_of_lt few)]
  simp only [one_lt_low_bits, ends_iff]
  rfl

theorem decodeGroups_full (offset : Nat) (value : UInt64) (rest : Bytes) :
    decodeGroups offset maxLength value rest = .error (.serialization .varintTooLong) := by
  rw [decodeGroups.eq_def, if_pos rfl]

/-- One more group of seven bits goes on top of those that were read. -/
theorem toNat_or_group {acc : UInt64} {group : UInt8} {index : Nat}
    (low : acc.toNat < 2 ^ (7 * index)) (fits : group.toNat * 2 ^ (7 * index) < 2 ^ 64)
    (few : index < maxLength) :
    (acc ||| group.toUInt64 <<< UInt64.ofNat (7 * index)).toNat =
      acc.toNat + group.toNat * 2 ^ (7 * index) := by
  have shift : (UInt64.ofNat (7 * index)).toNat % 64 = 7 * index := by
    simp only [maxLength] at few
    rw [UInt64.toNat_ofNat']
    omega
  rw [UInt64.toNat_or, UInt64.toNat_shiftLeft, shift, UInt8.toNat_toUInt64, Nat.shiftLeft_eq,
    Nat.mod_eq_of_lt fits, Nat.or_comm, Nat.mul_comm, ← Nat.two_pow_add_eq_or_of_lt low,
    Nat.add_comm]

theorem toNat_addGroup {value : UInt64} (few : index < maxLength)
    (low : value.toNat < 2 ^ (7 * index)) (fits : ¬ (index = 9 ∧ 1 < b.toNat % 128)) :
    (addGroup index value b).toNat = value.toNat + b.toNat % 128 * 2 ^ (7 * index) := by
  have within : b.toNat % 128 * 2 ^ (7 * index) < 2 ^ 64 := by
    by_cases last : index = 9
    · subst last
      have small : b.toNat % 128 ≤ 1 := by omega
      exact Nat.lt_of_le_of_lt (Nat.mul_le_mul_right _ small) (by decide)
    · have early : 7 * index ≤ 56 := by
        simp only [maxLength] at few
        omega
      calc b.toNat % 128 * 2 ^ (7 * index)
          ≤ 127 * 2 ^ 56 := Nat.mul_le_mul (by omega) (Nat.pow_le_pow_right (by decide) early)
        _ < 2 ^ 64 := by decide
  rw [← low_bits] at within ⊢
  exact toNat_or_group low within few

/-- Bytes that do not end a varint are gone through one by one. -/
theorem decodeGroups_continued (more : Continued cs) {value : UInt64}
    (few : index + cs.length < maxLength) (low : value.toNat < 2 ^ (7 * index)) :
    ∃ value' : UInt64, value'.toNat = value.toNat + weigh cs * 2 ^ (7 * index) ∧
      ∀ offset rest, decodeGroups offset index value (cs ++ rest) =
        decodeGroups offset (index + cs.length) value' rest := by
  induction cs generalizing index value with
  | nil => exact ⟨value, by simp [weigh], fun _ _ => rfl⟩
  | cons b cs ih =>
    rw [List.length_cons] at few
    have here : index < maxLength := by omega
    have fits : ¬ (index = 9 ∧ 1 < b.toNat % 128) := by
      simp only [maxLength] at few
      omega
    have added := toNat_addGroup here low fits
    have power : 2 ^ (7 * (index + 1)) = 128 * 2 ^ (7 * index) := by
      rw [Nat.mul_succ, Nat.pow_add, Nat.mul_comm]
    have group : b.toNat % 128 * 2 ^ (7 * index) ≤ 127 * 2 ^ (7 * index) :=
      Nat.mul_le_mul_right _ (by omega)
    obtain ⟨high, others⟩ := List.forall_mem_cons.mp more
    obtain ⟨value', total, run⟩ := ih others
      (by omega : index + 1 + cs.length < maxLength) (by rw [added, power]; omega)
    refine ⟨value', ?_, fun offset rest => ?_⟩
    · rw [total, added, power, weigh_cons]
      grind
    · rw [List.cons_append, decodeGroups_cons here, if_neg fits,
        if_neg (Nat.not_lt_of_le high), run, List.length_cons, Nat.add_assoc,
        Nat.add_comm 1]

theorem decode_continued (more : Continued cs) (few : cs.length < maxLength) :
    ∃ value : UInt64, value.toNat = weigh cs ∧
      ∀ offset rest, decode (cs ++ rest) offset = decodeGroups offset cs.length value rest := by
  have start : (0 : UInt64).toNat < 2 ^ (7 * 0) := by decide
  obtain ⟨value, total, run⟩ := decodeGroups_continued more (by rwa [Nat.zero_add]) start
  refine ⟨value, by simpa using total, fun offset rest => ?_⟩
  rw [decode, run, Nat.zero_add]

theorem two_pow_seven_mul (n : Nat) : 2 ^ (7 * n) = 128 ^ n := Nat.pow_mul 2 7 n

/-- Groups that a byte with its high bit clear ends: their number, whatever follows. -/
theorem decode_ended (more : Continued cs) (few : cs.length < maxLength) (ends : b.toNat < 128)
    (fits : ¬ (cs.length = 9 ∧ 1 < b.toNat % 128)) :
    ∃ v : UInt64, v.toNat = weigh (cs ++ [b]) ∧
      ∀ offset rest, decode (cs ++ b :: rest) offset = .ok (v, cs.length + 1) := by
  obtain ⟨value, total, run⟩ := decode_continued more few
  have low : value.toNat < 2 ^ (7 * cs.length) := by
    rw [total, two_pow_seven_mul]
    exact weigh_lt cs
  refine ⟨addGroup cs.length value b, ?_, fun offset rest => ?_⟩
  · rw [toNat_addGroup few low fits, total, two_pow_seven_mul, weigh_append, weigh_singleton,
      Nat.mul_comm]
  · rw [run, decodeGroups_cons few, if_neg fits, if_pos ends]

/-- Groups that weigh as much as a number are read as this number. -/
theorem decode_weighed {v : UInt64} (more : Continued cs) (few : cs.length < maxLength)
    (ends : b.toNat < 128) (total : weigh (cs ++ [b]) = v.toNat) (offset : Nat) (rest : Bytes) :
    decode (cs ++ b :: rest) offset = .ok (v, cs.length + 1) := by
  have bound := v.toNat_lt
  have fits : ¬ (cs.length = 9 ∧ 1 < b.toNat % 128) := by
    rintro ⟨nine, large⟩
    rw [weigh_append, weigh_singleton, nine] at total
    omega
  obtain ⟨w, value, run⟩ := decode_ended more few ends fits
  have same : w = v := UInt64.toNat_inj.mp (value.trans total)
  rw [run, same]

theorem decode_overflow (more : Continued cs) (nine : cs.length = 9) (large : 1 < b.toNat % 128)
    (offset : Nat) (rest : Bytes) :
    decode (cs ++ b :: rest) offset = .error (.serialization .varintOverflow) := by
  have few : cs.length < maxLength := by
    rw [nine]
    decide
  obtain ⟨value, -, run⟩ := decode_continued more few
  rw [run, decodeGroups_cons few, if_pos ⟨nine, large⟩]

theorem decode_tooLong (more : Continued cs) (nine : cs.length = 9) (fits : b.toNat % 128 ≤ 1)
    (goes : 128 ≤ b.toNat) (offset : Nat) (rest : Bytes) :
    decode (cs ++ b :: rest) offset = .error (.serialization .varintTooLong) := by
  have few : cs.length < maxLength := by
    rw [nine]
    decide
  obtain ⟨value, -, run⟩ := decode_continued more few
  rw [run, decodeGroups_cons few, if_neg (fun large => Nat.not_lt_of_le fits large.2),
    if_neg (Nat.not_lt_of_le goes), nine]
  exact decodeGroups_full _ _ _

/-- The beginning of a number, and nothing behind it. -/
theorem decode_cut (more : Continued cs) (few : cs.length < maxLength) (offset : Nat) :
    decode cs offset = .error (.truncated (offset + cs.length)) := by
  obtain ⟨value, -, run⟩ := decode_continued more few
  have all := run offset []
  rw [List.append_nil] at all
  rw [all, decodeGroups, if_neg (Nat.ne_of_lt few)]

end Decode

section Encode

theorem encode_small {v : UInt64} (small : v < 0x80) : encode v = [v.toUInt8] := by
  rw [encode, if_pos small]

theorem encode_large {v : UInt64} (large : ¬ v < 0x80) :
    encode v = (v.toUInt8 ||| 0x80) :: encode (v >>> 7) := by
  rw [encode, if_neg large]

/-- The high bit of a byte when it is set, and the low bits that are left as they were. -/
theorem marked : ∀ n < 256,
    128 ≤ (UInt8.ofNat n ||| 0x80).toNat ∧ (UInt8.ofNat n ||| 0x80).toNat % 128 = n % 128 := by
  decide +kernel

theorem toNat_marked (v : UInt64) :
    128 ≤ (v.toUInt8 ||| 0x80).toNat ∧ (v.toUInt8 ||| 0x80).toNat % 128 = v.toNat % 128 := by
  have byte : v.toUInt8 = UInt8.ofNat (v.toNat % 256) := by
    apply UInt8.toNat_inj.mp
    rw [UInt64.toNat_toUInt8, UInt8.toNat_ofNat']
    omega
  obtain ⟨high, low⟩ := marked (v.toNat % 256) (Nat.mod_lt _ (by decide))
  rw [byte]
  exact ⟨high, by omega⟩

/-- The varint of a number: its groups, the last of which is not empty unless it is the only one. -/
theorem encode_groups (v : UInt64) : ∃ cs b, encode v = cs ++ [b] ∧ Continued cs ∧ b.toNat < 128 ∧
    weigh (cs ++ [b]) = v.toNat ∧ (cs = [] ∨ 128 ^ cs.length ≤ v.toNat) := by
  induction v using encode.induct with
  | case1 v small =>
    have small' : v.toNat < 128 := UInt64.lt_iff_toNat_lt.mp small
    have byte : v.toUInt8.toNat = v.toNat := by
      rw [UInt64.toNat_toUInt8, Nat.mod_eq_of_lt (by omega)]
    refine ⟨[], v.toUInt8, encode_small small, nofun, byte ▸ small', ?_, Or.inl rfl⟩
    rw [List.nil_append, weigh_singleton, byte, Nat.mod_eq_of_lt small']
  | case2 v large ih =>
    have large' : 128 ≤ v.toNat := Nat.le_of_not_lt fun h => large (UInt64.lt_iff_toNat_lt.mpr h)
    have rest : (v >>> 7).toNat = v.toNat / 128 := by
      simp only [UInt64.toNat_shiftRight, UInt64.reduceToNat, Nat.reduceMod,
        Nat.shiftRight_eq_div_pow]
    obtain ⟨cs, b, split, more, ends, total, size⟩ := ih
    obtain ⟨high, low⟩ := toNat_marked v
    refine ⟨(v.toUInt8 ||| 0x80) :: cs, b, ?_, more.cons high, ends, ?_, Or.inr ?_⟩
    · rw [encode_large large, split, List.cons_append]
    · rw [List.cons_append, weigh_cons, low, total, rest, Nat.mod_add_div]
    · rw [List.length_cons, Nat.pow_succ]
      rcases size with rfl | size
      · exact large'
      · rw [rest] at size
        exact Nat.le_trans (Nat.mul_le_mul_right 128 size) (Nat.div_mul_le_self _ _)

/-- A varint is read back, whatever stands behind it. -/
theorem decode_encode (v : UInt64) (rest : Bytes) (offset : Nat) :
    decode (encode v ++ rest) offset = .ok (v, (encode v).length) := by
  obtain ⟨cs, b, split, more, ends, total, size⟩ := encode_groups v
  have bound := v.toNat_lt
  have few : cs.length < maxLength := by
    rcases size with rfl | size
    · decide
    · have power : 128 ^ cs.length < 128 ^ maxLength := by
        simp only [maxLength]
        omega
      exact (Nat.pow_lt_pow_iff_right (by decide)).mp power
  rw [split, List.append_assoc, List.singleton_append, decode_weighed more few ends total,
    List.length_append, List.length_singleton]

end Encode

end GraphJournal.Varint
