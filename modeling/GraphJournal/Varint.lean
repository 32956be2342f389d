import GraphJournal.Error

/-!
Varints: a 64-bit number as groups of seven bits, the lowest first, one byte each. Every byte but
the last has its high bit set. A small number, such as the key of a child, takes one byte.

A decoder accepts a number that is padded with empty groups as long as it ends within ten bytes.
-/
namespace GraphJournal.Varint

/-- The longest varint: nine groups of seven bits and the one bit that is left. -/
def maxLength : Nat := 10

theorem shiftRight_seven_lt {value : UInt64} (h : ¬ value < 0x80) :
    (value >>> 7).toNat < value.toNat := by
  have hv : 128 ≤ value.toNat := by simpa [UInt64.lt_iff_toNat_lt] using h
  simp only [UInt64.toNat_shiftRight, UInt64.reduceToNat, Nat.reduceMod, Nat.shiftRight_eq_div_pow]
  omega

/-- The varint of `value`, in as few bytes as possible. -/
def encode (value : UInt64) : Bytes :=
  if value < 0x80 then [value.toUInt8]
  else (value.toUInt8 ||| 0x80) :: encode (value >>> 7)
termination_by value.toNat
decreasing_by exact shiftRight_seven_lt ‹_›

/-- The length of the varint of `value`: one byte for each seven bits begun. -/
def size (value : UInt64) : Nat :=
  (value.toNat.log2 + 7) / 7

/-- Reads the group at `index` and those after it, and adds them to the groups before, which make
`value`. -/
def decodeGroups (offset : Nat) (index : Nat) (value : UInt64) (bytes : Bytes) :
    Except Error (UInt64 × Nat) :=
  if index = maxLength then .error (.serialization .varintTooLong)
  else
    match bytes with
    | [] => .error (.truncated (offset + index))
    | byte :: rest =>
      let group := byte &&& 0x7f
      if index = maxLength - 1 ∧ 1 < group then .error (.serialization .varintOverflow)
      else
        let value := value ||| group.toUInt64 <<< (UInt64.ofNat (7 * index))
        if byte &&& 0x80 = 0 then .ok (value, index + 1)
        else decodeGroups offset (index + 1) value rest

/-- The varint at the front of `bytes` and the number of bytes it takes. The bytes start at
`offset` of a string in memory, from which an error for missing bytes is told. -/
def decode (bytes : Bytes) (offset : Nat) : Except Error (UInt64 × Nat) :=
  decodeGroups offset 0 0 bytes

theorem used_le_of_decodeGroups {offset index : Nat} {value v : UInt64} {bytes : Bytes} {n : Nat}
    (h : decodeGroups offset index value bytes = .ok (v, n)) :
    index < n ∧ n ≤ index + bytes.length := by
  induction bytes generalizing index value with
  | nil =>
    rw [decodeGroups] at h
    split at h <;> cases h
  | cons byte rest ih =>
    rw [decodeGroups] at h
    split at h
    · cases h
    · dsimp only at h
      split at h
      · cases h
      · split at h
        · cases h
          simp
        · have := ih h
          simp only [List.length_cons]
          omega

/-- A decoded varint takes at least one byte, and no more than there are. -/
theorem used_le_of_decode {bytes : Bytes} {offset : Nat} {v : UInt64} {n : Nat}
    (h : decode bytes offset = .ok (v, n)) : 0 < n ∧ n ≤ bytes.length := by
  have := used_le_of_decodeGroups h
  omega

end GraphJournal.Varint
