import GraphJournal.Proofs.VarintAnswers
import GraphJournal.Writer

/-!
# The length of a varint

The encoding of a number is the shortest of all byte strings that are read as this number, and the
only one of its length. How long it is follows from the number of bits, seven to a byte. What a
decoder makes of longer encodings is NOT treated here, only that they are longer.
-/
namespace GraphJournal.Varint

set_option autoImplicit false

/-- No byte string that is read as the same number takes fewer bytes. -/
def Shortest (v : UInt64) (n : Nat) : Prop :=
  ∀ (bytes : Bytes) (offset m : Nat), decode bytes offset = .ok (v, m) → n ≤ m

/-- What is promised of the encoding of a number, whatever has been written before it. -/
structure Minimal (v : UInt64) : Prop where
  appended : ∀ w : Writer, (w.varint v).bytes = w.bytes ++ encode v
  length : (encode v).length = size v
  bounds : 1 ≤ size v ∧ size v ≤ 10
  back : ∀ (rest : Bytes) (offset : Nat), decode (encode v ++ rest) offset = .ok (v, size v)
  shortest : Shortest v (size v)
  only : ∀ (bytes : Bytes) (offset n : Nat), decode bytes offset = .ok (v, n) →
    (n = size v ↔ bytes.take n = encode v)

section Size

theorem size_pos (v : UInt64) : 0 < size v := Nat.div_pos (Nat.le_add_left 7 _) (by decide)

/-- A number has so many groups at most if it is below that power of 128. -/
theorem size_le_succ_iff (v : UInt64) (k : Nat) : size v ≤ k + 1 ↔ v.toNat < 128 ^ (k + 1) := by
  have bits : size v ≤ k + 1 ↔ v.toNat.log2 < 7 * (k + 1) := by
    rw [size]
    omega
  rw [bits, ← two_pow_seven_mul]
  by_cases zero : v.toNat = 0
  · rw [zero, Nat.log2_zero]
    exact iff_of_true (by omega) (Nat.two_pow_pos _)
  · exact Nat.log2_lt zero

theorem size_le (v : UInt64) : size v ≤ 10 := by
  rw [size_le_succ_iff]
  exact Nat.lt_of_lt_of_le v.toNat_lt (by decide)

theorem length_encode (v : UInt64) : (encode v).length = size v := by
  obtain ⟨cs, b, split, -, -, total, large⟩ := encode_groups v
  have most : size v ≤ cs.length + 1 := by
    have below := weigh_lt (cs ++ [b])
    rw [total, List.length_append] at below
    exact (size_le_succ_iff v cs.length).mpr below
  have least : cs.length + 1 ≤ size v := by
    rcases large with rfl | large
    · exact size_pos v
    · cases count : cs.length with
      | zero => exact size_pos v
      | succ k =>
        rw [count] at large
        have exceeded := mt (size_le_succ_iff v k).mp (Nat.not_lt_of_le large)
        omega
  rw [split, List.length_append]
  exact Nat.le_antisymm least most

end Size

section Accepted

/-- What is read as a number: bytes that go on, and the byte that ends. What stands behind them and
where they stand does not matter. -/
theorem groups_of_decode {bytes : Bytes} {offset n : Nat} {v : UInt64}
    (read : decode bytes offset = .ok (v, n)) :
    ∃ cs b rest, bytes = cs ++ b :: rest ∧ n = cs.length + 1 ∧ Continued cs ∧ b.toNat < 128 ∧
      weigh (cs ++ [b]) = v.toNat ∧
      ∀ place tail, decode (cs ++ b :: tail) place = .ok (v, cs.length + 1) := by
  have whole := List.append_nil bytes
  rcases cases_of_leading bytes with
    ⟨few, there, fits⟩ | ⟨long, nine, large⟩ | ⟨long, ten, fits⟩ | ⟨all, few⟩
  · obtain ⟨w, value, run⟩ := number_case few there fits
    have here := run offset []
    rw [whole, read] at here
    cases here
    have length : (bytes.take (leading bytes)).length = leading bytes :=
      List.length_take_of_le (leading_le bytes)
    have more : Continued (bytes.take (leading bytes)) := continued_take (Nat.le_refl _)
    have ends := getD_leading_lt bytes
    have total : weigh (bytes.take (leading bytes) ++ [bytes.getD (leading bytes) 0]) = v.toNat := by
      rw [value, ← weigh_take, ← List.getElem_eq_getD (h := there), List.take_append_getElem]
    refine ⟨_, _, _, split_at there, congrArg (· + 1) length.symm, more, ends, total, ?_⟩
    exact fun place tail => decode_weighed more (length.symm ▸ few) ends total place tail
  · have here := overflow_case long nine large offset []
    rw [whole, read] at here
    cases here
  · have here := tooLong_case long ten fits offset []
    rw [whole, read] at here
    cases here
  · rw [decode_cut (continued_of_leading all) few] at read
    cases read

theorem take_groups (cs : Bytes) (b : UInt8) (rest : Bytes) :
    (cs ++ b :: rest).take (cs.length + 1) = cs ++ [b] := by
  rw [List.take_length_add_append, List.take_succ_cons, List.take_zero]

/-- The bytes of a number are read alike wherever they stand, and whatever stands behind them. -/
theorem decode_stable {bytes : Bytes} {offset n : Nat} {v : UInt64}
    (read : decode bytes offset = .ok (v, n)) (place : Nat) (tail : Bytes) :
    decode (bytes.take n ++ tail) place = .ok (v, n) := by
  obtain ⟨cs, b, rest, rfl, rfl, -, -, -, run⟩ := groups_of_decode read
  rw [take_groups, List.append_assoc, List.singleton_append]
  exact run place tail

/-- Bytes that go on and a byte that ends are determined by their number and the groups' weight. -/
theorem groups_unique {cs cs' : Bytes} {b b' : UInt8} (more : Continued cs) (more' : Continued cs')
    (ends : b.toNat < 128) (ends' : b'.toNat < 128) (length : cs.length = cs'.length)
    (same : weigh (cs ++ [b]) = weigh (cs' ++ [b'])) : cs ++ [b] = cs' ++ [b'] := by
  induction cs generalizing cs' with
  | nil =>
    obtain rfl := List.length_eq_zero_iff.mp length.symm
    rw [List.nil_append, List.nil_append, weigh_singleton, weigh_singleton] at same
    have equal : b = b' := UInt8.toNat_inj.mp (by omega)
    rw [equal]
  | cons c cs ih =>
    cases cs' with
    | nil => cases length
    | cons c' cs' =>
      obtain ⟨high, others⟩ := List.forall_mem_cons.mp more
      obtain ⟨high', others'⟩ := List.forall_mem_cons.mp more'
      rw [List.cons_append, List.cons_append, weigh_cons, weigh_cons] at same
      have byte := c.toNat_lt
      have byte' := c'.toNat_lt
      have equal : c = c' := UInt8.toNat_inj.mp (by omega)
      have rest := ih others others' (Nat.succ.inj length) (by omega)
      rw [List.cons_append, List.cons_append, equal, rest]

theorem shortest_size (v : UInt64) : Shortest v (size v) := by
  intro bytes offset n read
  obtain ⟨cs, b, rest, -, rfl, -, -, total, -⟩ := groups_of_decode read
  have below := weigh_lt (cs ++ [b])
  rw [total, List.length_append] at below
  exact (size_le_succ_iff v cs.length).mpr below

/-- An encoding of the least length is the one that encoders write. -/
theorem eq_size_iff {bytes : Bytes} {offset n : Nat} {v : UInt64}
    (read : decode bytes offset = .ok (v, n)) : n = size v ↔ bytes.take n = encode v := by
  obtain ⟨cs, b, rest, rfl, rfl, more, ends, total, -⟩ := groups_of_decode read
  obtain ⟨cs', b', split, more', ends', total', -⟩ := encode_groups v
  have length : size v = cs'.length + 1 := by
    rw [← length_encode, split, List.length_append, List.length_singleton]
  rw [take_groups, length, split]
  constructor
  · intro same
    exact groups_unique more more' ends ends' (Nat.succ.inj same) (total.trans total'.symm)
  · intro same
    have both := congrArg List.length same
    rwa [List.length_append, List.length_append] at both

/-- A number stands in its shortest form if and only if it stands there as encoders write it. -/
theorem shortest_iff {bytes : Bytes} {offset n : Nat} {v : UInt64}
    (read : decode bytes offset = .ok (v, n)) : Shortest v n ↔ bytes.take n = encode v := by
  rw [← eq_size_iff read]
  constructor
  · intro least
    have back := decode_encode v [] offset
    rw [length_encode] at back
    exact Nat.le_antisymm (least _ _ _ back) (shortest_size v _ _ _ read)
  · rintro rfl
    exact shortest_size v

end Accepted

/-- For every number, the largest and zero included. -/
theorem encode_minimal (v : UInt64) : Minimal v where
  appended _ := rfl
  length := length_encode v
  bounds := ⟨size_pos v, size_le v⟩
  back rest offset := length_encode v ▸ decode_encode v rest offset
  shortest := shortest_size v
  only _ _ _ read := eq_size_iff read

/-- Five in one byte, and padded to three. -/
example : encode 5 = [5] ∧ decode [0x85, 0x80, 0] 0 = .ok (5, 3) := by
  constructor <;> cbv

end GraphJournal.Varint
