import Mathlib.Algebra.BigOperators.Ring.Finset
import Mathlib.Data.List.TakeWhile
import GraphJournal.Proofs.VarintGroups

/-!
# What a varint decoder answers

All that can stand at the front of a byte string, by the number of bytes that begin it with their
high bits set: a number, a number too large, a number too long, or the beginning of a number. Three
of the four answers do not change when bytes are added, and the fourth always can.

Which of the encodings of a number is the shortest is NOT treated here.
-/
namespace GraphJournal.Varint

set_option autoImplicit false

/-- The number of leading bytes with the high bit set: each says that another one follows. -/
def leading (bytes : Bytes) : Nat := (bytes.takeWhile fun b => 128 ≤ b.toNat).length

/-- The seven low bits of the byte at `i`. -/
def groupAt (bytes : Bytes) (i : Nat) : Nat := (bytes.getD i 0).toNat % 128

/-- The number that the first `n` groups make, the lowest first. -/
def sumOfGroups (bytes : Bytes) (n : Nat) : Nat := ∑ i ∈ Finset.range n, groupAt bytes i * 128 ^ i

/-- What `decode` answers about `bytes`, for each of the cases that there are. -/
structure Classified (bytes : Bytes) (offset : Nat) : Prop where
  number : leading bytes < 10 → leading bytes < bytes.length →
    ¬ (leading bytes = 9 ∧ 1 < groupAt bytes 9) →
      ∃ v : UInt64, decode bytes offset = .ok (v, leading bytes + 1) ∧
        v.toNat = sumOfGroups bytes (leading bytes + 1) ∧
        sumOfGroups bytes (leading bytes + 1) < 2 ^ 64
  overflow : 10 ≤ bytes.length → 9 ≤ leading bytes → 1 < groupAt bytes 9 →
    decode bytes offset = .error (.serialization .varintOverflow)
  tooLong : 10 ≤ bytes.length → 10 ≤ leading bytes → groupAt bytes 9 ≤ 1 →
    decode bytes offset = .error (.serialization .varintTooLong)
  cut : leading bytes = bytes.length → bytes.length < 10 →
    decode bytes offset = .error (.truncated (offset + bytes.length))
  /-- There is no other case. -/
  total : (leading bytes < 10 ∧ leading bytes < bytes.length ∧
      ¬ (leading bytes = 9 ∧ 1 < groupAt bytes 9)) ∨
    (10 ≤ bytes.length ∧ 9 ≤ leading bytes ∧ 1 < groupAt bytes 9) ∨
    (10 ≤ bytes.length ∧ 10 ≤ leading bytes ∧ groupAt bytes 9 ≤ 1) ∨
    (leading bytes = bytes.length ∧ bytes.length < 10)
  /-- Bytes behind an answer change nothing about it, unless it was that bytes are missing. -/
  stable : (∀ place, decode bytes offset ≠ .error (.truncated place)) →
    ∀ more, decode (bytes ++ more) offset = decode bytes offset
  /-- What is missing can be supplied. -/
  completable : ∀ place, decode bytes offset = .error (.truncated place) →
    ∃ more v n, decode (bytes ++ more) offset = .ok (v, n)

section Groups

theorem sumOfGroups_nil (n : Nat) : sumOfGroups [] n = 0 :=
  Finset.sum_eq_zero fun _ _ => Nat.zero_mul _

theorem sumOfGroups_cons (b : UInt8) (rest : Bytes) (n : Nat) :
    sumOfGroups (b :: rest) (n + 1) = b.toNat % 128 + 128 * sumOfGroups rest n := by
  have first : groupAt (b :: rest) 0 * 128 ^ 0 = b.toNat % 128 := Nat.mul_one _
  rw [sumOfGroups, Finset.sum_range_succ', first, Nat.add_comm, sumOfGroups, Finset.mul_sum]
  congr 1
  refine Finset.sum_congr rfl fun i _ => ?_
  rw [Nat.pow_succ', Nat.mul_left_comm]
  rfl

theorem weigh_take (bytes : Bytes) (n : Nat) : weigh (bytes.take n) = sumOfGroups bytes n := by
  induction n generalizing bytes with
  | zero => rfl
  | succ n ih =>
    cases bytes with
    | nil => rw [sumOfGroups_nil]; rfl
    | cons b rest => rw [List.take_succ_cons, weigh_cons, ih, sumOfGroups_cons]

end Groups

section Split
variable {bytes : Bytes} {n : Nat}

theorem leading_cons_of_lt {b : UInt8} (rest : Bytes) (h : b.toNat < 128) :
    leading (b :: rest) = 0 := by
  rw [leading, List.takeWhile_cons_of_neg (by simpa using h)]
  rfl

theorem leading_cons_of_ge {b : UInt8} (rest : Bytes) (h : 128 ≤ b.toNat) :
    leading (b :: rest) = leading rest + 1 := by
  rw [leading, List.takeWhile_cons_of_pos (by simpa using h)]
  rfl

theorem leading_le (bytes : Bytes) : leading bytes ≤ bytes.length :=
  (List.takeWhile_prefix _).length_le

theorem continued_take (h : n ≤ leading bytes) : Continued (bytes.take n) := by
  intro b hb
  rw [← List.takeWhile_append_dropWhile (p := fun b => 128 ≤ b.toNat) (l := bytes),
    List.take_append_of_le_length h] at hb
  have marked := List.mem_takeWhile_imp (List.mem_of_mem_take hb)
  exact of_decide_eq_true marked

/-- The byte behind the leading ones has its high bit clear. -/
theorem getD_leading_lt (bytes : Bytes) : (bytes.getD (leading bytes) 0).toNat < 128 := by
  induction bytes with
  | nil => decide
  | cons b rest ih =>
    by_cases h : 128 ≤ b.toNat
    · rw [leading_cons_of_ge rest h, List.getD_cons_succ]
      exact ih
    · rw [leading_cons_of_lt rest (Nat.lt_of_not_le h), List.getD_cons_zero]
      exact Nat.lt_of_not_le h

theorem le_getD_of_lt_leading (h : n < leading bytes) : 128 ≤ (bytes.getD n 0).toNat := by
  have inside : n < (bytes.take (n + 1)).length := by
    rw [List.length_take]
    have := leading_le bytes
    omega
  have there := continued_take h _ (List.getElem_mem inside)
  rwa [List.getElem_take, List.getElem_eq_getD 0] at there

theorem split_at (h : n < bytes.length) :
    bytes = bytes.take n ++ bytes.getD n 0 :: bytes.drop (n + 1) := by
  rw [← List.getElem_eq_getD (h := h), ← List.drop_eq_getElem_cons h, List.take_append_drop]

end Split

section Cases
variable {bytes : Bytes}

theorem number_case (few : leading bytes < 10) (there : leading bytes < bytes.length)
    (fits : ¬ (leading bytes = 9 ∧ 1 < groupAt bytes 9)) :
    ∃ v : UInt64, v.toNat = sumOfGroups bytes (leading bytes + 1) ∧
      ∀ offset more, decode (bytes ++ more) offset = .ok (v, leading bytes + 1) := by
  have length : (bytes.take (leading bytes)).length = leading bytes :=
    List.length_take_of_le (leading_le bytes)
  have fits' : ¬ ((bytes.take (leading bytes)).length = 9 ∧
      1 < (bytes.getD (leading bytes) 0).toNat % 128) := by
    rintro ⟨nine, large⟩
    rw [length] at nine
    rw [nine] at large
    exact fits ⟨nine, large⟩
  have split := split_at there
  obtain ⟨v, value, run⟩ := decode_ended (continued_take (Nat.le_refl _))
    (by rwa [length] : (bytes.take (leading bytes)).length < maxLength) (getD_leading_lt bytes) fits'
  have front : bytes.take (leading bytes + 1) =
      bytes.take (leading bytes) ++ [bytes.getD (leading bytes) 0] := by
    rw [← List.getElem_eq_getD (h := there), List.take_append_getElem]
  refine ⟨v, ?_, fun offset more => ?_⟩
  · rw [value, ← front, weigh_take]
  · rw [split, List.append_assoc, List.cons_append, run, length, ← split]

theorem overflow_case (long : 10 ≤ bytes.length) (nine : 9 ≤ leading bytes)
    (large : 1 < groupAt bytes 9) (offset : Nat) (more : Bytes) :
    decode (bytes ++ more) offset = .error (.serialization .varintOverflow) := by
  rw [split_at (Nat.lt_of_succ_le long), List.append_assoc, List.cons_append]
  exact decode_overflow (continued_take nine) (List.length_take_of_le (by omega)) large _ _

theorem tooLong_case (long : 10 ≤ bytes.length) (ten : 10 ≤ leading bytes)
    (fits : groupAt bytes 9 ≤ 1) (offset : Nat) (more : Bytes) :
    decode (bytes ++ more) offset = .error (.serialization .varintTooLong) := by
  rw [split_at (Nat.lt_of_succ_le long), List.append_assoc, List.cons_append]
  exact decode_tooLong (continued_take (by omega)) (List.length_take_of_le (by omega)) fits
    (le_getD_of_lt_leading (Nat.lt_of_succ_le ten)) _ _

theorem continued_of_leading (all : leading bytes = bytes.length) : Continued bytes := by
  have whole : Continued (bytes.take bytes.length) := continued_take (Nat.le_of_eq all.symm)
  rwa [List.take_length] at whole

theorem cases_of_leading (bytes : Bytes) :
    (leading bytes < 10 ∧ leading bytes < bytes.length ∧
      ¬ (leading bytes = 9 ∧ 1 < groupAt bytes 9)) ∨
    (10 ≤ bytes.length ∧ 9 ≤ leading bytes ∧ 1 < groupAt bytes 9) ∨
    (10 ≤ bytes.length ∧ 10 ≤ leading bytes ∧ groupAt bytes 9 ≤ 1) ∨
    (leading bytes = bytes.length ∧ bytes.length < 10) := by
  have le := leading_le bytes
  omega

/-- Either the answer is there whatever follows, or all bytes say that another one follows. -/
theorem settled_or_cut (bytes : Bytes) :
    (∃ answer : Except Error (UInt64 × Nat), (∀ place, answer ≠ .error (.truncated place)) ∧
      ∀ offset more, decode (bytes ++ more) offset = answer) ∨
    (Continued bytes ∧ bytes.length < maxLength) := by
  rcases cases_of_leading bytes with
    ⟨few, there, fits⟩ | ⟨long, nine, large⟩ | ⟨long, ten, fits⟩ | ⟨all, few⟩
  · obtain ⟨v, -, run⟩ := number_case few there fits
    refine Or.inl ⟨_, ?_, run⟩
    nofun
  · refine Or.inl ⟨_, ?_, overflow_case long nine large⟩
    nofun
  · refine Or.inl ⟨_, ?_, tooLong_case long ten fits⟩
    nofun
  · exact Or.inr ⟨continued_of_leading all, few⟩

/-- Bytes are missing behind those that are there. -/
theorem place_of_truncated {offset place : Nat}
    (missing : decode bytes offset = .error (.truncated place)) : place = offset + bytes.length := by
  rcases settled_or_cut bytes with ⟨answer, settled, run⟩ | ⟨more, few⟩
  · have here := run offset []
    rw [List.append_nil, missing] at here
    exact absurd here.symm (settled place)
  · rw [decode_cut more few] at missing
    cases missing
    rfl

end Cases

/-- For every byte string, wherever it stands. -/
theorem decode_classified (bytes : Bytes) (offset : Nat) : Classified bytes offset := by
  have ofAll {answer : Except Error (UInt64 × Nat)}
      (all : ∀ more, decode (bytes ++ more) offset = answer) : decode bytes offset = answer := by
    have none := all []
    rwa [List.append_nil] at none
  refine ⟨?_, ?_, ?_, ?_, cases_of_leading bytes, ?_, ?_⟩
  · intro few there fits
    obtain ⟨v, value, run⟩ := number_case few there fits
    exact ⟨v, ofAll (run offset), value, value ▸ v.toNat_lt⟩
  · exact fun long nine large => ofAll (overflow_case long nine large offset)
  · exact fun long ten fits => ofAll (tooLong_case long ten fits offset)
  · exact fun all few => decode_cut (continued_of_leading all) few offset
  · intro answered more
    rcases settled_or_cut bytes with ⟨answer, -, run⟩ | ⟨more, few⟩
    · rw [run, ofAll (run offset)]
    · exact absurd (decode_cut more few offset) (answered _)
  · intro place missing
    rcases settled_or_cut bytes with ⟨answer, settled, run⟩ | ⟨more, few⟩
    · rw [ofAll (run offset)] at missing
      exact absurd missing (settled place)
    · -- an empty group ends the number, also as its tenth
      obtain ⟨v, -, run⟩ := decode_ended (b := 0) more few (by decide)
        (fun large => absurd large.2 (by decide))
      exact ⟨[0], v, _, run offset []⟩

/-- A number padded with an empty group. -/
example : decode [0x85, 0x80, 0, 0xff] 7 = .ok (5, 3) := by rfl

end GraphJournal.Varint
