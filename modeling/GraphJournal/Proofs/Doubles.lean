import GraphJournal.MessagePack.Binary64
import Mathlib.Algebra.Order.Ring.Nat
import Mathlib.Data.Nat.Dist
import Mathlib.Tactic.Ring

/-!
# Doubles as numbers

What a double stands for, in units of the least one above zero, so that a whole number says it. A
single is read as the double of its own value. A whole number is read as a double that no other double
is nearer to, and of two that are as near, as the one with the even significand.

What is not a number is NOT given a value here, and no arithmetic is done on doubles.
-/
namespace GraphJournal.Binary64

set_option autoImplicit false

/-- What the bits below the sign stand for in a format with `width` bits of fraction, in units of the
least number above zero. -/
def units (width magnitude : Nat) : Nat :=
  if magnitude / 2 ^ width = 0 then magnitude % 2 ^ width
  else (2 ^ width + magnitude % 2 ^ width) * 2 ^ (magnitude / 2 ^ width - 1)

/-- How many units of a double make one of a single, as a power of two. -/
def unitsInSingle : Nat := 925

def magnitude (x : Binary64) : Nat := x.bits.toNat % 2 ^ 63

def negative (x : Binary64) : Bool := decide (2 ^ 63 ≤ x.bits.toNat)

/-- A significand without its first bit, under its exponent. One bit too many carries over. -/
theorem units_normal {width exponent significand : Nat} (low : 2 ^ width ≤ significand)
    (high : significand ≤ 2 * 2 ^ width) :
    units width ((exponent + 1) * 2 ^ width + (significand - 2 ^ width)) =
      significand * 2 ^ exponent := by
  have positive : 0 < 2 ^ width := Nat.two_pow_pos width
  rcases Nat.lt_or_eq_of_le high with fits | carries
  · have small : significand - 2 ^ width < 2 ^ width := by omega
    have above : ((exponent + 1) * 2 ^ width + (significand - 2 ^ width)) / 2 ^ width =
        exponent + 1 := by
      rw [Nat.mul_comm, Nat.mul_add_div positive, Nat.div_eq_of_lt small, Nat.add_zero]
    have below : ((exponent + 1) * 2 ^ width + (significand - 2 ^ width)) % 2 ^ width =
        significand - 2 ^ width := by
      rw [Nat.mul_comm, Nat.mul_add_mod, Nat.mod_eq_of_lt small]
    rw [units, above, below, if_neg (Nat.succ_ne_zero exponent), Nat.add_sub_cancel,
      Nat.add_sub_cancel' low]
  · have whole : (exponent + 1) * 2 ^ width + (significand - 2 ^ width) =
        (exponent + 2) * 2 ^ width := by
      rw [carries, show exponent + 2 = exponent + 1 + 1 from rfl, Nat.succ_mul (exponent + 1)]
      omega
    rw [whole, units, Nat.mul_div_cancel _ positive, Nat.mul_mod_left,
      if_neg (Nat.succ_ne_zero _), carries, Nat.add_zero, Nat.add_sub_assoc (by decide), Nat.pow_succ]
    ring

theorem units_eq (width magnitude : Nat) :
    ∃ significand exponent, significand < 2 ^ (width + 1) ∧
      units width magnitude = significand * 2 ^ exponent := by
  have fraction : magnitude % 2 ^ width < 2 ^ width := Nat.mod_lt _ (Nat.two_pow_pos width)
  unfold units
  split
  · exact ⟨magnitude % 2 ^ width, 0, by omega, (Nat.mul_one _).symm⟩
  · exact ⟨2 ^ width + magnitude % 2 ^ width, _, by omega, rfl⟩

/-- Large numbers are apart: from `2 ^ (width + k)` units on they are multiples of `2 ^ k` units. -/
theorem dvd_units {width k magnitude : Nat} (large : 2 ^ (width + k) ≤ units width magnitude) :
    2 ^ k ∣ units width magnitude := by
  obtain ⟨significand, exponent, bound, equal⟩ := units_eq width magnitude
  rw [equal] at large ⊢
  refine Dvd.dvd.mul_left (pow_dvd_pow 2 ?_) significand
  by_contra short
  have below : significand * 2 ^ exponent < 2 ^ (width + k) :=
    calc significand * 2 ^ exponent
      _ < 2 ^ (width + 1) * 2 ^ exponent := Nat.mul_lt_mul_of_pos_right bound (Nat.two_pow_pos _)
      _ = 2 ^ (width + (exponent + 1)) := by rw [← Nat.pow_add]; congr 1; omega
      _ ≤ 2 ^ (width + k) := Nat.pow_le_pow_right (by decide) (by omega)
  omega

section Sign
variable {sign m : Nat} (bit : sign < 2) (fits : m < 2 ^ 63)
include bit fits

theorem toNat_bits : (UInt64.ofNat (sign * signBit + m)).toNat = sign * 2 ^ 63 + m := by
  rw [UInt64.toNat_ofNat', signBit, Nat.one_shiftLeft]
  omega

theorem magnitude_ofBits : magnitude ⟨UInt64.ofNat (sign * signBit + m)⟩ = m := by
  rw [magnitude, toNat_bits bit fits]
  omega

theorem negative_ofBits : negative ⟨UInt64.ofNat (sign * signBit + m)⟩ = decide (sign = 1) := by
  rw [negative, toNat_bits bit fits]
  exact decide_eq_decide.mpr (by omega)

end Sign

/-- The bits of the double below the sign, by the fields of a single. -/
def widened (exponent fraction : Nat) : Nat :=
  if exponent = 0 then
    if fraction = 0 then 0
    else (fraction.log2 + 874) * 2 ^ 52 + (fraction * 2 ^ (52 - fraction.log2) - 2 ^ 52)
  else if exponent = 255 then
    if fraction = 0 then 2047 * 2 ^ 52 else 2047 * 2 ^ 52 + (fraction ||| 2 ^ 22) * 2 ^ 29
  else (exponent + 896) * 2 ^ 52 + fraction * 2 ^ 29

theorem ofSingle_eq (single : UInt32) :
    ofSingle single = ⟨UInt64.ofNat (single.toNat / 2 ^ 31 * signBit +
      widened (single.toNat / 2 ^ 23 % 2 ^ 8) (single.toNat % 2 ^ 23))⟩ := by
  simp only [ofSingle, widened, Nat.shiftLeft_eq, Nat.shiftRight_eq_div_pow, Nat.one_mul,
    Nat.reducePow]

/-- What is shifted to the top has as many bits as a significand. -/
theorem shifted_bounds {width n : Nat} (nonzero : n ≠ 0) (fits : n.log2 ≤ width) :
    2 ^ width ≤ n * 2 ^ (width - n.log2) ∧ n * 2 ^ (width - n.log2) < 2 * 2 ^ width := by
  have low := Nat.mul_le_mul_right (2 ^ (width - n.log2)) (Nat.log2_self_le nonzero)
  have high := Nat.mul_lt_mul_of_pos_right (Nat.lt_log2_self (n := n))
    (Nat.two_pow_pos (width - n.log2))
  rw [← Nat.pow_add] at low high
  rw [show n.log2 + (width - n.log2) = width by omega] at low
  rw [show n.log2 + 1 + (width - n.log2) = width + 1 by omega, Nat.pow_succ'] at high
  exact ⟨low, high⟩

section Widened
variable {exponent fraction : Nat} (bits : fraction < 2 ^ 23)
include bits

theorem log2_fraction (nonzero : fraction ≠ 0) : fraction.log2 < 23 :=
  (Nat.log2_lt nonzero).mpr bits

theorem widened_lt (byte : exponent < 2 ^ 8) : widened exponent fraction < 2 ^ 63 := by
  unfold widened
  split
  · split
    · decide
    · rename_i nonzero
      have short : fraction.log2 ≤ 52 := by
        have := log2_fraction bits nonzero
        omega
      have := (shifted_bounds nonzero short).2
      omega
  · split
    · split
      · decide
      · have : fraction ||| 2 ^ 22 < 2 ^ 23 := Nat.or_lt_two_pow bits (by decide)
        omega
    · omega

theorem units_subnormal (nonzero : fraction ≠ 0) :
    units 52 ((fraction.log2 + 874) * 2 ^ 52 + (fraction * 2 ^ (52 - fraction.log2) - 2 ^ 52)) =
      fraction * 2 ^ unitsInSingle := by
  have short := log2_fraction bits nonzero
  have shift : fraction.log2 ≤ 52 := by omega
  obtain ⟨low, high⟩ := shifted_bounds nonzero shift
  have exponents : 52 - fraction.log2 + (fraction.log2 + 873) = unitsInSingle := by
    rw [unitsInSingle]
    omega
  rw [show fraction.log2 + 874 = fraction.log2 + 873 + 1 from rfl, units_normal low high.le,
    Nat.mul_assoc, ← Nat.pow_add, exponents]

theorem units_widened_normal (positive : 0 < exponent) :
    units 52 ((exponent + 896) * 2 ^ 52 + fraction * 2 ^ 29) =
      (2 ^ 23 + fraction) * 2 ^ (exponent - 1) * 2 ^ unitsInSingle := by
  have low : 2 ^ 52 ≤ (2 ^ 23 + fraction) * 2 ^ 29 := by omega
  have high : (2 ^ 23 + fraction) * 2 ^ 29 ≤ 2 * 2 ^ 52 := by omega
  have split : (exponent + 896) * 2 ^ 52 + fraction * 2 ^ 29 =
      (exponent + 895 + 1) * 2 ^ 52 + ((2 ^ 23 + fraction) * 2 ^ 29 - 2 ^ 52) := by omega
  have exponents : 29 + (exponent + 895) = exponent - 1 + unitsInSingle := by
    rw [unitsInSingle]
    omega
  rw [split, units_normal low high, Nat.mul_assoc, Nat.mul_assoc, ← Nat.pow_add, ← Nat.pow_add,
    exponents]

/-- All finite singles are doubles. -/
theorem units_widened (finite : exponent < 255) :
    units 52 (widened exponent fraction) =
      units 23 (exponent * 2 ^ 23 + fraction) * 2 ^ unitsInSingle := by
  have field : (exponent * 2 ^ 23 + fraction) / 2 ^ 23 = exponent := by omega
  have rest : (exponent * 2 ^ 23 + fraction) % 2 ^ 23 = fraction := by omega
  rw [units.eq_1 23, field, rest]
  unfold widened
  by_cases subnormal : exponent = 0
  · rw [if_pos subnormal, if_pos subnormal]
    by_cases nonzero : fraction = 0
    · rw [if_pos nonzero, nonzero, Nat.zero_mul]
      rfl
    · rw [if_neg nonzero, units_subnormal bits nonzero]
  · rw [if_neg subnormal, if_neg finite.ne, if_neg subnormal,
      units_widened_normal bits (Nat.pos_of_ne_zero subnormal)]

end Widened

/-- A single is read as the double of the same sign and value. -/
theorem ofSingle_exact (single : UInt32) (finite : single.toNat / 2 ^ 23 % 2 ^ 8 ≠ 255) :
    (ofSingle single).negative = decide (2 ^ 31 ≤ single.toNat) ∧
      units 52 (ofSingle single).magnitude = units 23 (single.toNat % 2 ^ 31) * 2 ^ unitsInSingle := by
  have bits := single.toNat_lt
  have byte : single.toNat / 2 ^ 23 % 2 ^ 8 < 2 ^ 8 := Nat.mod_lt _ (by decide)
  have fraction : single.toNat % 2 ^ 23 < 2 ^ 23 := Nat.mod_lt _ (by decide)
  have sign : single.toNat / 2 ^ 31 < 2 := by omega
  have fits := widened_lt fraction byte
  have fields : single.toNat / 2 ^ 23 % 2 ^ 8 * 2 ^ 23 + single.toNat % 2 ^ 23 =
      single.toNat % 2 ^ 31 := by omega
  rw [ofSingle_eq, negative_ofBits sign fits, magnitude_ofBits sign fits,
    units_widened fraction (by omega), fields]
  exact ⟨decide_eq_decide.mpr (by omega), rfl⟩

example : ofSingle 0x3fc00000 = ⟨0x3ff8000000000000⟩ ∧ ofSingle 1 = ⟨0x36a0000000000000⟩ := by
  decide

section Multiples
variable {n unit : Nat} (positive : 0 < unit)
include positive

theorem roundDiv_nearest (k : Nat) :
    Nat.dist (roundDiv n unit * unit) n ≤ Nat.dist (k * unit) n := by
  have split := Nat.div_add_mod n unit
  have short := Nat.mod_lt n positive
  rw [Nat.mul_comm] at split
  have sides : k * unit ≤ n / unit * unit ∨ n / unit * unit + unit ≤ k * unit := by
    rcases Nat.lt_or_ge (n / unit) k with above | below
    · exact Or.inr (Nat.succ_mul _ _ ▸ Nat.mul_le_mul_right unit above)
    · exact Or.inl (Nat.mul_le_mul_right unit below)
  simp only [roundDiv, Nat.dist]
  split_ifs
  · rw [Nat.succ_mul]
    omega
  · omega

/-- If another multiple is as near, the one chosen is even. -/
theorem roundDiv_even {k : Nat} (other : k ≠ roundDiv n unit)
    (tie : Nat.dist (k * unit) n = Nat.dist (roundDiv n unit * unit) n) :
    roundDiv n unit % 2 = 0 := by
  have split := Nat.div_add_mod n unit
  have short := Nat.mod_lt n positive
  rw [Nat.mul_comm] at split
  have sides : k * unit + unit ≤ roundDiv n unit * unit ∨
      roundDiv n unit * unit + unit ≤ k * unit := by
    rw [← Nat.succ_mul, ← Nat.succ_mul]
    rcases Nat.lt_or_gt_of_ne other with below | above
    · exact Or.inl (Nat.mul_le_mul_right unit below)
    · exact Or.inr (Nat.mul_le_mul_right unit above)
  simp only [roundDiv, Nat.dist] at sides tie ⊢
  split_ifs at sides tie ⊢
  · rw [Nat.succ_mul] at sides tie
    omega
  · omega

end Multiples

/-- How many units of a double make one, as a power of two. -/
def unitsInOne : Nat := 1074

/-- The whole number that a double can be and that `n` is read as. -/
def nearest (n : Nat) : Nat :=
  if n.log2 ≤ 52 then n else roundDiv n (2 ^ (n.log2 - 52)) * 2 ^ (n.log2 - 52)

section Whole
variable {n : Nat}

theorem ne_zero_of_large (large : 52 < n.log2) : n ≠ 0 := by
  rintro rfl
  simp at large

theorem roundDiv_bounds (large : 52 < n.log2) :
    2 ^ 52 ≤ roundDiv n (2 ^ (n.log2 - 52)) ∧ roundDiv n (2 ^ (n.log2 - 52)) ≤ 2 * 2 ^ 52 := by
  have low : 2 ^ 52 ≤ n / 2 ^ (n.log2 - 52) := by
    rw [Nat.le_div_iff_mul_le (Nat.two_pow_pos _), ← Nat.pow_add, Nat.add_sub_cancel' large.le]
    exact Nat.log2_self_le (ne_zero_of_large large)
  have high : n / 2 ^ (n.log2 - 52) < 2 * 2 ^ 52 := by
    rw [Nat.div_lt_iff_lt_mul (Nat.two_pow_pos _), ← Nat.pow_succ', ← Nat.pow_add,
      show 52 + 1 + (n.log2 - 52) = n.log2 + 1 by omega]
    exact Nat.lt_log2_self
  simp only [roundDiv]
  split_ifs <;> omega

theorem natBits_small (nonzero : n ≠ 0) (short : n.log2 ≤ 52) :
    natBits n = (n.log2 + 1022 + 1) * 2 ^ 52 + (n * 2 ^ (52 - n.log2) - 2 ^ 52) := by
  simp only [natBits, if_neg nonzero, if_pos short, Nat.shiftLeft_eq, Nat.one_mul]

theorem natBits_large (large : 52 < n.log2) :
    natBits n =
      (n.log2 + 1022 + 1) * 2 ^ 52 + (roundDiv n (2 ^ (n.log2 - 52)) - 2 ^ 52) := by
  simp only [natBits, if_neg (ne_zero_of_large large), if_neg large.not_ge, Nat.shiftLeft_eq,
    Nat.one_mul]

theorem natBits_eq (nonzero : n ≠ 0) : ∃ significand, 2 ^ 52 ≤ significand ∧
    significand ≤ 2 * 2 ^ 52 ∧
    natBits n = (n.log2 + 1022 + 1) * 2 ^ 52 + (significand - 2 ^ 52) ∧
    significand * 2 ^ (n.log2 + 1022) = nearest n * 2 ^ unitsInOne := by
  rcases Nat.lt_or_ge 52 n.log2 with large | short
  · obtain ⟨low, high⟩ := roundDiv_bounds large
    refine ⟨_, low, high, natBits_large large, ?_⟩
    have exponents : n.log2 - 52 + unitsInOne = n.log2 + 1022 := by
      rw [unitsInOne]
      omega
    rw [nearest, if_neg large.not_ge, Nat.mul_assoc, ← Nat.pow_add, exponents]
  · obtain ⟨low, high⟩ := shifted_bounds nonzero short
    refine ⟨_, low, high.le, natBits_small nonzero short, ?_⟩
    have exponents : 52 - n.log2 + (n.log2 + 1022) = unitsInOne := by
      rw [unitsInOne]
      omega
    rw [nearest, if_pos short, Nat.mul_assoc, ← Nat.pow_add, exponents]

theorem units_natBits (n : Nat) : units 52 (natBits n) = nearest n * 2 ^ unitsInOne := by
  by_cases zero : n = 0
  · subst zero
    simp [natBits, nearest, units]
  · obtain ⟨significand, low, high, bits, value⟩ := natBits_eq zero
    rw [bits, units_normal low high, value]

theorem natBits_lt (fits : n < 2 ^ 64) : natBits n < 2 ^ 63 := by
  by_cases zero : n = 0
  · subst zero
    decide
  · obtain ⟨significand, low, high, bits, -⟩ := natBits_eq zero
    have := (Nat.log2_lt zero).mpr fits
    omega

/-- A double is a multiple that could have been chosen, or there is one that is nearer. -/
theorem multiple_or_nearer (large : 52 < n.log2) (m : Nat) :
    ∃ k, units 52 m = k * 2 ^ (n.log2 - 52) * 2 ^ unitsInOne ∨
      Nat.dist (k * 2 ^ (n.log2 - 52)) n * 2 ^ unitsInOne <
        Nat.dist (units 52 m) (n * 2 ^ unitsInOne) := by
  by_cases far : 2 ^ (52 + (n.log2 - 52 + unitsInOne)) ≤ units 52 m
  · obtain ⟨k, multiple⟩ := dvd_units far
    refine ⟨k, Or.inl ?_⟩
    rw [multiple, Nat.pow_add, Nat.mul_comm, Nat.mul_assoc]
  · -- Below all that have as many bits as `n`, the least of these is between the two.
    have least : 2 ^ 52 * 2 ^ (n.log2 - 52) ≤ n := by
      rw [← Nat.pow_add, Nat.add_sub_cancel' large.le]
      exact Nat.log2_self_le (ne_zero_of_large large)
    have between := Nat.mul_le_mul_right (2 ^ unitsInOne) least
    rw [Nat.pow_add, Nat.pow_add, ← Nat.mul_assoc, Nat.not_le] at far
    refine ⟨2 ^ 52, Or.inr ?_⟩
    rw [← Nat.dist_mul_right, Nat.dist, Nat.dist]
    omega

theorem natBits_nearest (n m : Nat) :
    Nat.dist (units 52 (natBits n)) (n * 2 ^ unitsInOne) ≤
      Nat.dist (units 52 m) (n * 2 ^ unitsInOne) := by
  rw [units_natBits, Nat.dist_mul_right]
  unfold nearest
  split
  · rw [Nat.dist_self, Nat.zero_mul]
    exact Nat.zero_le _
  · rename_i large
    obtain ⟨k, multiple | nearer⟩ := multiple_or_nearer (Nat.lt_of_not_le large) m
    · rw [multiple, Nat.dist_mul_right]
      exact Nat.mul_le_mul_right _ (roundDiv_nearest (Nat.two_pow_pos _) k)
    · exact (Nat.mul_le_mul_right _ (roundDiv_nearest (Nat.two_pow_pos _) k)).trans nearer.le

theorem natBits_even {m : Nat} (other : units 52 m ≠ units 52 (natBits n))
    (tie : Nat.dist (units 52 m) (n * 2 ^ unitsInOne) =
      Nat.dist (units 52 (natBits n)) (n * 2 ^ unitsInOne)) :
    natBits n % 2 = 0 := by
  rw [units_natBits] at other tie
  unfold nearest at other tie
  split at other
  · -- What is read exactly is as near as nothing else.
    rename_i short
    rw [if_pos short, Nat.dist_self] at tie
    exact absurd (Nat.eq_of_dist_eq_zero tie) other
  · rename_i short
    have large := Nat.lt_of_not_le short
    have unit := Nat.two_pow_pos (n.log2 - 52)
    rw [if_neg short, Nat.dist_mul_right] at tie
    obtain ⟨k, multiple | nearer⟩ := multiple_or_nearer large m
    · rw [multiple, Nat.dist_mul_right] at tie
      rw [multiple] at other
      have apart : k ≠ roundDiv n (2 ^ (n.log2 - 52)) := by
        rintro rfl
        exact other rfl
      have even := roundDiv_even unit apart
        (Nat.eq_of_mul_eq_mul_right (Nat.two_pow_pos unitsInOne) tie)
      have low := (roundDiv_bounds large).1
      rw [natBits_large large]
      omega
    · have best := Nat.mul_le_mul_right (2 ^ unitsInOne) (roundDiv_nearest (n := n) unit k)
      omega

end Whole

section OfInt
variable {i : Int}

theorem ofInt_eq (i : Int) :
    ofInt i = ⟨UInt64.ofNat ((if i < 0 then 1 else 0) * signBit + natBits i.natAbs)⟩ := by
  rw [ofInt, Nat.add_comm]
  split
  · rw [Nat.one_mul]
  · rw [Nat.zero_mul]

variable (fits : i.natAbs < 2 ^ 64)
include fits

theorem magnitude_ofInt : (ofInt i).magnitude = natBits i.natAbs := by
  rw [ofInt_eq, magnitude_ofBits (by split <;> decide) (natBits_lt fits)]

theorem negative_ofInt : (ofInt i).negative = decide (i < 0) := by
  rw [ofInt_eq, negative_ofBits (by split <;> decide) (natBits_lt fits)]
  split <;> simp [*]

/-- No double is nearer to a whole number than the one it is read as. -/
theorem ofInt_nearest (m : Nat) :
    Nat.dist (units 52 (ofInt i).magnitude) (i.natAbs * 2 ^ unitsInOne) ≤
      Nat.dist (units 52 m) (i.natAbs * 2 ^ unitsInOne) := by
  rw [magnitude_ofInt fits]
  exact natBits_nearest i.natAbs m

/-- Between two that are as near, the one with the even significand is chosen. -/
theorem ofInt_even {m : Nat} (other : units 52 m ≠ units 52 (ofInt i).magnitude)
    (tie : Nat.dist (units 52 m) (i.natAbs * 2 ^ unitsInOne) =
      Nat.dist (units 52 (ofInt i).magnitude) (i.natAbs * 2 ^ unitsInOne)) :
    (ofInt i).magnitude % 2 = 0 := by
  rw [magnitude_ofInt fits] at other tie ⊢
  exact natBits_even other tie

end OfInt

example : ofInt 9007199254740993 = ⟨0x4340000000000000⟩ := by decide

end GraphJournal.Binary64
