/-!
Double-precision numbers as their 64 bits, and the conversions into them that reading needs: from
single precision, which is exact, and from whole numbers, which rounds to the nearest double and a
tie to the one with an even significand.
-/
namespace GraphJournal

/-- A double-precision number, told apart by its bits. -/
structure Binary64 where
  bits : UInt64
  deriving DecidableEq, Repr

namespace Binary64

/-- `n / unit` rounded to the nearest whole number, a tie to the even one. -/
def roundDiv (n unit : Nat) : Nat :=
  let q := n / unit
  let r := n % unit
  if unit < 2 * r ∨ (2 * r = unit ∧ q % 2 = 1) then q + 1 else q

/-- The bits of the double nearest to `n`. The significand has 53 bits, of which the first is not
stored; rounding up past the last significand carries into the exponent, as it should. -/
def natBits (n : Nat) : Nat :=
  if n = 0 then 0
  else
    let exponent := n.log2
    let significand :=
      if exponent ≤ 52 then n <<< (52 - exponent) else roundDiv n (1 <<< (exponent - 52))
    ((exponent + 1023) <<< 52) + (significand - (1 <<< 52))

/-- The bit that makes a number negative. -/
def signBit : Nat := 1 <<< 63

/-- The double nearest to a whole number. -/
def ofInt (i : Int) : Binary64 :=
  ⟨UInt64.ofNat (natBits i.natAbs + if i < 0 then signBit else 0)⟩

/-- The double equal to a single-precision number. What is not a number stays so, with the bit set
that tells it from a signal. -/
def ofSingle (single : UInt32) : Binary64 :=
  let sign := single.toNat >>> 31
  let exponent := (single.toNat >>> 23) % 0x100
  let fraction := single.toNat % (1 <<< 23)
  let magnitude :=
    if exponent = 0 then
      if fraction = 0 then 0
      else
        let top := fraction.log2
        ((top + 874) <<< 52) + ((fraction <<< (52 - top)) - (1 <<< 52))
    else if exponent = 255 then
      if fraction = 0 then 2047 <<< 52
      else (2047 <<< 52) + ((fraction ||| (1 <<< 22)) <<< 29)
    else ((exponent + 896) <<< 52) + (fraction <<< 29)
  ⟨UInt64.ofNat (sign * signBit + magnitude)⟩

end Binary64

end GraphJournal
