/-!
Byte strings, fixed-width big-endian numbers and hexadecimal text.
-/
namespace GraphJournal

abbrev Bytes := List UInt8

namespace Bytes

/-- The low `width` bytes of `n`, the most significant first. -/
def bigEndian : Nat → Nat → Bytes
  | 0, _ => []
  | width + 1, n => bigEndian width (n / 256) ++ [UInt8.ofNat n]

/-- The number whose base-256 digits are `bytes`, the most significant first. -/
def toNat (bytes : Bytes) : Nat :=
  bytes.foldl (fun n b => 256 * n + b.toNat) 0

/-- The least number that does not fit in `width` bytes. -/
def limit : Nat → Nat
  | 0 => 1
  | width + 1 => 256 * limit width

@[simp] theorem length_bigEndian (width n : Nat) : (bigEndian width n).length = width := by
  induction width generalizing n with
  | zero => rfl
  | succ width ih => simp [bigEndian, ih]

@[simp] theorem toNat_append_singleton (bytes : Bytes) (b : UInt8) :
    toNat (bytes ++ [b]) = 256 * toNat bytes + b.toNat := by
  simp [toNat]

theorem toNat_bigEndian (width n : Nat) : toNat (bigEndian width n) = n % limit width := by
  induction width generalizing n with
  | zero => simp [bigEndian, toNat, limit, Nat.mod_one]
  | succ width ih =>
    rw [bigEndian, toNat_append_singleton, ih, UInt8.toNat_ofNat', limit, Nat.mod_mul]
    omega

theorem bigEndian_snoc (width n : Nat) (b : UInt8) :
    bigEndian (width + 1) (256 * n + b.toNat) = bigEndian width n ++ [b] := by
  have small := b.toNat_lt
  have high : (256 * n + b.toNat) / 256 = n := by omega
  have low : UInt8.ofNat (256 * n + b.toNat) = b := by
    apply UInt8.toNat_inj.mp
    rw [UInt8.toNat_ofNat']
    omega
  rw [bigEndian, high, low]

/-- Digits are determined by their number and how many they are. -/
theorem bigEndian_toNat (bytes : Bytes) : bigEndian bytes.length (toNat bytes) = bytes := by
  rw [← bytes.reverse_reverse]
  induction bytes.reverse with
  | nil => rfl
  | cons b rest ih =>
    rw [List.reverse_cons, List.length_append, toNat_append_singleton]
    exact (bigEndian_snoc _ _ b).trans (congrArg (· ++ [b]) ih)

theorem limit_pos (width : Nat) : 0 < limit width := by
  induction width with
  | zero => exact Nat.zero_lt_one
  | succ width ih => exact Nat.mul_pos (by decide) ih

theorem toNat_lt_limit (bytes : Bytes) : toNat bytes < limit bytes.length := by
  have digits := toNat_bigEndian bytes.length (toNat bytes)
  rw [bigEndian_toNat] at digits
  rw [digits]
  exact Nat.mod_lt _ (limit_pos bytes.length)

/-- Whether there are at least `n` bytes; no more than `n` are looked at. -/
def hasAtLeast : Nat → Bytes → Bool
  | 0, _ => true
  | _ + 1, [] => false
  | n + 1, _ :: rest => hasAtLeast n rest

@[simp] theorem hasAtLeast_iff {n : Nat} {bytes : Bytes} :
    hasAtLeast n bytes = true ↔ n ≤ bytes.length := by
  induction bytes generalizing n with
  | nil => cases n <;> simp [hasAtLeast]
  | cons b rest ih => cases n <;> simp [hasAtLeast, ih]

/-- A digit below sixteen, in lower case. -/
def hexDigit (n : Nat) : Char :=
  if n < 10 then Char.ofNat (48 + n) else Char.ofNat (87 + n)

def toHex (bytes : Bytes) : String :=
  String.ofList (bytes.flatMap fun b => [hexDigit (b.toNat / 16), hexDigit (b.toNat % 16)])

def hexValue? (c : Char) : Option Nat :=
  if '0' ≤ c ∧ c ≤ '9' then some (c.toNat - '0'.toNat)
  else if 'a' ≤ c ∧ c ≤ 'f' then some (c.toNat - 'a'.toNat + 10)
  else if 'A' ≤ c ∧ c ≤ 'F' then some (c.toNat - 'A'.toNat + 10)
  else none

/-- Puts the bytes of pairs of hexadecimal digits in front of `read`, the last first. -/
def readHex (read : Bytes) : List Char → Option Bytes
  | [] => some read.reverse
  | [_] => none
  | a :: b :: rest =>
    match hexValue? a, hexValue? b with
    | some x, some y => readHex (UInt8.ofNat (16 * x + y) :: read) rest
    | _, _ => none

/-- The bytes that a text gives by two hexadecimal digits each. -/
def ofHex? (s : String) : Option Bytes := readHex [] s.toList

end Bytes

end GraphJournal
