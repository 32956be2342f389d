import GraphJournal.Bytes
import GraphJournal.Error

/-!
Heads of MessagePack values. Every value starts with a byte that tells its form; for the short forms
it also holds the value or its length, for the others a big-endian number follows.

Whole numbers, text, byte strings, arrays and maps are written in their shortest form and read in
any.
-/
namespace GraphJournal.MessagePack

/-- Reads something from the front of some bytes and leaves the bytes after it, or fails and leaves
nothing. -/
abbrev Decode (α : Type) := StateT Bytes (Except SerializationFault) α

/-- Fails because the bytes are no encoding of what is wanted. -/
def malformed {α : Type} : Decode α := fun _ => .error .malformed

/-- The start of a value: the value itself if it has no parts, otherwise how long it is. -/
inductive Head
  | nil
  | bool (b : Bool)
  /-- A number in one of the unsigned forms. -/
  | unsigned (n : Nat)
  /-- A number in one of the signed forms, which may still be zero or more. -/
  | signed (i : Int)
  | single (bits : UInt32)
  | double (bits : UInt64)
  | text (length : Nat)
  | binary (length : Nat)
  | array (length : Nat)
  | map (length : Nat)
  /-- A type byte and `length` bytes of an application's own follow. -/
  | extension (length : Nat)
  deriving DecidableEq, Repr

def takeBytes (n : Nat) : Decode Bytes := fun bytes =>
  if Bytes.hasAtLeast n bytes then .ok (bytes.take n, bytes.drop n) else .error .malformed

def takeByte : Decode UInt8
  | [] => .error .malformed
  | b :: rest => .ok (b, rest)

def takeNat (width : Nat) : Decode Nat := Bytes.toNat <$> takeBytes width

/-- The number that `n` stands for among the signed numbers of `width` bytes. -/
def asSigned (width n : Nat) : Int :=
  if 2 * n < Bytes.limit width then n else (n : Int) - Bytes.limit width

def readHead : Decode Head := do
  let n := (← takeByte).toNat
  if n < 0x80 then return .unsigned n
  else if n < 0x90 then return .map (n - 0x80)
  else if n < 0xa0 then return .array (n - 0x90)
  else if n < 0xc0 then return .text (n - 0xa0)
  else if 0xe0 ≤ n then return .signed ((n : Int) - 0x100)
  else
    match n with
    | 0xc0 => return .nil
    | 0xc2 => return .bool false
    | 0xc3 => return .bool true
    | 0xc4 => return .binary (← takeNat 1)
    | 0xc5 => return .binary (← takeNat 2)
    | 0xc6 => return .binary (← takeNat 4)
    | 0xc7 => return .extension (← takeNat 1)
    | 0xc8 => return .extension (← takeNat 2)
    | 0xc9 => return .extension (← takeNat 4)
    | 0xca => return .single (UInt32.ofNat (← takeNat 4))
    | 0xcb => return .double (UInt64.ofNat (← takeNat 8))
    | 0xcc => return .unsigned (← takeNat 1)
    | 0xcd => return .unsigned (← takeNat 2)
    | 0xce => return .unsigned (← takeNat 4)
    | 0xcf => return .unsigned (← takeNat 8)
    | 0xd0 => return .signed (asSigned 1 (← takeNat 1))
    | 0xd1 => return .signed (asSigned 2 (← takeNat 2))
    | 0xd2 => return .signed (asSigned 4 (← takeNat 4))
    | 0xd3 => return .signed (asSigned 8 (← takeNat 8))
    | 0xd4 => return .extension 1
    | 0xd5 => return .extension 2
    | 0xd6 => return .extension 4
    | 0xd7 => return .extension 8
    | 0xd8 => return .extension 16
    | 0xd9 => return .text (← takeNat 1)
    | 0xda => return .text (← takeNat 2)
    | 0xdb => return .text (← takeNat 4)
    | 0xdc => return .array (← takeNat 2)
    | 0xdd => return .array (← takeNat 4)
    | 0xde => return .map (← takeNat 2)
    | 0xdf => return .map (← takeNat 4)
    | _ => malformed

/-- A form byte and a number of `width` bytes. -/
def wide (form : UInt8) (width n : Nat) : Bytes := form :: Bytes.bigEndian width n

/-- The shortest unsigned form of a number of at most eight bytes. -/
def natHead (n : Nat) : Bytes :=
  if n < 0x80 then [UInt8.ofNat n]
  else if n < 0x100 then wide 0xcc 1 n
  else if n < 0x10000 then wide 0xcd 2 n
  else if n < 0x100000000 then wide 0xce 4 n
  else wide 0xcf 8 n

/-- A form byte and a negative number of `width` bytes, as its complement. -/
def wideNegative (form : UInt8) (width : Nat) (i : Int) : Bytes :=
  wide form width (i + Bytes.limit width).toNat

/-- The shortest form of a whole number: unsigned unless it is negative. -/
def intHead (i : Int) : Bytes :=
  if 0 ≤ i then natHead i.toNat
  else if -0x20 ≤ i then Bytes.bigEndian 1 (i + 0x100).toNat
  else if -0x80 ≤ i then wideNegative 0xd0 1 i
  else if -0x8000 ≤ i then wideNegative 0xd1 2 i
  else if -0x80000000 ≤ i then wideNegative 0xd2 4 i
  else wideNegative 0xd3 8 i

def textHead (n : Nat) : Bytes :=
  if n < 32 then [UInt8.ofNat (0xa0 + n)]
  else if n < 0x100 then wide 0xd9 1 n
  else if n < 0x10000 then wide 0xda 2 n
  else wide 0xdb 4 n

/-- The shortest of three forms of a number of items: one byte from `short` on, or one of two form
bytes and the number. -/
def countHead (short : Nat) (form form' : UInt8) (n : Nat) : Bytes :=
  if n < 16 then [UInt8.ofNat (short + n)]
  else if n < 0x10000 then wide form 2 n
  else wide form' 4 n

def arrayHead (n : Nat) : Bytes := countHead 0x90 0xdc 0xdd n

def mapHead (n : Nat) : Bytes := countHead 0x80 0xde 0xdf n

end GraphJournal.MessagePack
