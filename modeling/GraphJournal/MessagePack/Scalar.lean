import GraphJournal.MessagePack.Binary64
import GraphJournal.MessagePack.Codec

/-!
Codecs of values without parts: whole numbers, truth values, doubles, nothing, and text.

Each is written in one form and read in several: a whole number in any form whose value is in range,
a double also as a single or a whole number, text also as a byte string.
-/
namespace GraphJournal.MessagePack.Codec

/-- What a decoder's result has to be turned into. -/
def orMalformed {α : Type} : Option α → Decode α
  | some a => pure a
  | none => malformed

/-- The byte form of a value that no byte stands for. -/
def noByte {α : Type} (_ : UInt8) : Except SerializationFault α := .error .malformed

def readInt : Decode Int := do
  match ← readHead with
  | .unsigned n => return n
  | .signed i => return i
  | _ => malformed

/-- A type of whole numbers, each told by `toInt`; `ofInt?` finds the member with a given value. -/
def integer {α : Type} (toInt : α → Int) (ofInt? : Int → Option α) (zero : α) : Codec α where
  encode _ a := .ok (intHead (toInt a))
  decode _ := do orMalformed (ofInt? (← readInt))
  ofByte b := match ofInt? b.toNat with
    | some a => .ok a
    | none => .error .malformed
  default := zero

/-- The result of `of` for a number that fits in `width` bytes without a sign. -/
def unsignedOf {α : Type} (width : Nat) (of : Nat → α) (i : Int) : Option α :=
  if 0 ≤ i ∧ i < Bytes.limit width then some (of i.toNat) else none

/-- The result of `of` for a number that fits in `width` bytes with a sign. -/
def signedOf {α : Type} (width : Nat) (of : Int → α) (i : Int) : Option α :=
  if -(Bytes.limit width : Int) ≤ 2 * i ∧ 2 * i < Bytes.limit width then some (of i) else none

def uint8 : Codec UInt8 := integer (·.toNat) (unsignedOf 1 UInt8.ofNat) 0

def uint16 : Codec UInt16 := integer (·.toNat) (unsignedOf 2 UInt16.ofNat) 0

def uint32 : Codec UInt32 := integer (·.toNat) (unsignedOf 4 UInt32.ofNat) 0

def uint64 : Codec UInt64 := integer (·.toNat) (unsignedOf 8 UInt64.ofNat) 0

def int8 : Codec Int8 := integer Int8.toInt (signedOf 1 Int8.ofInt) 0

def int16 : Codec Int16 := integer Int16.toInt (signedOf 2 Int16.ofInt) 0

def int32 : Codec Int32 := integer Int32.toInt (signedOf 4 Int32.ofInt) 0

def int64 : Codec Int64 := integer Int64.toInt (signedOf 8 Int64.ofInt) 0

def bool : Codec Bool where
  encode _ b := .ok [if b then 0xc3 else 0xc2]
  decode _ := do
    match ← readHead with
    | .bool b => return b
    | _ => malformed
  ofByte := noByte
  default := false

/-- Doubles, which are always written in full. -/
def binary64 : Codec Binary64 where
  encode _ x := .ok (wide 0xcb 8 x.bits.toNat)
  decode _ := do
    match ← readHead with
    | .double bits => return ⟨bits⟩
    | .single bits => return .ofSingle bits
    | .unsigned n => return .ofInt n
    | .signed i => return .ofInt i
    | _ => malformed
  ofByte b := .ok (.ofInt b.toNat)
  default := ⟨0⟩

/-- The value that says nothing. -/
def unit : Codec Unit where
  encode _ _ := .ok [0xc0]
  decode _ := do
    match ← readHead with
    | .nil => return ()
    | _ => malformed
  ofByte := noByte
  default := ()

def textBytes (s : String) : Bytes := s.toUTF8.data.toList

def textOfBytes? (bytes : Bytes) : Option String := String.fromUTF8? bytes.toByteArray

def encodeText (s : String) : Bytes := textHead (textBytes s).length ++ textBytes s

def text : Codec String where
  encode _ s := .ok (encodeText s)
  decode _ := do
    match ← readHead with
    | .text n | .binary n => orMalformed (textOfBytes? (← takeBytes n))
    | _ => malformed
  ofByte := noByte
  default := ""

end GraphJournal.MessagePack.Codec
