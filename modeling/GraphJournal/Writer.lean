import GraphJournal.Varint

/-!
Writers collect bytes in memory. Space can be kept free and filled in later, when what belongs there
is known.
-/
namespace GraphJournal

structure Writer where
  bytes : Bytes := []
  deriving DecidableEq, Repr

namespace Writer

def empty : Writer := {}

def length (w : Writer) : Nat := w.bytes.length

def isEmpty (w : Writer) : Bool := w.bytes.isEmpty

def append (w : Writer) (bytes : Bytes) : Writer := ⟨w.bytes ++ bytes⟩

def byte (w : Writer) (b : UInt8) : Writer := w.append [b]

/-- Writes the low `width` bytes of `n`, the most significant first. -/
def bigEndian (w : Writer) (width n : Nat) : Writer := w.append (Bytes.bigEndian width n)

def varint (w : Writer) (value : UInt64) : Writer := w.append (Varint.encode value)

/-- Writes the number of `bytes` as a varint and then the bytes. -/
def lengthPrefixed (w : Writer) (bytes : Bytes) : Writer :=
  (w.varint (UInt64.ofNat bytes.length)).append bytes

/-- Keeps `n` zero bytes free, and tells where they start. What is written must fit in memory: a
length past the last address ends the program, and is no case here. -/
def reserve (w : Writer) (n : Nat) : Nat × Writer :=
  (w.length, w.append (List.replicate n 0))

/-- Overwrites the bytes from `offset` on by `bytes`, all of which must have been written before. -/
def patch (w : Writer) (offset : Nat) (bytes : Bytes) : Except Error Writer :=
  if offset + bytes.length ≤ w.length then
    .ok ⟨w.bytes.take offset ++ (bytes ++ w.bytes.drop (offset + bytes.length))⟩
  else .error (.truncated offset)

end Writer

end GraphJournal
