import GraphJournal.Bytes

/-!
Sizes fixed by the entry format, and the three-byte length field.
-/
namespace GraphJournal

/-- Bytes of the length field that starts an entry. -/
def lengthFieldSize : Nat := 3

/-- Bytes of the length field and the kind byte after it. -/
def entryHeaderSize : Nat := 4

/-- The largest number a length field holds. -/
def maxLengthField : Nat := 0xffffff

/-- The largest entry, length field included. -/
def maxFramedEntry : Nat := maxLengthField + lengthFieldSize

/-- The largest entry a journal accepts unless it is configured otherwise. -/
def defaultMaxEntrySize : Nat := 16 * 1024

/-- The capacity of a journal unless it is configured otherwise. -/
def defaultJournalCapacity : Nat := 4 * 1024 * 1024

/-- The longest path that a walk through a graph follows; a longer one is taken for a cycle. -/
def maxWalkDepth : Nat := 65536

/-- The key of a member that has no position of its own in its parent. -/
def noKey : Int32 := -1

/-- The length field for `n`, unless `n` needs more than 24 bits. -/
def encodeLength? (n : Nat) : Option Bytes :=
  if n ≤ maxLengthField then some (Bytes.bigEndian lengthFieldSize n) else none

/-- The number in a length field. -/
def decodeLength (b₀ b₁ b₂ : UInt8) : Nat :=
  Bytes.toNat [b₀, b₁, b₂]

end GraphJournal
