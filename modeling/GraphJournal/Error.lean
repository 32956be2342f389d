import GraphJournal.Bytes

/-!
The failures of this library, one constructor for each cause, and the text of each.

What a caller has to expect in normal operation (a node outside any graph, a full journal, a node
that is in use while it should be released) is no error; it is reported by an outcome of the
operation.
-/
namespace GraphJournal

/-- Why a store could not do its work. -/
inductive IoFault
  | system
  /-- The store says why. -/
  | reported (text : String)
  deriving DecidableEq, Repr

/-- Why bytes could not be read as a value, or a value not be written. -/
inductive SerializationFault
  /-- A varint whose value needs more than 64 bits. -/
  | varintOverflow
  /-- A varint that goes on after its tenth byte. -/
  | varintTooLong
  /-- A varint too large for the 32-bit number that belongs there. -/
  | varintExceeds32 (value : UInt64)
  /-- Bytes left over after a value that should fill its space. -/
  | trailingBytes (count : Nat)
  /-- Bytes that are no encoding of the wanted type. -/
  | malformed
  /-- A type whose values refuse to be written or read. -/
  | refused
  /-- A member of a graph that cannot say its part of a record. -/
  | unavailable (what : String)
  | reported (text : String)
  deriving DecidableEq, Repr

/-- A journal configuration that no journal can have. -/
inductive CapacityFault
  | zeroCapacity
  | entrySizeTooSmall
  | entrySizeExceedsFraming
  deriving DecidableEq, Repr

/-- Why a configuration, or a request at odds with one, is refused. -/
inductive ConfigFault
  | journal (fault : CapacityFault)
  | zeroLockTimeout
  | unknownFormatter (id : String)
  | recordWithoutNode
  | reported (text : String)
  deriving DecidableEq, Repr

/-- The failures of this library. -/
inductive Error
  | io (fault : IoFault)
  | serialization (fault : SerializationFault)
  | entryTooLarge (size max : Nat)
  | bufferFull (needed remaining : Nat)
  | lockTimeout (waitedMs : Nat)
  | truncated (offset : Nat)
  | unexpectedMarker (expected : String) (found : UInt8)
  | unknownMarker (byte : UInt8)
  | unknownEntryKind (byte : UInt8)
  | invalidKey (key : UInt32)
  | invalidLocator (text : String)
  | notResident (id : UInt64)
  | config (fault : ConfigFault)
  deriving DecidableEq, Repr

def IoFault.message : IoFault → String
  | system => "file system error"
  | reported text => text

def SerializationFault.message : SerializationFault → String
  | varintOverflow => "varint overflows u64"
  | varintTooLong => "varint longer than 10 bytes"
  | varintExceeds32 value => s!"varint {value.toNat} exceeds u32"
  | trailingBytes count => s!"{count} trailing bytes after value"
  | malformed => "malformed value"
  | refused => "value refused"
  | unavailable what => s!"{what} unavailable"
  | reported text => text

def CapacityFault.name : CapacityFault → String
  | zeroCapacity => "ZeroCapacity"
  | entrySizeTooSmall => "EntrySizeTooSmall"
  | entrySizeExceedsFraming => "EntrySizeExceedsFraming"

def CapacityFault.message : CapacityFault → String
  | zeroCapacity => "Journal capacity must be non-zero"
  | entrySizeTooSmall => "Maximum entry size must exceed the 4-byte entry header"
  | entrySizeExceedsFraming => "Maximum entry size exceeds the 3-byte length field"

def ConfigFault.message : ConfigFault → String
  | journal fault => fault.message
  | zeroLockTimeout => "lock timeout must be non-zero"
  | unknownFormatter id => s!"unknown value formatter: {id}"
  | recordWithoutNode => "record entries must be written through a node"
  | reported text => text

namespace Error

def name : Error → String
  | io _ => "Io"
  | serialization _ => "Serialization"
  | entryTooLarge _ _ => "EntryTooLarge"
  | bufferFull _ _ => "BufferFull"
  | lockTimeout _ => "LockTimeout"
  | truncated _ => "Truncated"
  | unexpectedMarker _ _ => "UnexpectedMarker"
  | unknownMarker _ => "UnknownMarker"
  | unknownEntryKind _ => "UnknownJournalType"
  | invalidKey _ => "InvalidKey"
  | invalidLocator _ => "InvalidLocator"
  | notResident _ => "NotResident"
  | config _ => "Config"

/-- The text of an error: what went wrong, and the numbers that say where. -/
def message : Error → String
  | io fault => s!"I/O error: {fault.message}"
  | serialization fault => s!"Serialization error: {fault.message}"
  | entryTooLarge size max => s!"Journal entry too large: {size} bytes (max {max})"
  | bufferFull needed remaining =>
    s!"Journal buffer full: needed {needed} bytes, {remaining} remaining"
  | lockTimeout waitedMs => s!"Lock wait timed out after {waitedMs}ms"
  | truncated offset => s!"Truncated input at offset {offset}"
  | unexpectedMarker expected found =>
    s!"Unexpected journal marker: expected {expected}, found {found.toNat}"
  | unknownMarker byte => s!"Unknown journal marker: 0x{Bytes.toHex [byte]}"
  | unknownEntryKind byte => s!"Unknown journal entry type: 0x{Bytes.toHex [byte]}"
  | invalidKey key => s!"Invalid locator key: {key.toNat}"
  | invalidLocator text => s!"Invalid locator: {text}"
  | notResident id => s!"Node {Bytes.toHex (Bytes.bigEndian 8 id.toNat)} is not resident"
  | config fault => s!"Invalid configuration: {fault.message}"

/-- Whether a bounded wait for a lock ran out. -/
def isTimeout : Error → Bool
  | lockTimeout _ => true
  | _ => false

/-- Whether the bytes of a journal are damaged. -/
def isCorruption : Error → Bool
  | truncated _ | unexpectedMarker _ _ | unknownMarker _ | unknownEntryKind _ => true
  | _ => false

end Error

end GraphJournal
