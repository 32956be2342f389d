import GraphJournal.Varint

/-!
Forward-only readers of a byte string. A reader sees a window of some larger string: it knows the
bytes of the window that are still unread, how many it has read, and where in the larger string the
window starts. Every error for missing bytes tells where the window ends in the larger string.

A `Read` keeps the reader it leaves behind when it fails, so what a failed read has already consumed
stays consumed.
-/
namespace GraphJournal

/-- A cursor in a window of a byte string. -/
structure Reader where
  /-- The bytes of the window that are still to be read. -/
  unread : Bytes
  position : Nat := 0
  /-- The place of the window's first byte in the whole string, which is in memory: no place in it is
  past the last address. -/
  base : Nat := 0
  deriving DecidableEq, Repr

namespace Reader

/-- A reader at the start of a window that begins at `base`. -/
def ofBytes (bytes : Bytes) (base : Nat) : Reader :=
  { unread := bytes, base }

/-- The place of the next unread byte in the whole string. -/
def offset (r : Reader) : Nat := r.base + r.position

def remaining (r : Reader) : Nat := r.unread.length

def isEmpty (r : Reader) : Bool := r.unread.isEmpty

def peek? (r : Reader) : Option UInt8 := r.unread.head?

/-- A reader of its own for the unread bytes. -/
def fork (r : Reader) : Reader := ofBytes r.unread r.offset

/-- The error of a read that needs more bytes than the window has. -/
def shortRead (r : Reader) : Error := .truncated (r.offset + r.unread.length)

def skip (r : Reader) (n : Nat) : Reader :=
  { r with unread := r.unread.drop n, position := r.position + n }

end Reader

/-- A computation that reads from a `Reader` and may fail on the way. -/
abbrev Read (α : Type) := EStateM Error Reader α

namespace Read

def fail {α : Type} (e : Error) : Read α := fun r => .error e r

def byte : Read UInt8 := fun r =>
  match r.unread with
  | [] => .error r.shortRead r
  | b :: _ => .ok b (r.skip 1)

def bytes (n : Nat) : Read Bytes := fun r =>
  if Bytes.hasAtLeast n r.unread then .ok (r.unread.take n) (r.skip n) else .error r.shortRead r

def advance (n : Nat) : Read Unit := fun r =>
  if Bytes.hasAtLeast n r.unread then .ok () (r.skip n) else .error r.shortRead r

/-- A reader for just the next `n` bytes, which count as read here. -/
def window (n : Nat) : Read Reader := fun r =>
  if Bytes.hasAtLeast n r.unread then .ok (.ofBytes (r.unread.take n) r.offset) (r.skip n)
  else .error r.shortRead r

def bigEndian (width : Nat) : Read Nat :=
  Bytes.toNat <$> bytes width

def varint : Read UInt64 := fun r =>
  match Varint.decode r.unread r.offset with
  | .ok (value, used) => .ok value (r.skip used)
  | .error e => .error e r

/-- A varint whose value fits in 32 bits. A value that does not fit is consumed all the same. -/
def varint32 : Read UInt32 := do
  let value ← varint
  if value.toNat < 0x100000000 then return value.toUInt32
  else fail (.serialization (.varintExceeds32 value))

/-- A varint and then as many bytes as it says. The varint is consumed even if the bytes are not
there. -/
def lengthPrefixed : Read Bytes := do
  bytes (← varint).toNat

end Read

end GraphJournal
