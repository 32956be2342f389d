import GraphJournal.Limits
import GraphJournal.Vocabulary
import GraphJournal.Writer

/-!
An entry while it is being written: three bytes kept free for the length, the kind's byte, and the
payload so far. The length is filled in when the entry is framed.
-/
namespace GraphJournal

structure Draft where
  kind : EntryKind
  /-- The whole entry, header included. -/
  writer : Writer
  deriving DecidableEq, Repr

namespace Draft

def begin (kind : EntryKind) : Draft :=
  { kind, writer := (Writer.empty.reserve lengthFieldSize).2.byte kind.byte }

def append (d : Draft) (bytes : Bytes) : Draft := { d with writer := d.writer.append bytes }

def keySegment (key : UInt32) : Bytes := Marker.key.byte :: Varint.encode key.toUInt64

def locatorSegment (address : Bytes) : Bytes :=
  Marker.locator.byte :: (Varint.encode (UInt64.ofNat address.length) ++ address)

def marker (d : Draft) (m : Marker) : Draft := d.append [m.byte]

def key (d : Draft) (key : UInt32) : Draft := d.append (keySegment key)

def locator (d : Draft) (address : Bytes) : Draft := d.append (locatorSegment address)

def payload (d : Draft) : Bytes := d.writer.bytes.drop entryHeaderSize

def framedLength (d : Draft) : Nat := d.writer.length

/-- Fills in the length field and gives the complete entry. An entry too long for its length field
is left as it is. -/
def frame (d : Draft) : Except Error (Bytes × Draft) :=
  match encodeLength? (d.framedLength - lengthFieldSize) with
  | none => .error (.entryTooLarge d.framedLength maxFramedEntry)
  | some field => do
    let writer ← d.writer.patch 0 field
    return (writer.bytes, { d with writer })

end Draft

end GraphJournal
