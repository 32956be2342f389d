import GraphJournal.Entry.Draft
import GraphJournal.MessagePack.Codec

/-!
The parts of a record, as the node that reads them sees them: a step down to a child, by key or by
address, or the marker that ends the address and says what to do there.
-/
namespace GraphJournal

inductive Segment
  /-- Descend to the child with this key. -/
  | key (key : UInt32)
  /-- Descend to the child with this address. -/
  | locator (address : Bytes)
  /-- Do what the marker says; what it needs for that follows. -/
  | terminal (op : Marker)
  deriving DecidableEq, Repr

namespace Segment

def marker : Segment → Marker
  | key _ => .key
  | locator _ => .locator
  | terminal op => op

def encode : Segment → Bytes
  | key k => Draft.keySegment k
  | locator address => Draft.locatorSegment address
  | terminal op => [op.byte]

end Segment

namespace Read

/-- A marker that can be part of a record. Its byte is consumed even if it is none. -/
def marker : Read Marker := do
  let b ← byte
  match Marker.ofByte? b with
  | none => fail (.unknownMarker b)
  | some m => if m = .invalid then fail (.unknownMarker b) else return m

def segment : Read Segment := do
  match ← marker with
  | .key => return .key (← varint32)
  | .locator => return .locator (← lengthPrefixed)
  | op => return .terminal op

/-- A particular marker. Its byte is consumed even if it is another one. -/
def expect (expected : Marker) : Read Unit := do
  let found ← byte
  if found = expected.byte then return ()
  else fail (.unexpectedMarker expected.name found)

/-- The marker of a replacement, and the value that replaces. -/
def replacement {α : Type} (c : MessagePack.Codec α) : Read α := do
  expect .value
  value c

theorem unread_of_byte {r r' : Reader} {b : UInt8} (h : byte r = .ok b r') :
    r'.unread.length + 1 = r.unread.length := by
  unfold byte at h
  split at h
  · cases h
  · rename_i rest found
    cases h
    simp [Reader.skip, found]

theorem unread_le_of_varint {r r' : Reader} {v : UInt64} (h : varint r = .ok v r') :
    r'.unread.length ≤ r.unread.length := by
  unfold varint at h
  split at h <;> cases h
  simp [Reader.skip]

theorem unread_le_of_bytes {n : Nat} {r r' : Reader} {bs : Bytes} (h : bytes n r = .ok bs r') :
    r'.unread.length ≤ r.unread.length := by
  unfold bytes at h
  split at h <;> cases h
  simp [Reader.skip]

/-- A computation in two parts that succeeds has gone through both of them. -/
theorem bind_eq_ok {α β : Type} {act : Read α} {next : α → Read β} {r r'' : Reader} {b : β}
    (h : (act >>= next) r = .ok b r'') : ∃ a r', act r = .ok a r' ∧ next a r' = .ok b r'' := by
  simp only [bind, EStateM.bind] at h
  split at h
  · exact ⟨_, _, by assumption, h⟩
  · cases h

theorem unread_le_of_varint32 {r r' : Reader} {v : UInt32} (h : varint32 r = .ok v r') :
    r'.unread.length ≤ r.unread.length := by
  obtain ⟨w, s, read, rest⟩ := bind_eq_ok h
  split at rest <;> cases rest
  exact unread_le_of_varint read

theorem unread_le_of_lengthPrefixed {r r' : Reader} {bs : Bytes}
    (h : lengthPrefixed r = .ok bs r') : r'.unread.length ≤ r.unread.length := by
  obtain ⟨w, s, read, rest⟩ := bind_eq_ok h
  exact Nat.le_trans (unread_le_of_bytes rest) (unread_le_of_varint read)

theorem unread_of_marker {r r' : Reader} {m : Marker} (h : marker r = .ok m r') :
    r'.unread.length + 1 = r.unread.length := by
  obtain ⟨b, s, read, rest⟩ := bind_eq_ok h
  cases found : Marker.ofByte? b with
  | none =>
    rw [found] at rest
    cases rest
  | some known =>
    rw [found] at rest
    dsimp only at rest
    split at rest <;> cases rest
    exact unread_of_byte read

/-- A part of a record takes at least one byte. -/
theorem unread_lt_of_segment {r r' : Reader} {part : Segment} (h : segment r = .ok part r') :
    r'.unread.length < r.unread.length := by
  obtain ⟨m, s, read, rest⟩ := bind_eq_ok h
  have shorter := unread_of_marker read
  split at rest
  · obtain ⟨k, t, key, done⟩ := bind_eq_ok rest
    cases done
    have := unread_le_of_varint32 key
    omega
  · obtain ⟨a, t, address, done⟩ := bind_eq_ok rest
    cases done
    have := unread_le_of_lengthPrefixed address
    omega
  · cases rest
    omega

end Read

end GraphJournal
