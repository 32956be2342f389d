import GraphJournal.Limits
import GraphJournal.Vocabulary

/-!
The header of an entry: a length field of three bytes and the byte of the entry's kind.

The length counts what follows the length field, the kind's byte and the payload, so a real entry
never has length zero.
-/
namespace GraphJournal

/-- What the four bytes before a payload say. -/
structure EntryHeader where
  length : Nat
  /-- The byte of the entry's kind, which need not name one. -/
  kindByte : UInt8
  deriving DecidableEq, Repr

namespace EntryHeader

def ofPayload (kind : EntryKind) (payloadLength : Nat) : EntryHeader :=
  { length := payloadLength + 1, kindByte := kind.byte }

def framedLength (h : EntryHeader) : Nat := lengthFieldSize + h.length

def payloadLength (h : EntryHeader) : Nat := h.length - 1

def kind? (h : EntryHeader) : Option EntryKind := EntryKind.ofByte? h.kindByte

def encode (h : EntryHeader) : Except Error Bytes :=
  match encodeLength? h.length with
  | some field => .ok (field ++ [h.kindByte])
  | none => .error (.entryTooLarge h.framedLength maxFramedEntry)

/-- The header at the front of `bytes`, which start at `offset`. It is refused if it is incomplete,
has length zero, or promises more bytes than there are. -/
def ofFront (bytes : Bytes) (offset : Nat) : Except Error EntryHeader :=
  match bytes with
  | b₀ :: b₁ :: b₂ :: kindByte :: payload =>
    let length := decodeLength b₀ b₁ b₂
    if length = 0 then .error (.truncated offset)
    else if Bytes.hasAtLeast (length - 1) payload then .ok { length, kindByte }
    else .error (.truncated offset)
  | _ => .error (.truncated offset)

def decode (buffer : Bytes) (offset : Nat) : Except Error EntryHeader :=
  ofFront (buffer.drop offset) offset

/-- An accepted header describes an entry of at least four bytes, all of them there. -/
theorem framedLength_le_of_ofFront {bytes : Bytes} {offset : Nat} {h : EntryHeader}
    (ok : ofFront bytes offset = .ok h) : 4 ≤ h.framedLength ∧ h.framedLength ≤ bytes.length := by
  unfold ofFront at ok
  split at ok
  · dsimp only at ok
    split at ok
    · cases ok
    · split at ok
      · rename_i enough
        rw [Bytes.hasAtLeast_iff] at enough
        cases ok
        simp only [framedLength, lengthFieldSize, List.length_cons]
        omega
      · cases ok
  · cases ok

end EntryHeader

end GraphJournal
