import GraphJournal.Entry.Header

/-!
The entries of a buffer, from its front on. A buffer holds entries back to back; at the first place
where no entry starts, the scan ends with an error, since no later place can be trusted.
-/
namespace GraphJournal

structure Entry where
  offset : Nat
  header : EntryHeader
  payload : Bytes
  deriving DecidableEq, Repr

namespace Entry

def payloadOffset (e : Entry) : Nat := e.offset + entryHeaderSize

def nextOffset (e : Entry) : Nat := e.offset + e.header.framedLength

end Entry

/-- The entries of `rest`, which starts at `offset` of the buffer. -/
def scanFrom (offset : Nat) (rest : Bytes) : List (Except Error Entry) :=
  if rest.isEmpty then []
  else
    match h : EntryHeader.ofFront rest offset with
    | .error e => [.error e]
    | .ok header =>
      have := EntryHeader.framedLength_le_of_ofFront h
      let payload := (rest.drop entryHeaderSize).take header.payloadLength
      .ok { offset, header, payload } ::
        scanFrom (offset + header.framedLength) (rest.drop header.framedLength)
termination_by rest.length
decreasing_by
  simp only [List.length_drop]
  omega

/-- The entries of `buffer`, with an error last if it does not end with an entry. -/
def scan (buffer : Bytes) : List (Except Error Entry) :=
  scanFrom 0 buffer

end GraphJournal
