import GraphJournal.Entry.Draft
import GraphJournal.MessagePack.Codec

/-!
Journals: entries back to back in a buffer of fixed capacity. A commit appends a whole entry or
nothing. When the buffer is full, its bytes are drained to make room; the count of committed bytes,
by which commits are numbered, goes on.
-/
namespace GraphJournal

open MessagePack

/-- The limits of a journal, and how it treats the nodes that write to it. -/
structure JournalConfig where
  /-- The number of bytes the journal holds before it has to be drained. -/
  capacity : Nat := defaultJournalCapacity
  maxEntrySize : Nat := defaultMaxEntrySize
  /-- Whether a record that cannot be written is an error of the operation. -/
  strict : Bool := false
  layout : Layout := .compact
  deriving DecidableEq, Repr

namespace JournalConfig

/-- Limits small enough to be met in tests. -/
def forTesting : JournalConfig := { capacity := 64 * 1024, maxEntrySize := 4 * 1024 }

def validate (c : JournalConfig) : Except CapacityFault Unit :=
  if c.capacity = 0 then .error .zeroCapacity
  else if c.maxEntrySize ≤ entryHeaderSize then .error .entrySizeTooSmall
  else if maxFramedEntry < c.maxEntrySize then .error .entrySizeExceedsFraming
  else .ok ()

end JournalConfig

/-- What became of an entry that was handed to a journal. -/
inductive Commit
  /-- It was appended; `sequence` counts all bytes committed so far. -/
  | appended (sequence : Nat)
  /-- It does not fit before the journal is drained. -/
  | noRoom (needed remaining : Nat)
  deriving DecidableEq, Repr

namespace Commit

def isAppended : Commit → Bool
  | appended _ => true
  | noRoom _ _ => false

def sequence? : Commit → Option Nat
  | appended sequence => some sequence
  | noRoom _ _ => none

end Commit

structure Journal where
  config : JournalConfig
  /-- The entries since the last drain. -/
  data : Bytes := []
  committed : Nat := 0
  appended : Nat := 0
  refusedNoRoom : Nat := 0
  refusedOversized : Nat := 0
  deriving DecidableEq, Repr

namespace Journal

def new (config : JournalConfig) : Except Error Journal :=
  match config.validate with
  | .ok () => .ok { config }
  | .error fault => .error (.config (.journal fault))

def position (j : Journal) : Nat := j.data.length

def remaining (j : Journal) : Nat := j.config.capacity - j.position

def isEmpty (j : Journal) : Bool := j.data.isEmpty

/-- Frames an entry and appends it. An entry larger than the journal allows is an error. -/
def commit (draft : Draft) : EStateM Error Journal Commit := do
  let j ← get
  let needed := draft.framedLength
  if j.config.maxEntrySize < needed then
    set { j with refusedOversized := j.refusedOversized + 1 }
    throw (.entryTooLarge needed j.config.maxEntrySize)
  match draft.frame with
  | .error e => throw e
  | .ok (entry, _) =>
    if j.remaining < needed then
      set { j with refusedNoRoom := j.refusedNoRoom + 1 }
      return .noRoom needed j.remaining
    let committed := j.committed + needed
    set { j with data := j.data ++ entry, committed, appended := j.appended + 1 }
    return .appended committed

/-- Appends an entry without payload. Records are written by nodes only. -/
def writeMarker (kind : EntryKind) : EStateM Error Journal Commit := do
  if kind.isDispatched then throw (.config .recordWithoutNode)
  commit (.begin kind)

/-- The bytes since the last drain, which are taken away. -/
def drain (j : Journal) : Bytes × Journal := (j.data, { j with data := [] })

end Journal

end GraphJournal
