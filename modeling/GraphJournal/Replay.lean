import GraphJournal.Entry.Header
import GraphJournal.Graph.Apply

/-!
Replaying a journal: handing its records, one after the other, to something that applies them.

A record that is not applied is counted, and the replay goes on behind it. Only a place where no
entry starts ends it early. How much of a payload is read does not matter; the next entry starts
where the header says.
-/
namespace GraphJournal

/-- What a replay met. -/
structure ReplayStats where
  read : Nat := 0
  applied : Nat := 0
  failed : Nat := 0
  /-- Entries of kinds that hold nothing to apply. -/
  markers : Nat := 0
  /-- Entries of no known kind. -/
  unknown : Nat := 0
  /-- Where no entry starts although bytes are left. -/
  truncatedAt : Option Nat := none
  deriving DecidableEq, Repr

namespace ReplayStats

/-- Whether every record was applied and the whole buffer read. -/
def isClean (s : ReplayStats) : Bool := s.failed == 0 && s.truncatedAt.isNone

def countRecord (s : ReplayStats) (v : Verdict) : ReplayStats :=
  if v.isApplied then { s with read := s.read + 1, applied := s.applied + 1 }
  else { s with read := s.read + 1, failed := s.failed + 1 }

def countOther (s : ReplayStats) (known : Bool) : ReplayStats :=
  if known then { s with read := s.read + 1, markers := s.markers + 1 }
  else { s with read := s.read + 1, unknown := s.unknown + 1 }

end ReplayStats

variable {σ : Type}

/-- Deals with one entry, whose payload starts at `offset`. -/
def replayEntry (apply : Reader → σ → Verdict × σ) (header : EntryHeader) (offset : Nat)
    (payload : Bytes) (stats : ReplayStats) (s : σ) : ReplayStats × σ :=
  match header.kind? with
  | none => (stats.countOther false, s)
  | some kind =>
    if kind.isDispatched then
      let (verdict, s) := apply (.ofBytes payload offset) s
      (stats.countRecord verdict, s)
    else (stats.countOther true, s)

/-- Replays `rest`, which starts at `offset` of the buffer. -/
def replayFrom (apply : Reader → σ → Verdict × σ) (offset : Nat) (rest : Bytes)
    (stats : ReplayStats) (s : σ) : ReplayStats × σ :=
  if rest.isEmpty then (stats, s)
  else
    match h : EntryHeader.ofFront rest offset with
    | .error _ => ({ stats with truncatedAt := some offset }, s)
    | .ok header =>
      have := EntryHeader.framedLength_le_of_ofFront h
      let payload := (rest.drop entryHeaderSize).take header.payloadLength
      let (stats, s) := replayEntry apply header (offset + entryHeaderSize) payload stats s
      replayFrom apply (offset + header.framedLength) (rest.drop header.framedLength) stats s
termination_by rest.length
decreasing_by
  simp only [List.length_drop]
  omega

def replayWith (apply : Reader → σ → Verdict × σ) (buffer : Bytes) (s : σ) : ReplayStats × σ :=
  replayFrom apply 0 buffer {} s

namespace Graph

variable {κ : Type} [Values κ]

def replay (g : Graph κ) (n : NodeRef) (buffer : Bytes) : ReplayStats × Graph κ :=
  replayWith (applyRecord n) buffer g

end Graph

end GraphJournal
