import GraphJournal.Graph.Root
import GraphJournal.Proofs.Frame
import GraphJournal.Proofs.Run

/-!
# Commits

All that a commit can do to a journal, and to a root: append one whole frame, or leave everything
but the counts of refusals as it is.
-/
namespace GraphJournal

set_option autoImplicit false

namespace Journal

def grow (j : Journal) (f : Frame) : Journal :=
  { j with data := j.data ++ f.bytes, committed := j.committed + f.size, appended := j.appended + 1 }

/-- The journal apart from its counts of refusals. -/
def ledger (j : Journal) : Journal := { j with refusedNoRoom := 0, refusedOversized := 0 }

theorem fields_of_ledger {j j' : Journal} (same : j'.ledger = j.ledger) :
    j'.config = j.config ∧ j'.data = j.data ∧ j'.committed = j.committed ∧
      j'.appended = j.appended := by
  refine ⟨?_, ?_, ?_, ?_⟩
  · exact (congrArg config same : j'.ledger.config = j.ledger.config)
  · exact (congrArg data same : j'.ledger.data = j.ledger.data)
  · exact (congrArg committed same : j'.ledger.committed = j.ledger.committed)
  · exact (congrArg appended same : j'.ledger.appended = j.ledger.appended)

/-- The ways in which the commit of a draft can end. -/
inductive CommitResult (d : Draft) (j : Journal) : EStateM.Result Error Journal Commit → Prop
  | oversized (size : j.config.maxEntrySize < d.framedLength) :
      CommitResult d j (.error (.entryTooLarge d.framedLength j.config.maxEntrySize)
        { j with refusedOversized := j.refusedOversized + 1 })
  | unframed (size : d.framedLength ≤ j.config.maxEntrySize)
      (long : maxFramedEntry < d.framedLength) :
      CommitResult d j (.error (.entryTooLarge d.framedLength maxFramedEntry) j)
  | noRoom (size : d.framedLength ≤ j.config.maxEntrySize) (room : j.remaining < d.framedLength) :
      CommitResult d j (.ok (.noRoom d.framedLength j.remaining)
        { j with refusedNoRoom := j.refusedNoRoom + 1 })
  | appended (f : Frame) (size : d.framedLength ≤ j.config.maxEntrySize)
      (room : d.framedLength ≤ j.remaining) (kind : f.kindByte = d.kindByte)
      (payload : f.payload = d.payload)
      (frame : d.frame = .ok (f.bytes, { d with writer := ⟨f.bytes⟩ })) :
      CommitResult d j (.ok (.appended (j.committed + f.size)) (j.grow f))

theorem size_of_payload {d : Draft} {f : Frame} (h : entryHeaderSize ≤ d.framedLength)
    (payload : f.payload = d.payload) : f.size = d.framedLength := by
  rw [Draft.framedLength_eq h, Frame.size, payload]

theorem commit_result {d : Draft} (h : entryHeaderSize ≤ d.framedLength) (j : Journal) :
    CommitResult d j (commit d j) := by
  by_cases size : j.config.maxEntrySize < d.framedLength
  · have run : commit d j = .error (.entryTooLarge d.framedLength j.config.maxEntrySize)
        { j with refusedOversized := j.refusedOversized + 1 } := by
      simp [commit, size]
    rw [run]
    exact .oversized size
  · have fine : d.framedLength ≤ j.config.maxEntrySize := Nat.le_of_not_lt size
    rcases Draft.frame_cases h with ⟨f, kind, payload, _, frame⟩ | ⟨long, frame⟩
    · have len := size_of_payload h payload
      by_cases room : j.remaining < d.framedLength
      · have run : commit d j = .ok (.noRoom d.framedLength j.remaining)
            { j with refusedNoRoom := j.refusedNoRoom + 1 } := by
          simp [commit, size, frame, room]
        rw [run]
        exact .noRoom fine room
      · have run : commit d j = .ok (.appended (j.committed + f.size)) (j.grow f) := by
          simp [commit, size, frame, room, len, grow]
        rw [run]
        exact .appended f fine (Nat.le_of_not_lt room) kind payload frame
    · have run : commit d j = .error (.entryTooLarge d.framedLength maxFramedEntry) j := by
        simp [commit, size, frame]
      rw [run]
      exact .unframed fine long

theorem writeMarker_dispatched {kind : EntryKind} (dispatched : kind.isDispatched = true)
    (j : Journal) : writeMarker kind j = .error (.config .recordWithoutNode) j := by
  simp [writeMarker, dispatched]

theorem writeMarker_eq_commit {kind : EntryKind} (other : kind.isDispatched = false) (j : Journal) :
    writeMarker kind j = commit (.begin kind) j := by
  simp [writeMarker, other]

end Journal

namespace Root

def grow : Root → Frame → Root
  | journal j queue, f => journal (j.grow f) queue
  | unbounded data, f => unbounded (data ++ f.bytes)
  | refusing, _ => refusing

/-- The root apart from its journal's counts of refusals. -/
def ledger : Root → Root
  | journal j queue => journal j.ledger queue
  | other => other

def sequence : Root → Frame → Nat
  | journal j _, f => j.committed + f.size
  | unbounded data, f => data.length + f.size
  | refusing, _ => 0

/-- The ways in which a root can answer a draft that it is handed. -/
inductive CommitResult (d : Draft) (root : Root) : EStateM.Result Error Root Commit → Prop
  | failed {e : Error} {after : Root} (same : after.ledger = root.ledger) :
      CommitResult d root (.error e after)
  | noRoom {needed remaining : Nat} {after : Root} (same : after.ledger = root.ledger) :
      CommitResult d root (.ok (.noRoom needed remaining) after)
  | appended (f : Frame) (kind : f.kindByte = d.kindByte) (payload : f.payload = d.payload)
      (frame : d.frame = .ok (f.bytes, { d with writer := ⟨f.bytes⟩ })) :
      CommitResult d root (.ok (.appended (root.sequence f)) (root.grow f))

theorem commit_result {d : Draft} (h : entryHeaderSize ≤ d.framedLength) (root : Root) :
    CommitResult d root (commit d root) := by
  cases root with
  | journal j queue =>
    have answer := Journal.commit_result h j
    simp only [commit]
    cases result : Journal.commit d j with
    | error e after =>
      rw [result] at answer
      cases answer with
      | oversized size => exact .failed rfl
      | unframed size long => exact .failed rfl
    | ok c after =>
      rw [result] at answer
      cases answer with
      | noRoom size room => exact .noRoom rfl
      | appended f size room kind payload frame =>
        exact (CommitResult.appended f kind payload frame : CommitResult d (.journal j queue) _)
  | unbounded data =>
    simp only [commit]
    rcases Draft.frame_cases h with ⟨f, kind, payload, _, frame⟩ | ⟨long, frame⟩
    · rw [frame]
      have answer : CommitResult d (.unbounded data) _ := .appended f kind payload frame
      simpa only [sequence, grow, List.length_append, Frame.length_bytes] using answer
    · rw [frame]
      exact .failed rfl
  | refusing => exact .failed rfl

end Root

end GraphJournal
