import GraphJournal.Proofs.Frame

/-!
# Byte strings replayed in turn

The replay of several byte strings, one after the other, into one node. It goes on where the last
one has ended, entry by entry. Replays that meet anything but records and markers are NOT followed
further than to the incident.
-/
namespace GraphJournal

set_option autoImplicit false

variable {κ : Type} [Values κ]

namespace Graph

/-- Replays byte strings in turn, and tells what each replay met. -/
def replayAll (n : NodeRef) : List Bytes → Graph κ → List ReplayStats × Graph κ
  | [], h => ([], h)
  | bytes :: rest, h =>
    let (stats, h) := h.replay n bytes
    let (more, h) := replayAll n rest h
    (stats :: more, h)

/-- Byte strings replayed in turn without an incident, and the graph that they leave. -/
structure Replays (n : NodeRef) (segments : List Bytes) (h h' : Graph κ) : Prop where
  clean : ∀ stats ∈ (replayAll n segments h).1, stats.isClean = true
  after : (replayAll n segments h).2 = h'

section Replaying
variable {n : NodeRef} {segments : List Bytes} {fs : List Frame} {f : Frame} {h h' : Graph κ}

theorem replayAll_append (n : NodeRef) (xs ys : List Bytes) (h : Graph κ) :
    replayAll n (xs ++ ys) h =
      ((replayAll n xs h).1 ++ (replayAll n ys (replayAll n xs h).2).1,
        (replayAll n ys (replayAll n xs h).2).2) := by
  induction xs generalizing h with
  | nil => rfl
  | cons bytes xs ih => simp only [List.cons_append, replayAll, ih]

theorem replay_nil (n : NodeRef) (h : Graph κ) : h.replay n [] = ({}, h) :=
  Frame.replayFrom_nil _ _ _ _

/-- A replay of one more frame goes on where the replay of the others ends. -/
theorem replay_snoc (n : NodeRef) (fs : List Frame) (f : Frame) (h : Graph κ) :
    ∃ offset, h.replay n (Frame.join (fs ++ [f])) =
      replayEntry (applyRecord n) f.header offset f.payload (h.replay n (Frame.join fs)).1
        (h.replay n (Frame.join fs)).2 := by
  refine ⟨0 + (Frame.join fs).length + entryHeaderSize, ?_⟩
  rw [replay, Frame.replayWith_join, Frame.replayFrames_append, replay, Frame.replayWith_join]
  rfl

theorem kind?_header {kind : EntryKind} (same : f.kindByte = kind.byte) :
    f.header.kind? = some kind := by
  rw [EntryHeader.kind?, Frame.header, same, EntryKind.ofByte?_byte]

theorem isClean_applied (stats : ReplayStats) :
    (stats.countRecord .applied).isClean = stats.isClean := rfl

theorem isClean_other (stats : ReplayStats) : (stats.countOther true).isClean = stats.isClean := rfl

/-- The last byte string is replayed after the others. -/
theorem replays_snoc {bytes : Bytes} :
    Replays n (segments ++ [bytes]) h h' ↔
      ∃ h₁, Replays n segments h h₁ ∧ (h₁.replay n bytes).1.isClean = true ∧
        (h₁.replay n bytes).2 = h' := by
  constructor
  · rintro ⟨clean, after⟩
    rw [replayAll_append] at clean after
    refine ⟨_, ⟨?_, rfl⟩, ?_, after⟩
    · intro stats mem
      exact clean stats (List.mem_append_left _ mem)
    · exact clean _ (List.mem_append_right _ List.mem_cons_self)
  · rintro ⟨h₁, ⟨clean, rfl⟩, last, after⟩
    constructor
    · intro stats mem
      rw [replayAll_append] at mem
      rcases List.mem_append.mp mem with mem | mem
      · exact clean stats mem
      · rw [List.mem_singleton.mp mem]
        exact last
    · rw [replayAll_append]
      exact after

/-- One more record in the last byte string, which the node applies. -/
theorem Replays.record (replays : Replays n (segments ++ [Frame.join fs]) h h')
    (kind : f.kindByte = EntryKind.record.byte) {good : Graph κ → Prop}
    (applies : ∀ r : Reader, r.unread = f.payload →
      ∃ h'', applyRecord n r h' = (.applied, h'') ∧ good h'') :
    ∃ h'', Replays n (segments ++ [Frame.join (fs ++ [f])]) h h'' ∧ good h'' := by
  obtain ⟨h₁, before, clean, rfl⟩ := replays_snoc.mp replays
  obtain ⟨offset, run⟩ := replay_snoc n fs f h₁
  obtain ⟨h'', applied, fine⟩ := applies (.ofBytes f.payload offset) rfl
  rw [replayEntry, kind?_header kind] at run
  simp only [EntryKind.isDispatched, if_true, applied] at run
  refine ⟨h'', replays_snoc.mpr ⟨h₁, before, ?_, ?_⟩, fine⟩
  · rw [run, isClean_applied, clean]
  · rw [run]

/-- One more entry in the last byte string, which is no record. -/
theorem Replays.other (replays : Replays n (segments ++ [Frame.join fs]) h h') {kind : EntryKind}
    (same : f.kindByte = kind.byte) (other : kind.isDispatched = false) :
    Replays n (segments ++ [Frame.join (fs ++ [f])]) h h' := by
  obtain ⟨h₁, before, clean, rfl⟩ := replays_snoc.mp replays
  obtain ⟨offset, run⟩ := replay_snoc n fs f h₁
  rw [replayEntry, kind?_header same] at run
  simp only [other, Bool.false_eq_true, if_false] at run
  refine replays_snoc.mpr ⟨h₁, before, ?_, ?_⟩
  · rw [run, isClean_other, clean]
  · rw [run]

/-- One more byte string, which has nothing in it yet. -/
theorem Replays.drained (replays : Replays n segments h h') :
    Replays n (segments ++ [Frame.join []]) h h' := by
  refine replays_snoc.mpr ⟨h', replays, ?_, ?_⟩
  · rw [Frame.join_nil, replay_nil]
    rfl
  · rw [Frame.join_nil, replay_nil]

end Replaying

end Graph

end GraphJournal
