import GraphJournal.Proofs.JournalHistory
import GraphJournal.Proofs.Offsets
import GraphJournal.Proofs.Visits

/-!
# Replays joined and cut

Frames are replayed alike whatever stands behind them, and what stands behind them is replayed as if it
were alone. So it does not matter where a journal has been drained, and a buffer that breaks off loses
the one entry at the break. Targets that look at the place of a record are NOT joined here, only cut.
-/
namespace GraphJournal

set_option autoImplicit false

variable {σ : Type} {apply : Reader → σ → Verdict × σ}

/-- What was met in `length` bytes, and what was met in the bytes behind them. The first break counts. -/
def ReplayStats.followedBy (before : ReplayStats) (length : Nat) (after : ReplayStats) :
    ReplayStats where
  read := before.read + after.read
  applied := before.applied + after.applied
  failed := before.failed + after.failed
  markers := before.markers + after.markers
  unknown := before.unknown + after.unknown
  truncatedAt := before.truncatedAt.or (after.truncatedAt.map (length + ·))

/-- Replays byte strings one after the other, and tells what was met in all of them. -/
def replayInTurn (apply : Reader → σ → Verdict × σ) : List Bytes → σ → ReplayStats × σ
  | [], s => ({}, s)
  | buffer :: rest, s =>
    let (first, s) := replayWith apply buffer s
    let (others, s) := replayInTurn apply rest s
    (first.followedBy buffer.length others, s)

namespace Entry

/-- The entries that end at a cut or before it. -/
def wholeBefore (cut : Nat) (entries : List Entry) : List Entry :=
  entries.filter fun e => e.nextOffset ≤ cut

/-- The place is the start of the buffer or the end of an entry. -/
def Boundary (entries : List Entry) (place : Nat) : Prop :=
  place = 0 ∨ ∃ e ∈ entries, e.nextOffset = place

end Entry

/-- The replay of a buffer that has been cut: the entries before the cut, and the place of the one
that the cut goes through. -/
structure CutReplay (apply : Reader → σ → Verdict × σ) (entries : List Entry) (cut : Nat) (s : σ)
    (result : ReplayStats × σ) : Prop where
  handed : result.2 = (handAll apply (Entry.readers (Entry.wholeBefore cut entries)) s).2
  counted : result.1 =
    { ({} : ReplayStats).tally (Entry.wholeBefore cut entries)
        (handAll apply (Entry.readers (Entry.wholeBefore cut entries)) s).1 with
      truncatedAt := result.1.truncatedAt }
  clean : result.1.truncatedAt = none ↔ Entry.Boundary entries cut
  torn : ¬ Entry.Boundary entries cut →
    ∃ e ∈ entries, e.offset < cut ∧ cut < e.nextOffset ∧ result.1.truncatedAt = some e.offset

namespace Frame

section Join

theorem tally_followedBy {stats : ReplayStats} (unbroken : stats.truncatedAt = none)
    (es : List Entry) (vs : List Verdict) (offset : Nat) (stopped : Option Nat) :
    { stats.tally es vs with truncatedAt := stopped.map (offset + ·) } =
      stats.followedBy offset { ({} : ReplayStats).tally es vs with truncatedAt := stopped } := by
  simp [ReplayStats.followedBy, ReplayStats.tally, unbroken]

theorem stop?_add (offset place : Nat) (rest : Bytes) :
    stop? (offset + place) rest = (stop? place rest).map (offset + ·) := by
  unfold stop?
  split <;> rfl

/-- A replay that goes on at some offset meets what it would meet at the start of a buffer. -/
theorem replayFrom_eq (free : PlaceFree apply) (offset : Nat) (rest : Bytes) {stats : ReplayStats}
    (unbroken : stats.truncatedAt = none) (s : σ) :
    replayFrom apply offset rest stats s =
      (stats.followedBy offset (replayWith apply rest s).1, (replayWith apply rest s).2) := by
  obtain ⟨fs, tail, rfl, torn⟩ := exists_torn rest
  have frames := replayFrames_place free fs offset 0 (stats, s)
  rw [replayFrames_eq apply 0] at frames
  rw [replayFrom_join_append, frames, replayFrom_torn apply torn, replayWith_torn apply fs torn,
    ← tally_followedBy unbroken, stop?_add]
  simp only [ReplayStats.tally, unbroken, Option.or_none]

variable (apply) in
theorem truncatedAt_join (fs : List Frame) (s : σ) :
    (replayWith apply (join fs) s).1.truncatedAt = none := by
  rw [replayWith_join, replayFrames_eq]
  rfl

/-- Frames and then any bytes: the frames are replayed first, and then the bytes. -/
theorem replayWith_join_append (free : PlaceFree apply) (fs : List Frame) (rest : Bytes) (s : σ) :
    replayWith apply (join fs ++ rest) s =
      ((replayWith apply (join fs) s).1.followedBy (join fs).length
          (replayWith apply rest (replayWith apply (join fs) s).2).1,
        (replayWith apply rest (replayWith apply (join fs) s).2).2) := by
  have front := replayWith_join apply fs s
  have behind := replayFrom_eq free (join fs).length rest (truncatedAt_join apply fs s)
    (replayWith apply (join fs) s).2
  rw [replayWith, replayFrom_join_append, Nat.zero_add, ← front, behind]

/-- Byte strings made of frames, and a last one of any kind, are replayed as if they were one. -/
theorem replayInTurn_flatten (free : PlaceFree apply) (groups : List (List Frame)) (last : Bytes)
    (s : σ) :
    replayInTurn apply (groups.map join ++ [last]) s =
      replayWith apply ((groups.map join).flatten ++ last) s := by
  induction groups generalizing s with
  | nil =>
    have alone : ∀ stats : ReplayStats, stats.followedBy last.length {} = stats := by
      intro stats
      simp [ReplayStats.followedBy]
    exact Prod.ext (alone _) rfl
  | cons fs groups ih =>
    rw [List.map_cons, List.flatten_cons, List.append_assoc, replayWith_join_append free, ← ih]
    rfl

end Join

section Cut

theorem entriesFrom_append (offset : Nat) (fs gs : List Frame) :
    entriesFrom offset (fs ++ gs) =
      entriesFrom offset fs ++ entriesFrom (offset + (join fs).length) gs := by
  induction fs generalizing offset with
  | nil => rfl
  | cons f fs ih =>
    rw [List.cons_append, entriesFrom, ih, entriesFrom, List.cons_append, join_cons,
      List.length_append, length_bytes, Nat.add_assoc]

theorem nextOffset_le_of_mem {offset : Nat} {fs : List Frame} {e : Entry}
    (mem : e ∈ entriesFrom offset fs) : e.nextOffset ≤ offset + (join fs).length := by
  obtain ⟨before, f, after, rfl, rfl⟩ := frame_of_mem mem
  rw [nextOffset_entryAt, join_append, join_cons, List.length_append, List.length_append, length_bytes]
  omega

theorem size_le_nextOffset {offset : Nat} {f : Frame} {fs : List Frame} {e : Entry}
    (mem : e ∈ entriesFrom offset (f :: fs)) : offset + f.size ≤ e.nextOffset := by
  rcases List.mem_cons.mp mem with rfl | mem
  · exact Nat.le_of_eq (nextOffset_entryAt f offset).symm
  · obtain ⟨before, g, after, -, rfl⟩ := frame_of_mem mem
    rw [nextOffset_entryAt]
    omega

/-- Where a cut goes through a list of frames: behind some of them, and before the end of the next. -/
theorem exists_cut {fs : List Frame} {cut : Nat} (within : cut ≤ (join fs).length) :
    ∃ before after, fs = before ++ after ∧ (join before).length ≤ cut ∧
      ∀ f more, after = f :: more → cut < (join before).length + f.size := by
  induction fs generalizing cut with
  | nil =>
    refine ⟨[], [], rfl, Nat.zero_le _, ?_⟩
    intro f more wrong
    cases wrong
  | cons f fs ih =>
    by_cases fits : f.size ≤ cut
    · rw [join_cons, List.length_append, length_bytes] at within
      have shorter : cut - f.size ≤ (join fs).length := by omega
      obtain ⟨before, after, rfl, low, high⟩ := ih shorter
      refine ⟨f :: before, after, rfl, ?_, ?_⟩
      · rw [join_cons, List.length_append, length_bytes]
        omega
      · intro g more next
        have below := high g more next
        rw [join_cons, List.length_append, length_bytes]
        omega
    · refine ⟨[], f :: fs, rfl, Nat.zero_le _, ?_⟩
      intro g more next
      cases next
      rw [join_nil, List.length_nil]
      omega

/-- What is left of a frame whose end is missing starts with no frame. -/
theorem torn_take {f : Frame} {k : Nat} (short : k < f.size) (rest : Bytes) :
    Torn ((f.bytes ++ rest).take k) := by
  intro g tail there
  rw [List.take_append_of_le_length (by rw [length_bytes]; omega)] at there
  have whole : f.bytes ++ [] = g.bytes ++ (tail ++ f.bytes.drop k) := by
    rw [List.append_nil, ← List.append_assoc, ← there, List.take_append_drop]
  obtain ⟨-, missing⟩ := bytes_append_inj whole
  have none := (List.append_eq_nil_iff.mp missing.symm).2
  rw [List.drop_eq_nil_iff, length_bytes] at none
  omega

section Through
variable {before after : List Frame} {cut : Nat} (low : (join before).length ≤ cut)
  (high : ∀ f more, after = f :: more → cut < (join before).length + f.size)
include low high

theorem wholeBefore_entries :
    Entry.wholeBefore cut (entriesFrom 0 (before ++ after)) = entriesFrom 0 before := by
  have kept : (entriesFrom 0 before).filter (fun e => e.nextOffset ≤ cut) = entriesFrom 0 before := by
    apply List.filter_eq_self.mpr
    intro e mem
    have ends := nextOffset_le_of_mem mem
    exact decide_eq_true (by omega)
  have lost : (entriesFrom (0 + (join before).length) after).filter (fun e => e.nextOffset ≤ cut) =
      [] := by
    apply List.filter_eq_nil_iff.mpr
    intro e mem
    cases after with
    | nil => cases mem
    | cons f more =>
      have ends := size_le_nextOffset mem
      have beyond := high f more rfl
      rw [decide_eq_true_iff]
      omega
  rw [Entry.wholeBefore, entriesFrom_append, List.filter_append, kept, lost, List.append_nil]

theorem boundary_iff :
    Entry.Boundary (entriesFrom 0 (before ++ after)) cut ↔ cut = (join before).length := by
  rw [Entry.Boundary, entriesFrom_append]
  constructor
  · rintro (rfl | ⟨e, mem, rfl⟩)
    · exact (Nat.le_zero.mp low).symm
    · rcases List.mem_append.mp mem with mem | mem
      · have ends := nextOffset_le_of_mem mem
        omega
      · cases after with
        | nil => cases mem
        | cons f more =>
          have ends := size_le_nextOffset mem
          have beyond := high f more rfl
          omega
  · rintro rfl
    rcases List.eq_nil_or_concat before with rfl | ⟨init, last, rfl⟩
    · exact Or.inl rfl
    · refine Or.inr ⟨last.entryAt (0 + (join init).length), ?_, ?_⟩
      · rw [List.concat_eq_append, entriesFrom_append]
        exact List.mem_append_left _ (List.mem_append_right _ List.mem_cons_self)
      · rw [nextOffset_entryAt, List.concat_eq_append, join_append, List.length_append, join_cons,
          join_nil, List.append_nil, length_bytes, Nat.zero_add]

theorem torn_behind : Torn ((join after).take (cut - (join before).length)) := by
  cases after with
  | nil =>
    rw [join_nil, List.take_nil]
    exact torn_nil
  | cons f more =>
    have beyond := high f more rfl
    exact torn_take (by omega) (join more)

end Through

theorem stop?_take {before after : List Frame} {cut : Nat}
    (within : cut ≤ (join (before ++ after)).length) :
    stop? (join before).length ((join after).take (cut - (join before).length)) =
      if cut ≤ (join before).length then none else some (join before).length := by
  rw [join_append, List.length_append] at within
  have length : ((join after).take (cut - (join before).length)).length =
      cut - (join before).length := List.length_take_of_le (by omega)
  have empty : ((join after).take (cut - (join before).length)).isEmpty = true ↔
      cut ≤ (join before).length := by
    rw [List.isEmpty_iff, ← List.length_eq_zero_iff, length]
    omega
  simp only [stop?, empty]

/-- A buffer of frames that is cut anywhere. -/
theorem cutReplay_take (fs : List Frame) {cut : Nat} (within : cut ≤ (join fs).length) (s : σ) :
    CutReplay apply (entriesFrom 0 fs) cut s (replayWith apply ((join fs).take cut) s) := by
  obtain ⟨before, after, rfl, low, high⟩ := exists_cut within
  have left : (join (before ++ after)).take cut =
      join before ++ (join after).take (cut - (join before).length) := by
    rw [join_append, List.take_append, List.take_of_length_le low]
  have whole := wholeBefore_entries low high
  have boundary := boundary_iff low high
  rw [left, replayWith_torn apply before (torn_behind low high), stop?_take within]
  refine ⟨?_, ?_, ?_, ?_⟩
  · rw [whole]
  · rw [whole]
  · rw [boundary]
    dsimp only
    split
    · exact iff_of_true rfl (by omega)
    · exact iff_of_false (by simp) (by omega)
  · rw [boundary]
    intro through
    cases after with
    | nil =>
      rw [List.append_nil] at within
      omega
    | cons f more =>
      have beyond := high f more rfl
      refine ⟨f.entryAt (0 + (join before).length), ?_, ?_, ?_, ?_⟩
      · rw [entriesFrom_append]
        exact List.mem_append_right _ List.mem_cons_self
      · change 0 + (join before).length < cut
        omega
      · rw [nextOffset_entryAt]
        omega
      · rw [if_neg (by omega)]
        exact congrArg some (Nat.zero_add _).symm

end Cut

theorem exists_groups {pieces : List Bytes} (made : ∀ piece ∈ pieces, ∃ fs, piece = join fs) :
    ∃ groups : List (List Frame), pieces = groups.map join := by
  induction pieces with
  | nil => exact ⟨[], rfl⟩
  | cons piece pieces ih =>
    obtain ⟨fs, rfl⟩ := made piece List.mem_cons_self
    obtain ⟨groups, rfl⟩ := ih fun other mem => made other (List.mem_cons_of_mem _ mem)
    exact ⟨fs :: groups, rfl⟩

end Frame

namespace Journal

section Drains
variable {config : JournalConfig} {trace : Trace} {j : Journal}

/-- Every byte string that was drained is made of frames. -/
theorem Kept.drained_groups (h : Kept config trace j) :
    ∃ groups : List (List Frame), drainedIn trace = groups.map Frame.join := by
  apply Frame.exists_groups
  intro piece mem
  obtain ⟨⟨c, answer⟩, there, drained⟩ := List.mem_filterMap.mp mem
  have shown : answer = .bytes piece := by
    cases c <;> cases answer <;> cases drained
    rfl
  subst shown
  obtain ⟨before, block, after, split, rfl⟩ := h.blocks c piece there
  have framable : ∀ d ∈ block, d.Framable := by
    intro d inside
    apply h.framable_drafts
    rw [split]
    exact List.mem_append_left _ (List.mem_append_right _ inside)
  obtain ⟨fs, made, -⟩ := Draft.exists_frames framable
  exact ⟨fs, made⟩

end Drains

end Journal

/-- Replays put together: frames and then any bytes, byte strings in turn, and what a journal has been
drained of and still holds. And replays cut off: of a buffer of frames, the entries before the cut. -/
theorem replay_joined_and_cut (free : PlaceFree apply) :
    (∀ (fs : List Frame) (rest : Bytes) (s : σ),
        let first := replayWith apply (Frame.join fs) s
        let second := replayWith apply rest first.2
        let both := replayWith apply (Frame.join fs ++ rest) s
        both = (first.1.followedBy (Frame.join fs).length second.1, second.2) ∧
          both.1.truncatedAt = second.1.truncatedAt.map ((Frame.join fs).length + ·)) ∧
      (∀ (groups : List (List Frame)) (last : Bytes) (s : σ),
        replayInTurn apply (groups.map Frame.join ++ [last]) s =
          replayWith apply ((groups.map Frame.join).flatten ++ last) s) ∧
      (∀ (config : JournalConfig) (j : Journal), Journal.new config = .ok j →
        ∀ calls : List Journal.Call, (∀ d, .commit d ∈ calls → d.Begun) → ∀ s : σ,
          let past := Journal.run calls j
          replayInTurn apply (Journal.drainedIn past.1 ++ [past.2.data]) s =
            replayWith apply ((Journal.appendedIn past.1).flatMap (·.1.framed)) s) ∧
      ∀ (fs : List Frame) (cut : Nat) (s : σ), cut ≤ (Frame.join fs).length →
        CutReplay apply (Frame.entriesFrom 0 fs) cut s
          (replayWith apply ((Frame.join fs).take cut) s) := by
  refine ⟨?_, Frame.replayInTurn_flatten free, ?_, ?_⟩
  · intro fs rest s first second both
    have whole : both = (first.1.followedBy (Frame.join fs).length second.1, second.2) :=
      Frame.replayWith_join_append free fs rest s
    refine ⟨whole, ?_⟩
    rw [whole, ReplayStats.followedBy, Frame.truncatedAt_join, Option.none_or]
  · intro config j made calls begun s past
    obtain ⟨rfl, valid⟩ := Journal.valid_of_new made
    have kept : Journal.Kept config past.1 past.2 :=
      Journal.kept_run valid begun (Journal.kept_new config)
    obtain ⟨groups, drained⟩ := kept.drained_groups
    have stream := kept.whole_stream
    rw [drained] at stream
    rw [drained, Frame.replayInTurn_flatten free]
    exact congrArg (replayWith apply · s) stream
  · intro fs cut s within
    exact Frame.cutReplay_take fs within s

/-- One byte, which records set. -/
def dial : Graph ValueType := { nodes := #[some { content := .value .u8 (0 : UInt8) }] }

/-- Two turns of the dial and a waypoint between them. -/
def turns : List Frame :=
  [⟨2, [2, 6], Nat.le_of_ble_eq_true rfl⟩, ⟨1, [], Nat.le_of_ble_eq_true rfl⟩,
    ⟨2, [2, 9], Nat.le_of_ble_eq_true rfl⟩]

/-- The cut goes through the second turn. -/
theorem dial_cut :
    PlaceFree (Graph.applyRecord ⟨0⟩ : Reader → Graph ValueType → Verdict × Graph ValueType) ∧
      13 ≤ (Frame.join turns).length ∧
      CutReplay (Graph.applyRecord ⟨0⟩) (Frame.entriesFrom 0 turns) 13 dial
        (dial.replay ⟨0⟩ ((Frame.join turns).take 13)) ∧
      (dial.replay ⟨0⟩ ((Frame.join turns).take 13)).1 =
        { read := 2, applied := 1, markers := 1, truncatedAt := some 10 } := by
  have free : PlaceFree
      (Graph.applyRecord ⟨0⟩ : Reader → Graph ValueType → Verdict × Graph ValueType) :=
    Graph.applyRecord_placeFree ⟨0⟩
  have within : 13 ≤ (Frame.join turns).length := by decide
  obtain ⟨-, -, -, cut⟩ := replay_joined_and_cut free
  exact ⟨free, within, cut turns 13 dial within, by decide +kernel⟩

end GraphJournal
