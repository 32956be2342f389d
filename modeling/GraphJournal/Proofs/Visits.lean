import GraphJournal.Proofs.Scanning

/-!
# What a replay visits

A replay goes by the entries that a scan of the same bytes accepts, whatever the bytes are and
whatever is done with the records. What records do to a graph is NOT looked at here: the state that
they act on, and the answers that they get, are arbitrary.
-/
namespace GraphJournal

set_option autoImplicit false

/-- The entries among the items of a scan. -/
def accepted (items : List (Except Error Entry)) : List Entry := items.filterMap Except.toOption

namespace Entry

def isRecord (e : Entry) : Bool := e.header.kindByte == 2

/-- A reader for the payload and nothing else, which starts where the payload does. -/
def reader (e : Entry) : Reader := .ofBytes e.payload e.payloadOffset

def readers (entries : List Entry) : List Reader := (entries.filter isRecord).map reader

/-- All that is said of an entry can be found in the buffer, at its place. -/
structure StandsIn (buffer : Bytes) (e : Entry) : Prop where
  header : EntryHeader.decode buffer e.offset = .ok e.header
  inside : e.payloadOffset ≤ e.nextOffset ∧ e.nextOffset ≤ buffer.length
  payload : e.payload = (buffer.take e.nextOffset).drop e.payloadOffset
  length : e.payload.length = e.header.payloadLength

end Entry

variable {σ : Type} (apply : Reader → σ → Verdict × σ)

def handAll : List Reader → σ → List Verdict × σ
  | [], s => ([], s)
  | r :: rs, s =>
    let (verdict, s) := apply r s
    let (verdicts, s) := handAll rs s
    (verdict :: verdicts, s)

/-- A replay that has visited `entries` one after the other, and nothing else. -/
structure Visits (buffer : Bytes) (entries : List Entry) (s : σ) (result : ReplayStats × σ) :
    Prop where
  state : result.2 = (handAll apply (Entry.readers entries) s).2
  applied : result.1.applied =
    (handAll apply (Entry.readers entries) s).1.countP fun v => v.isApplied
  failed : result.1.failed =
    (handAll apply (Entry.readers entries) s).1.countP fun v => !v.isApplied
  markers : result.1.markers = entries.countP fun e => e.header.kindByte < 2
  unknown : result.1.unknown = entries.countP fun e => 2 < e.header.kindByte
  read : result.1.read = entries.length
  total : result.1.read =
    result.1.applied + result.1.failed + result.1.markers + result.1.unknown
  bound : result.1.read ≤ buffer.length / 4
  /-- The walk goes from one entry to where the header of that entry puts the next one, until
  nothing is left or no entry starts. -/
  tiled : Entry.Tile 0 entries (result.1.truncatedAt.getD buffer.length)
  stopped : ∀ o, result.1.truncatedAt = some o ↔
    (∃ e, (scan buffer).getLast? = some (.error e)) ∧ Entry.Tile 0 entries o
  sliced : ∀ e ∈ entries, e.StandsIn buffer

namespace ReplayStats

def tally (stats : ReplayStats) (entries : List Entry) (verdicts : List Verdict) : ReplayStats :=
  { stats with
    read := stats.read + entries.length
    applied := stats.applied + verdicts.countP fun v => v.isApplied
    failed := stats.failed + verdicts.countP fun v => !v.isApplied
    markers := stats.markers + entries.countP fun e => e.header.kindByte < 2
    unknown := stats.unknown + entries.countP fun e => 2 < e.header.kindByte }

section Tally
variable {e : Entry} (es : List Entry) (stats : ReplayStats)

theorem tally_record (kind : e.header.kindByte = 2) (v : Verdict) (vs : List Verdict) :
    stats.tally (e :: es) (v :: vs) = (stats.countRecord v).tally es vs := by
  cases applied : v.isApplied <;> simp [tally, countRecord, kind, applied] <;> omega

theorem tally_marker (kind : e.header.kindByte < 2) (vs : List Verdict) :
    stats.tally (e :: es) vs = (stats.countOther true).tally es vs := by
  have known : ¬ 2 < e.header.kindByte := UInt8.lt_asymm kind
  simp [tally, countOther, kind, known]
  omega

theorem tally_unknown (kind : 2 < e.header.kindByte) (vs : List Verdict) :
    stats.tally (e :: es) vs = (stats.countOther false).tally es vs := by
  have unmarked : ¬ e.header.kindByte < 2 := UInt8.lt_asymm kind
  simp [tally, countOther, kind, unmarked]
  omega

end Tally

end ReplayStats

namespace EntryKind

/-- The byte of a marker, of a record, or of no kind. -/
theorem byte_cases (b : UInt8) : b < 2 ∨ b = 2 ∨ 2 < b := by
  rcases Nat.lt_trichotomy b.toNat 2 with marker | record | unknown
  · exact Or.inl (UInt8.lt_iff_toNat_lt.mpr marker)
  · exact Or.inr (Or.inl (UInt8.toNat_inj.mp record))
  · exact Or.inr (Or.inr (UInt8.lt_iff_toNat_lt.mpr unknown))

theorem ofByte?_of_lt {b : UInt8} (small : b < 2) :
    ∃ kind, ofByte? b = some kind ∧ kind.isDispatched = false := by
  have few : b = 0 ∨ b = 1 := by
    have below : b.toNat < 2 := UInt8.lt_iff_toNat_lt.mp small
    have which : b.toNat = 0 ∨ b.toNat = 1 := by omega
    exact which.imp UInt8.toNat_inj.mp UInt8.toNat_inj.mp
  rcases few with rfl | rfl
  · exact ⟨startingPoint, rfl, rfl⟩
  · exact ⟨waypoint, rfl, rfl⟩

theorem ofByte?_of_gt {b : UInt8} (large : 2 < b) : ofByte? b = none := by
  unfold ofByte?
  split
  · exact absurd large (by decide)
  · exact absurd large (by decide)
  · exact absurd large (by decide)
  · rfl

end EntryKind

namespace Frame

section Walk
variable {apply}

theorem replayEntry_record {f : Frame} (kind : f.kindByte = 2) (offset : Nat) (stats : ReplayStats)
    (s : σ) :
    replayEntry apply f.header offset f.payload stats s =
      (stats.countRecord (apply (.ofBytes f.payload offset) s).1,
        (apply (.ofBytes f.payload offset) s).2) := by
  have named : f.header.kind? = some .record := congrArg EntryKind.ofByte? kind
  rw [replayEntry, named]
  rfl

theorem replayEntry_marker {f : Frame} (kind : f.kindByte < 2) (offset : Nat) (stats : ReplayStats)
    (s : σ) :
    replayEntry apply f.header offset f.payload stats s = (stats.countOther true, s) := by
  obtain ⟨known, named, idle⟩ := EntryKind.ofByte?_of_lt kind
  have named : f.header.kind? = some known := named
  rw [replayEntry, named]
  exact if_neg (by rw [idle]; exact Bool.false_ne_true)

theorem replayEntry_unknown {f : Frame} (kind : 2 < f.kindByte) (offset : Nat)
    (stats : ReplayStats) (s : σ) :
    replayEntry apply f.header offset f.payload stats s = (stats.countOther false, s) := by
  have unnamed : f.header.kind? = none := EntryKind.ofByte?_of_gt kind
  rw [replayEntry, unnamed]

end Walk

theorem readers_record {e : Entry} (kind : e.header.kindByte = 2) (es : List Entry) :
    Entry.readers (e :: es) = e.reader :: Entry.readers es := by
  have record : e.isRecord = true := beq_iff_eq.mpr kind
  rw [Entry.readers, List.filter_cons_of_pos record]
  rfl

theorem readers_other {e : Entry} (kind : e.header.kindByte ≠ 2) (es : List Entry) :
    Entry.readers (e :: es) = Entry.readers es := by
  have other : ¬ e.isRecord = true := fun record => kind (beq_iff_eq.mp record)
  rw [Entry.readers, List.filter_cons_of_neg other]
  rfl

theorem replayFrames_eq (offset : Nat) (fs : List Frame) (stats : ReplayStats) (s : σ) :
    replayFrames apply offset fs (stats, s) =
      (stats.tally (entriesFrom offset fs)
          (handAll apply (Entry.readers (entriesFrom offset fs)) s).1,
        (handAll apply (Entry.readers (entriesFrom offset fs)) s).2) := by
  induction fs generalizing offset stats s with
  | nil => rfl
  | cons f fs ih =>
    rcases EntryKind.byte_cases f.kindByte with marker | record | unknown
    · have other : f.kindByte ≠ 2 := UInt8.ne_of_lt marker
      rw [replayFrames, replayEntry_marker marker, ih, entriesFrom, readers_other other,
        ReplayStats.tally_marker _ _ marker]
    · rw [replayFrames, replayEntry_record record, ih, entriesFrom, readers_record record, handAll,
        ReplayStats.tally_record _ _ record]
      rfl
    · have other : f.kindByte ≠ 2 := (UInt8.ne_of_lt unknown).symm
      rw [replayFrames, replayEntry_unknown unknown, ih, entriesFrom, readers_other other,
        ReplayStats.tally_unknown _ _ unknown]

theorem replayFrom_torn {rest : Bytes} (torn : Torn rest) (offset : Nat) (stats : ReplayStats)
    (s : σ) :
    replayFrom apply offset rest stats s =
      ({ stats with truncatedAt := (stop? offset rest).or stats.truncatedAt }, s) := by
  rw [replayFrom, stop?]
  by_cases empty : rest.isEmpty
  · rw [if_pos empty, if_pos empty]
    rfl
  · rw [if_neg empty, if_neg empty]
    split
    · rfl
    · rename_i accepted
      rw [ofFront_torn torn] at accepted
      cases accepted

theorem replayFrom_join_append (fs : List Frame) (rest : Bytes) (offset : Nat)
    (stats : ReplayStats) (s : σ) :
    replayFrom apply offset (join fs ++ rest) stats s =
      replayFrom apply (offset + (join fs).length) rest
        (replayFrames apply offset fs (stats, s)).1
        (replayFrames apply offset fs (stats, s)).2 := by
  induction fs generalizing offset stats s with
  | nil => rfl
  | cons f fs ih =>
    rw [join_cons, List.append_assoc, replayFrom_bytes_append, ih, List.length_append,
      length_bytes, ← Nat.add_assoc]
    rfl

theorem replayWith_torn (fs : List Frame) {rest : Bytes} (torn : Torn rest) (s : σ) :
    replayWith apply (join fs ++ rest) s =
      ({ ({} : ReplayStats).tally (entriesFrom 0 fs)
            (handAll apply (Entry.readers (entriesFrom 0 fs)) s).1 with
          truncatedAt := stop? (join fs).length rest },
        (handAll apply (Entry.readers (entriesFrom 0 fs)) s).2) := by
  rw [replayWith, replayFrom_join_append, replayFrom_torn apply torn, replayFrames_eq, Nat.zero_add]
  simp only [ReplayStats.tally, Option.or_none]

theorem accepted_scan (fs : List Frame) {rest : Bytes} (torn : Torn rest) :
    accepted (scan (join fs ++ rest)) = entriesFrom 0 fs := by
  have found : accepted ((entriesFrom 0 fs).map .ok) = entriesFrom 0 fs := by
    rw [accepted, List.filterMap_map]
    exact List.filterMap_some
  have last : accepted (lastItem (stop? (join fs).length rest)) = [] := by
    cases stop? (join fs).length rest <;> rfl
  rw [scan_torn fs torn]
  rw [accepted] at found last ⊢
  rw [List.filterMap_append, found, last, List.append_nil]

theorem length_handAll (rs : List Reader) (s : σ) : (handAll apply rs s).1.length = rs.length := by
  induction rs generalizing s with
  | nil => rfl
  | cons r rs ih => exact congrArg (· + 1) (ih _)

theorem length_eq_counts (es : List Entry) :
    es.length = (Entry.readers es).length + (es.countP fun e => e.header.kindByte < 2) +
      es.countP fun e => 2 < e.header.kindByte := by
  induction es with
  | nil => rfl
  | cons e es ih =>
    rcases EntryKind.byte_cases e.header.kindByte with marker | record | unknown
    · have known : ¬ 2 < e.header.kindByte := UInt8.lt_asymm marker
      rw [readers_other (UInt8.ne_of_lt marker), List.countP_cons_of_pos (by simpa using marker),
        List.countP_cons_of_neg (by simpa using known), List.length_cons, ih]
      omega
    · rw [readers_record record, List.countP_cons_of_neg (by simp [record]),
        List.countP_cons_of_neg (by simp [record]), List.length_cons, List.length_cons, ih]
      omega
    · have unmarked : ¬ e.header.kindByte < 2 := UInt8.lt_asymm unknown
      rw [readers_other (UInt8.ne_of_lt unknown).symm,
        List.countP_cons_of_neg (by simpa using unmarked),
        List.countP_cons_of_pos (by simpa using unknown), List.length_cons, ih]
      omega

theorem countP_isApplied (vs : List Verdict) :
    vs.length = (vs.countP fun v => v.isApplied) + vs.countP fun v => !v.isApplied := by
  induction vs with
  | nil => rfl
  | cons v vs ih => cases applied : v.isApplied <;> simp [applied, ih] <;> omega

theorem length_join_ge (fs : List Frame) : 4 * fs.length ≤ (join fs).length := by
  induction fs with
  | nil => exact Nat.le_refl _
  | cons f fs ih =>
    simp only [join_cons, List.length_append, List.length_cons, length_bytes, size, entryHeaderSize]
    omega

theorem stop?_eq_some_iff (fs : List Frame) {rest : Bytes} (torn : Torn rest) (o : Nat) :
    stop? (join fs).length rest = some o ↔
      (∃ e, (scan (join fs ++ rest)).getLast? = some (.error e)) ∧
        Entry.Tile 0 (entriesFrom 0 fs) o := by
  rw [scan_torn fs torn]
  cases rest with
  | nil =>
    refine iff_of_false (by simp [stop?]) ?_
    rintro ⟨⟨e, last⟩, -⟩
    have mem := List.mem_of_getLast? last
    obtain ⟨entry, wrong⟩ := (accepted_iff fs none).mpr rfl _ mem
    cases wrong
  | cons b rest =>
    have stopped : stop? (join fs).length (b :: rest) = some (join fs).length := rfl
    rw [stopped]
    constructor
    · intro here
      cases here
      exact ⟨⟨_, List.getLast?_concat⟩, tile_entries fs⟩
    · rintro ⟨-, other⟩
      rw [Entry.stop_unique (tile_entries fs) other]

theorem drop_bytes (f : Frame) : f.bytes.drop entryHeaderSize = f.payload := by
  have payload := payload_of_bytes_append f []
  have all : (f.bytes.drop entryHeaderSize).length = f.payload.length := by
    rw [List.length_drop, length_bytes, size, Nat.add_sub_cancel_left]
  rwa [List.append_nil, ← all, List.take_length] at payload

theorem standsIn_of_mem {fs : List Frame} {e : Entry} (rest : Bytes)
    (mem : e ∈ entriesFrom 0 fs) : e.StandsIn (join fs ++ rest) := by
  obtain ⟨before, f, after, rfl, rfl⟩ := frame_of_mem mem
  rw [Nat.zero_add]
  have whole : join (before ++ f :: after) ++ rest =
      join before ++ (f.bytes ++ (join after ++ rest)) := by
    simp only [join_append, join_cons, List.append_assoc]
  have front : (join before ++ (f.bytes ++ (join after ++ rest))).drop (join before).length =
      f.bytes ++ (join after ++ rest) := List.drop_left
  have next := nextOffset_entryAt f (join before).length
  constructor
  · rw [whole, EntryHeader.decode]
    exact (congrArg (EntryHeader.ofFront · _) front).trans (ofFront_bytes f _ _)
  · rw [next, whole]
    simp only [Entry.payloadOffset, entryAt, size, List.length_append, length_bytes]
    omega
  · rw [next, whole, List.take_length_add_append, List.take_left' (length_bytes f),
      Entry.payloadOffset]
    exact (drop_bytes f).symm.trans (List.drop_length_add_append _).symm
  · rfl

end Frame

/-- Whatever the bytes are and whatever is done with the records, a replay visits the entries that a
scan accepts. -/
theorem replay_visits_scan (buffer : Bytes) (s : σ) :
    Visits apply buffer (accepted (scan buffer)) s (replayWith apply buffer s) := by
  obtain ⟨fs, rest, rfl, torn⟩ := Frame.exists_torn buffer
  rw [Frame.accepted_scan fs torn, Frame.replayWith_torn apply fs torn]
  have counts := Frame.length_eq_counts (Frame.entriesFrom 0 fs)
  have handed := Frame.length_handAll apply (Entry.readers (Frame.entriesFrom 0 fs)) s
  have verdicts := Frame.countP_isApplied (handAll apply (Entry.readers (Frame.entriesFrom 0 fs)) s).1
  have room := Frame.length_join_ge fs
  refine ⟨rfl, ?_, ?_, ?_, ?_, ?_, ?_, ?_, ?_, ?_, ?_⟩
  · exact Nat.zero_add _
  · exact Nat.zero_add _
  · exact Nat.zero_add _
  · exact Nat.zero_add _
  · exact Nat.zero_add _
  · simp only [ReplayStats.tally]
    omega
  · simp only [ReplayStats.tally, Frame.length_entriesFrom, List.length_append]
    omega
  · cases rest with
    | nil =>
      rw [List.append_nil]
      exact Frame.tile_entries fs
    | cons b rest => exact Frame.tile_entries fs
  · exact Frame.stop?_eq_some_iff fs torn
  · intro e mem
    exact Frame.standsIn_of_mem rest mem

end GraphJournal
