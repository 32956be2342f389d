import GraphJournal.Proofs.Frame

/-!
# Scanning bytes of any kind

Every byte string starts with frames, as many as can be, and goes on with bytes that start with
none. A scan finds just these frames and says where they end, so that it reads the language of the
frames and nothing else. What the kinds and payloads of entries mean is no matter of this module.
-/
namespace GraphJournal

set_option autoImplicit false

namespace Entry

/-- The entry as it stands in a buffer: its header, then its payload. -/
def encode (e : Entry) : Except Error Bytes := e.header.encode.map (· ++ e.payload)

/-- Entries that lie side by side from `start` to `stop`. -/
def Tile (start : Nat) : List Entry → Nat → Prop
  | [], stop => start = stop
  | e :: es, stop => e.offset = start ∧ Tile e.nextOffset es stop

theorem stop_unique {start stop stop' : Nat} {es : List Entry} (tile : Tile start es stop)
    (tile' : Tile start es stop') : stop = stop' := by
  induction es generalizing start with
  | nil => exact tile.symm.trans tile'
  | cons e es ih => exact ih tile.2 tile'.2

end Entry

namespace EntryHeader

theorem decodeLength_le (b₀ b₁ b₂ : UInt8) : decodeLength b₀ b₁ b₂ ≤ maxLengthField := by
  have h₀ := b₀.toNat_lt
  have h₁ := b₁.toNat_lt
  have h₂ := b₂.toNat_lt
  simp only [decodeLength, Bytes.toNat, List.foldl_cons, List.foldl_nil, maxLengthField]
  omega

theorem bigEndian_decodeLength (b₀ b₁ b₂ : UInt8) :
    Bytes.bigEndian lengthFieldSize (decodeLength b₀ b₁ b₂) = [b₀, b₁, b₂] :=
  Bytes.bigEndian_toNat [b₀, b₁, b₂]

theorem error_of_ofFront {bytes : Bytes} {offset : Nat} {e : Error}
    (refused : ofFront bytes offset = .error e) : e = .truncated offset := by
  unfold ofFront at refused
  split at refused
  · dsimp only at refused
    split at refused
    · cases refused
      rfl
    · split at refused
      · cases refused
      · cases refused
        rfl
  · cases refused
    rfl

/-- An accepted header is the header of a frame that stands there. -/
theorem frame_of_ofFront {bytes : Bytes} {offset : Nat} {h : EntryHeader}
    (accepted : ofFront bytes offset = .ok h) :
    ∃ (f : Frame) (rest : Bytes), bytes = f.bytes ++ rest ∧ h = f.header := by
  unfold ofFront at accepted
  split at accepted
  case h_2 => cases accepted
  case h_1 b₀ b₁ b₂ kindByte tail =>
    dsimp only at accepted
    split at accepted
    · cases accepted
    · rename_i nonzero
      split at accepted
      · rename_i enough
        have room := Bytes.hasAtLeast_iff.mp enough
        have most := decodeLength_le b₀ b₁ b₂
        have size : (tail.take (decodeLength b₀ b₁ b₂ - 1)).length = decodeLength b₀ b₁ b₂ - 1 :=
          List.length_take_of_le room
        have field : decodeLength b₀ b₁ b₂ - 1 + 1 = decodeLength b₀ b₁ b₂ := by omega
        cases accepted
        refine ⟨⟨kindByte, tail.take (decodeLength b₀ b₁ b₂ - 1), by omega⟩,
          tail.drop (decodeLength b₀ b₁ b₂ - 1), ?_, ?_⟩
        · simp only [Frame.bytes, size, field, bigEndian_decodeLength, List.cons_append,
            List.nil_append, List.take_append_drop]
        · simp only [Frame.header, size, field]
      · cases accepted

end EntryHeader

namespace Frame

section Unique
variable {f g : Frame} {fs gs : List Frame} {xs ys rest : Bytes}

theorem bytes_append_inj (same : f.bytes ++ xs = g.bytes ++ ys) : f = g ∧ xs = ys := by
  have headers : f.header = g.header := by
    have front := ofFront_bytes f xs 0
    rw [same, ofFront_bytes] at front
    exact (Except.ok.inj front).symm
  have kind : f.kindByte = g.kindByte := congrArg EntryHeader.kindByte headers
  have length : f.payload.length = g.payload.length :=
    Nat.succ.inj (congrArg EntryHeader.length headers)
  have payload : f.payload = g.payload := by
    rw [← payload_of_bytes_append f xs, same, length, payload_of_bytes_append]
  have frames : f = g := by
    cases f
    cases g
    cases kind
    cases payload
    rfl
  refine ⟨frames, ?_⟩
  rw [frames] at same
  exact List.append_cancel_left same

/-- Bytes that start with no frame. -/
def Torn (rest : Bytes) : Prop := ∀ (f : Frame) (tail : Bytes), rest ≠ f.bytes ++ tail

theorem torn_nil : Torn [] := by
  intro f tail empty
  exact f.bytes_ne_nil (List.append_eq_nil_iff.mp empty.symm).1

theorem prefix_of_torn (torn : Torn rest) (same : join fs ++ rest = join gs ++ xs) :
    gs <+: fs := by
  induction gs generalizing fs with
  | nil => exact List.nil_prefix
  | cons g gs ih =>
    rw [join_cons, List.append_assoc] at same
    cases fs with
    | nil => exact absurd same (torn g _)
    | cons f fs =>
      rw [join_cons, List.append_assoc] at same
      obtain ⟨rfl, tails⟩ := bytes_append_inj same
      exact (List.prefix_cons_inj f).mpr (ih tails)

theorem join_injective (same : join fs = join gs) : fs = gs := by
  have whole : join fs ++ [] = join gs ++ [] := by rw [same]
  have left := prefix_of_torn torn_nil whole
  have right := prefix_of_torn torn_nil whole.symm
  exact right.eq_of_length (Nat.le_antisymm right.length_le left.length_le)

/-- Every byte string starts with frames, and then it is torn. -/
theorem exists_torn (buffer : Bytes) : ∃ fs rest, buffer = join fs ++ rest ∧ Torn rest := by
  induction size : buffer.length using Nat.strongRecOn generalizing buffer with
  | ind n ih =>
    -- A frame at the front is never empty, so what is behind it is shorter.
    by_cases more : ∃ (f : Frame) (tail : Bytes), buffer = f.bytes ++ tail
    · obtain ⟨f, tail, rfl⟩ := more
      have shorter : tail.length < n := by
        rw [← size, List.length_append, length_bytes]
        simp only [Frame.size, entryHeaderSize]
        omega
      obtain ⟨fs, rest, rfl, torn⟩ := ih tail.length shorter tail rfl
      exact ⟨f :: fs, rest, by rw [join_cons, List.append_assoc], torn⟩
    · refine ⟨[], buffer, rfl, ?_⟩
      intro f tail there
      exact more ⟨f, tail, there⟩

end Unique

section Entries
variable {offset : Nat} {fs : List Frame}

theorem nextOffset_entryAt (f : Frame) (offset : Nat) :
    (f.entryAt offset).nextOffset = offset + f.size := by
  rw [Entry.nextOffset, entryAt, framedLength_header]

theorem length_entriesFrom (offset : Nat) (fs : List Frame) :
    (entriesFrom offset fs).length = fs.length := by
  induction fs generalizing offset with
  | nil => rfl
  | cons f fs ih => exact congrArg (· + 1) (ih _)

theorem tile_entriesFrom (offset : Nat) (fs : List Frame) :
    Entry.Tile offset (entriesFrom offset fs) (offset + (join fs).length) := by
  induction fs generalizing offset with
  | nil => rfl
  | cons f fs ih =>
    refine ⟨rfl, ?_⟩
    have rest := ih (offset + f.size)
    rwa [nextOffset_entryAt, join_cons, List.length_append, length_bytes, ← Nat.add_assoc]

theorem tile_entries (fs : List Frame) : Entry.Tile 0 (entriesFrom 0 fs) (join fs).length := by
  have tile := tile_entriesFrom 0 fs
  rwa [Nat.zero_add] at tile

theorem encode_header (f : Frame) :
    f.header.encode = .ok (Bytes.bigEndian lengthFieldSize (f.payload.length + 1) ++ [f.kindByte]) := by
  have fits : f.header.length ≤ maxLengthField := f.fits
  simp only [EntryHeader.encode, encodeLength?, if_pos fits]
  rfl

theorem encode_entryAt (f : Frame) (offset : Nat) : (f.entryAt offset).encode = .ok f.bytes := by
  have whole : (f.entryAt offset).encode = f.header.encode.map (· ++ f.payload) := rfl
  rw [whole, encode_header]
  simp [Except.map, bytes]

theorem encode_entriesFrom (offset : Nat) (fs : List Frame) :
    (entriesFrom offset fs).mapM Entry.encode = .ok (fs.map bytes) := by
  induction fs generalizing offset with
  | nil => rfl
  | cons f fs ih =>
    rw [entriesFrom, List.mapM_cons, encode_entryAt, ih]
    rfl

theorem frame_of_mem {e : Entry} (mem : e ∈ entriesFrom offset fs) :
    ∃ before f after, fs = before ++ f :: after ∧ e = f.entryAt (offset + (join before).length) := by
  induction fs generalizing offset with
  | nil => cases mem
  | cons f fs ih =>
    rcases List.mem_cons.mp mem with rfl | mem
    · exact ⟨[], f, fs, rfl, rfl⟩
    · obtain ⟨before, g, after, rfl, rfl⟩ := ih mem
      refine ⟨f :: before, g, after, rfl, ?_⟩
      rw [join_cons, List.length_append, length_bytes, Nat.add_assoc]

end Entries

section Scan

/-- Where a walk stops that comes to `rest`, unless nothing is left there. -/
def stop? (offset : Nat) (rest : Bytes) : Option Nat :=
  if rest.isEmpty then none else some offset

def lastItem (stopped : Option Nat) : List (Except Error Entry) :=
  stopped.toList.map fun offset => .error (.truncated offset)

theorem ofFront_torn {rest : Bytes} (torn : Torn rest) (offset : Nat) :
    EntryHeader.ofFront rest offset = .error (.truncated offset) := by
  cases front : EntryHeader.ofFront rest offset with
  | error e => rw [EntryHeader.error_of_ofFront front]
  | ok h =>
    obtain ⟨f, tail, there, -⟩ := EntryHeader.frame_of_ofFront front
    exact absurd there (torn f tail)

theorem scanFrom_torn {rest : Bytes} (torn : Torn rest) (offset : Nat) :
    scanFrom offset rest = lastItem (stop? offset rest) := by
  rw [scanFrom, stop?]
  by_cases empty : rest.isEmpty
  · rw [if_pos empty, if_pos empty]
    rfl
  · rw [if_neg empty, if_neg empty]
    split
    · rename_i e refused
      rw [EntryHeader.error_of_ofFront refused]
      rfl
    · rename_i accepted
      rw [ofFront_torn torn] at accepted
      cases accepted

theorem scanFrom_join_append (fs : List Frame) (rest : Bytes) (offset : Nat) :
    scanFrom offset (join fs ++ rest) =
      (entriesFrom offset fs).map .ok ++ scanFrom (offset + (join fs).length) rest := by
  induction fs generalizing offset with
  | nil => rfl
  | cons f fs ih =>
    rw [join_cons, List.append_assoc, scanFrom_bytes_append, ih, List.length_append, length_bytes,
      ← Nat.add_assoc]
    rfl

theorem scan_torn (fs : List Frame) {rest : Bytes} (torn : Torn rest) :
    scan (join fs ++ rest) =
      (entriesFrom 0 fs).map .ok ++ lastItem (stop? (join fs).length rest) := by
  rw [scan, scanFrom_join_append, scanFrom_torn torn, Nat.zero_add]

theorem accepted_iff (fs : List Frame) (stopped : Option Nat) :
    (∀ item ∈ (entriesFrom 0 fs).map Except.ok ++ lastItem stopped, ∃ e, item = .ok e) ↔
      stopped = none := by
  cases stopped with
  | none =>
    refine iff_of_true ?_ rfl
    intro item mem
    simp only [lastItem, Option.toList_none, List.map_nil, List.append_nil] at mem
    obtain ⟨e, -, rfl⟩ := List.mem_map.mp mem
    exact ⟨e, rfl⟩
  | some offset =>
    refine iff_of_false ?_ (by simp)
    intro all
    obtain ⟨e, wrong⟩ := all (.error (.truncated offset)) (List.mem_append_right _ (by simp [lastItem]))
    cases wrong

end Scan

/-- What a buffer is made of, and what a scan finds in it: `fs`, and then `rest`. -/
structure Parsed (buffer : Bytes) (fs : List Frame) (rest : Bytes) : Prop where
  split : buffer = join fs ++ rest
  /-- All frames that the buffer can start with are among `fs`. -/
  longest : ∀ gs tail, buffer = join gs ++ tail → gs <+: fs
  items : scan buffer = (entriesFrom 0 fs).map .ok ++ lastItem (stop? (join fs).length rest)
  tiled : Entry.Tile 0 (entriesFrom 0 fs) (join fs).length
  written : (entriesFrom 0 fs).mapM Entry.encode = .ok (fs.map bytes)
  whole : (∀ item ∈ scan buffer, ∃ e, item = .ok e) ↔ ∃ gs, buffer = join gs

theorem parsed_of_torn (fs : List Frame) {rest : Bytes} (torn : Torn rest) :
    Parsed (join fs ++ rest) fs rest := by
  refine ⟨rfl, ?_, scan_torn fs torn, tile_entries fs, encode_entriesFrom 0 fs, ?_⟩
  · intro gs tail same
    exact prefix_of_torn torn same
  · rw [scan_torn fs torn, accepted_iff]
    constructor
    · intro nothing
      cases rest with
      | nil => exact ⟨fs, List.append_nil _⟩
      | cons b rest => cases nothing
    · rintro ⟨gs, same⟩
      have longest : gs <+: fs := prefix_of_torn torn (by rw [same, List.append_nil])
      obtain ⟨more, rfl⟩ := longest
      rw [join_append, List.append_assoc] at same
      have none := List.append_eq_nil_iff.mp (List.append_right_eq_self.mp same)
      rw [none.2]
      rfl

/-- Scanning accepts the concatenations of frames, each read as the one list of frames that it is
made of, and of any other byte string the longest front that is one. -/
theorem scan_reads_frames :
    (∀ f : Frame, f.header.encode.map (· ++ f.payload) = .ok f.bytes) ∧
      (∀ fs : List Frame, scan (join fs) = (entriesFrom 0 fs).map .ok) ∧
      (∀ fs gs : List Frame, join fs = join gs → fs = gs) ∧
      ∀ buffer : Bytes, ∃ fs rest, Parsed buffer fs rest := by
  refine ⟨fun f => encode_entryAt f 0, scan_join, fun _ _ => join_injective, ?_⟩
  intro buffer
  obtain ⟨fs, rest, rfl, torn⟩ := exists_torn buffer
  exact ⟨fs, rest, parsed_of_torn fs torn⟩

end Frame

end GraphJournal
