import GraphJournal.Entry.Draft
import GraphJournal.Entry.Scan
import GraphJournal.Replay

/-!
# Frames

An entry apart from the buffer it stands in: the byte of its kind and its payload. A buffer that is
made of frames is scanned, and replayed, frame by frame. Framing a draft gives such a frame unless
the draft is too long for the length field. Buffers that are NOT made of frames are no subject here.
-/
namespace GraphJournal

set_option autoImplicit false

/-- The byte of an entry's kind and a payload that the length field has room for. -/
structure Frame where
  kindByte : UInt8
  payload : Bytes
  fits : payload.length < maxLengthField

namespace Frame

def size (f : Frame) : Nat := entryHeaderSize + f.payload.length

def header (f : Frame) : EntryHeader := { length := f.payload.length + 1, kindByte := f.kindByte }

def bytes (f : Frame) : Bytes :=
  Bytes.bigEndian lengthFieldSize (f.payload.length + 1) ++ f.kindByte :: f.payload

def entryAt (f : Frame) (offset : Nat) : Entry := { offset, header := f.header, payload := f.payload }

def join (fs : List Frame) : Bytes := fs.flatMap bytes

def entriesFrom : Nat → List Frame → List Entry
  | _, [] => []
  | offset, f :: fs => f.entryAt offset :: entriesFrom (offset + f.size) fs

@[simp] theorem length_bytes (f : Frame) : f.bytes.length = f.size := by
  simp only [bytes, size, List.length_append, Bytes.length_bigEndian, List.length_cons,
    lengthFieldSize, entryHeaderSize]
  omega

@[simp] theorem framedLength_header (f : Frame) : f.header.framedLength = f.size := by
  simp only [EntryHeader.framedLength, header, size, lengthFieldSize, entryHeaderSize]
  omega

@[simp] theorem payloadLength_header (f : Frame) : f.header.payloadLength = f.payload.length := rfl

@[simp] theorem join_nil : join [] = [] := rfl

@[simp] theorem join_cons (f : Frame) (fs : List Frame) : join (f :: fs) = f.bytes ++ join fs := rfl

@[simp] theorem join_append (fs gs : List Frame) : join (fs ++ gs) = join fs ++ join gs := by
  simp [join]

theorem bytes_ne_nil (f : Frame) : f.bytes ≠ [] := by
  intro h
  have := congrArg List.length h
  simp [size, entryHeaderSize] at this

theorem drop_bytes_append (f : Frame) (rest : Bytes) : (f.bytes ++ rest).drop f.size = rest := by
  rw [← length_bytes, List.drop_left]

theorem payload_of_bytes_append (f : Frame) (rest : Bytes) :
    ((f.bytes ++ rest).drop entryHeaderSize).take f.payload.length = f.payload := by
  have split : f.bytes ++ rest =
      (Bytes.bigEndian lengthFieldSize (f.payload.length + 1) ++ [f.kindByte]) ++
        (f.payload ++ rest) := by
    simp [bytes]
  have front : (Bytes.bigEndian lengthFieldSize (f.payload.length + 1) ++ [f.kindByte]).length =
      entryHeaderSize := by
    simp [lengthFieldSize, entryHeaderSize]
  rw [split, ← front, List.drop_left, List.take_left]

/-- What is written to a length field is read back. -/
theorem exists_lengthField {n : Nat} (fits : n ≤ maxLengthField) :
    ∃ b₀ b₁ b₂, Bytes.bigEndian lengthFieldSize n = [b₀, b₁, b₂] ∧ decodeLength b₀ b₁ b₂ = n := by
  obtain ⟨b₀, b₁, b₂, field⟩ : ∃ b₀ b₁ b₂, Bytes.bigEndian 3 n = [b₀, b₁, b₂] := ⟨_, _, _, rfl⟩
  have value := Bytes.toNat_bigEndian 3 n
  simp only [maxLengthField] at fits
  rw [field, Nat.mod_eq_of_lt (by simp only [Bytes.limit]; omega)] at value
  exact ⟨b₀, b₁, b₂, field, value⟩

/-- A frame is read back as the header it was written from, whatever stands behind it. -/
theorem ofFront_bytes (f : Frame) (rest : Bytes) (offset : Nat) :
    EntryHeader.ofFront (f.bytes ++ rest) offset = .ok f.header := by
  obtain ⟨b₀, b₁, b₂, field, value⟩ := exists_lengthField f.fits
  have enough : Bytes.hasAtLeast (decodeLength b₀ b₁ b₂ - 1) (f.payload ++ rest) = true := by
    rw [value, Bytes.hasAtLeast_iff, List.length_append]
    omega
  simp only [bytes, field, List.cons_append, List.nil_append, EntryHeader.ofFront]
  rw [if_neg (by omega), if_pos enough, value]
  rfl

theorem scanFrom_nil (offset : Nat) : scanFrom offset [] = [] := by
  rw [scanFrom]
  exact if_pos rfl

theorem scanFrom_bytes_append (f : Frame) (rest : Bytes) (offset : Nat) :
    scanFrom offset (f.bytes ++ rest) =
      .ok (f.entryAt offset) :: scanFrom (offset + f.size) rest := by
  rw [scanFrom, if_neg (by simp [f.bytes_ne_nil])]
  split
  · rename_i refused
    rw [ofFront_bytes] at refused
    cases refused
  · rename_i header accepted
    rw [ofFront_bytes] at accepted
    cases accepted
    simp only [payloadLength_header, payload_of_bytes_append, framedLength_header,
      drop_bytes_append]
    rfl

theorem scanFrom_join (fs : List Frame) (offset : Nat) :
    scanFrom offset (join fs) = (entriesFrom offset fs).map .ok := by
  induction fs generalizing offset with
  | nil => exact scanFrom_nil offset
  | cons f fs ih => rw [join_cons, scanFrom_bytes_append, ih]; rfl

/-- A buffer made of frames is scanned as just these, without an error. -/
theorem scan_join (fs : List Frame) : scan (join fs) = (entriesFrom 0 fs).map .ok :=
  scanFrom_join fs 0

section Replay
variable {σ : Type} (apply : Reader → σ → Verdict × σ)

def replayFrames (offset : Nat) : List Frame → ReplayStats × σ → ReplayStats × σ
  | [], r => r
  | f :: fs, (stats, s) =>
    replayFrames (offset + f.size) fs
      (replayEntry apply f.header (offset + entryHeaderSize) f.payload stats s)

theorem replayFrames_append (offset : Nat) (fs gs : List Frame) (r : ReplayStats × σ) :
    replayFrames apply offset (fs ++ gs) r =
      replayFrames apply (offset + (join fs).length) gs (replayFrames apply offset fs r) := by
  induction fs generalizing offset r with
  | nil => rfl
  | cons f fs ih =>
    simp only [List.cons_append, replayFrames, ih, join_cons, List.length_append, length_bytes,
      Nat.add_assoc]

theorem replayFrom_nil (offset : Nat) (stats : ReplayStats) (s : σ) :
    replayFrom apply offset [] stats s = (stats, s) := by
  rw [replayFrom]
  exact if_pos rfl

theorem replayFrom_bytes_append (f : Frame) (rest : Bytes) (offset : Nat) (stats : ReplayStats)
    (s : σ) :
    replayFrom apply offset (f.bytes ++ rest) stats s =
      replayFrom apply (offset + f.size) rest
        (replayEntry apply f.header (offset + entryHeaderSize) f.payload stats s).1
        (replayEntry apply f.header (offset + entryHeaderSize) f.payload stats s).2 := by
  rw [replayFrom, if_neg (by simp [f.bytes_ne_nil])]
  split
  · rename_i refused
    rw [ofFront_bytes] at refused
    cases refused
  · rename_i header accepted
    rw [ofFront_bytes] at accepted
    cases accepted
    simp only [payloadLength_header, payload_of_bytes_append, framedLength_header,
      drop_bytes_append]

theorem replayFrom_join (fs : List Frame) (offset : Nat) (stats : ReplayStats) (s : σ) :
    replayFrom apply offset (join fs) stats s = replayFrames apply offset fs (stats, s) := by
  induction fs generalizing offset stats s with
  | nil => exact replayFrom_nil apply offset stats s
  | cons f fs ih => rw [join_cons, replayFrom_bytes_append, ih]; rfl

/-- A buffer made of frames is replayed frame by frame. -/
theorem replayWith_join (fs : List Frame) (s : σ) :
    replayWith apply (join fs) s = replayFrames apply 0 fs ({}, s) :=
  replayFrom_join apply fs 0 {} s

end Replay

end Frame

namespace Draft

/-- A draft as it comes about: begun, and then written to or overwritten in part. -/
inductive Begun : Draft → Prop
  | begin (kind : EntryKind) : Begun (Draft.begin kind)
  | append {d : Draft} (bytes : Bytes) : Begun d → Begun (d.append bytes)
  | patch {d : Draft} {offset : Nat} {bytes : Bytes} {writer : Writer} :
      Begun d → d.writer.patch offset bytes = .ok writer → Begun { d with writer }

def kindByte (d : Draft) : UInt8 := d.writer.bytes.getD lengthFieldSize 0

theorem length_of_patch {w writer : Writer} {offset : Nat} {bytes : Bytes}
    (h : w.patch offset bytes = .ok writer) : writer.length = w.length := by
  unfold Writer.patch at h
  split at h
  · cases h
    simp only [Writer.length, List.length_append, List.length_take, List.length_drop] at *
    omega
  · cases h

theorem Begun.header_le {d : Draft} (h : Begun d) : entryHeaderSize ≤ d.framedLength := by
  induction h with
  | begin kind => exact Nat.le_refl _
  | append bytes _ ih =>
    simp only [framedLength, Writer.length, Draft.append, Writer.append, List.length_append] at *
    omega
  | patch _ patched ih =>
    simp only [framedLength, length_of_patch patched] at *
    exact ih

theorem framedLength_eq {d : Draft} (h : entryHeaderSize ≤ d.framedLength) :
    d.framedLength = entryHeaderSize + d.payload.length := by
  simp only [payload, framedLength, Writer.length, List.length_drop] at *
  omega

theorem drop_lengthField {d : Draft} (h : entryHeaderSize ≤ d.framedLength) :
    d.writer.bytes.drop lengthFieldSize = d.kindByte :: d.payload := by
  simp only [framedLength, Writer.length, entryHeaderSize] at h
  rw [List.drop_eq_getElem_cons (by simp only [lengthFieldSize]; omega), kindByte,
    List.getD_eq_getElem?_getD, List.getElem?_eq_getElem (by simp only [lengthFieldSize]; omega)]
  rfl

theorem payload_append {d : Draft} (h : entryHeaderSize ≤ d.framedLength) (bytes : Bytes) :
    (d.append bytes).payload = d.payload ++ bytes :=
  List.drop_append_of_le_length h

theorem kindByte_append {d : Draft} (h : entryHeaderSize ≤ d.framedLength) (bytes : Bytes) :
    (d.append bytes).kindByte = d.kindByte := by
  have there : lengthFieldSize < d.writer.bytes.length := h
  simp only [kindByte, Draft.append, Writer.append, List.getD_eq_getElem?_getD,
    List.getElem?_append_left there]

def record (payload : Bytes) : Draft := (Draft.begin .record).append payload

@[simp] theorem append_record (payload bytes : Bytes) :
    (record payload).append bytes = record (payload ++ bytes) := by
  simp [record, Draft.append, Writer.append]

@[simp] theorem payload_record (bytes : Bytes) : (record bytes).payload = bytes := rfl

@[simp] theorem kindByte_record (bytes : Bytes) :
    (record bytes).kindByte = EntryKind.record.byte := rfl

theorem begun_record (payload : Bytes) : (record payload).Begun := (Begun.begin .record).append payload

/-- Framing fills in the length field and changes nothing else, or finds the draft too long. -/
theorem frame_cases {d : Draft} (h : entryHeaderSize ≤ d.framedLength) :
    (∃ f : Frame, f.kindByte = d.kindByte ∧ f.payload = d.payload ∧
      d.framedLength ≤ maxFramedEntry ∧ d.frame = .ok (f.bytes, { d with writer := ⟨f.bytes⟩ })) ∨
    (maxFramedEntry < d.framedLength ∧
      d.frame = .error (.entryTooLarge d.framedLength maxFramedEntry)) := by
  have size := framedLength_eq h
  have tail := drop_lengthField h
  simp only [entryHeaderSize] at size
  by_cases short : d.framedLength - lengthFieldSize ≤ maxLengthField
  · have room : d.payload.length < maxLengthField := by
      simp only [lengthFieldSize, maxLengthField] at *
      omega
    have rest : d.framedLength - lengthFieldSize = d.payload.length + 1 := by
      simp only [lengthFieldSize]
      omega
    refine Or.inl ⟨⟨d.kindByte, d.payload, room⟩, rfl, rfl, ?_, ?_⟩
    · simp only [maxFramedEntry, lengthFieldSize, maxLengthField] at *
      omega
    · simp only [frame, encodeLength?, if_pos short, Writer.patch, Bytes.length_bigEndian]
      rw [if_pos (by simp only [framedLength, lengthFieldSize] at *; omega)]
      simp only [rest, List.take_zero, List.nil_append, Nat.zero_add, tail]
      rfl
  · refine Or.inr ⟨?_, ?_⟩
    · simp only [maxFramedEntry, lengthFieldSize, maxLengthField] at *
      omega
    · simp only [frame, encodeLength?, if_neg short]

end Draft

end GraphJournal
