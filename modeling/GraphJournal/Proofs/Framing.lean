import GraphJournal.Entry.Payload
import GraphJournal.Proofs.Frame
import GraphJournal.Proofs.Run
import GraphJournal.Values

/-!
# Framing a draft while it is written

A draft can be framed at any time, written to or patched afterwards, and framed again. The length
field is all that framing fills in, so the bytes behind it, and all other answers, are those of the
same calls without any framing among them. Only the length field as a patch leaves it is lost, the
next time that the draft is framed.

What becomes of a framed draft in a journal is NOT treated here.
-/
namespace GraphJournal

set_option autoImplicit false

open MessagePack

variable {κ : Type} [Values κ]

namespace Writer

/-- What can be asked of a writer. -/
inductive Call (κ : Type) [Values κ]
  | byte (b : UInt8)
  | bigEndian (width n : Nat)
  | varint (n : UInt64)
  | append (bytes : Bytes)
  | lengthPrefixed (bytes : Bytes)
  | value (layout : Layout) (kind : κ) (a : Values.Carrier kind)
  | reserve (n : Nat)
  | patch (offset : Nat) (bytes : Bytes)

/-- What a writer, or a draft, answers. -/
inductive Answer
  | done
  | place (offset : Nat)
  | entry (bytes : Bytes)

def perform : Call κ → WriterM Answer
  | .byte b => fun w => .ok .done (w.byte b)
  | .bigEndian width n => fun w => .ok .done (w.bigEndian width n)
  | .varint n => fun w => .ok .done (w.varint n)
  | .append bytes => fun w => .ok .done (w.append bytes)
  | .lengthPrefixed bytes => fun w => .ok .done (w.lengthPrefixed bytes)
  | .value layout kind a => do
    value (Values.codec kind) layout a
    return .done
  | .reserve n => fun w => .ok (.place (w.reserve n).1) (w.reserve n).2
  | .patch offset bytes => fun w =>
    match w.patch offset bytes with
    | .ok patched => .ok .done patched
    | .error e => .error e w

/-- The bytes with some of them overwritten. -/
def overwritten (w : Writer) (offset : Nat) (bytes : Bytes) : Writer :=
  ⟨w.bytes.take offset ++ (bytes ++ w.bytes.drop (offset + bytes.length))⟩

theorem length_overwritten {w : Writer} {offset : Nat} {bytes : Bytes}
    (inside : offset + bytes.length ≤ w.length) :
    (w.overwritten offset bytes).length = w.length := by
  simp only [length, overwritten, List.length_append, List.length_take, List.length_drop] at *
  omega

theorem getElem?_overwritten {w : Writer} {offset : Nat} {bytes : Bytes}
    (inside : offset + bytes.length ≤ w.length) (i : Nat) :
    (w.overwritten offset bytes).bytes[i]? =
      if offset ≤ i ∧ i < offset + bytes.length then bytes[i - offset]? else w.bytes[i]? := by
  have front : (w.bytes.take offset).length = offset := by
    rw [List.length_take, Nat.min_eq_left]
    exact Nat.le_trans (Nat.le_add_right _ _) inside
  rw [overwritten]
  by_cases before : i < offset
  · rw [if_neg (by omega), List.getElem?_append_left (by omega), List.getElem?_take_of_lt before]
  · rw [List.getElem?_append_right (by omega), front]
    by_cases within : i < offset + bytes.length
    · rw [if_pos ⟨by omega, within⟩, List.getElem?_append_left (by omega)]
    · rw [if_neg (by omega), List.getElem?_append_right (by omega), List.getElem?_drop]
      congr 1
      omega

/-- All calls but patches write something behind what is there. -/
theorem perform_cases (c : Call κ) :
    (∃ (bytes : Bytes) (answer : Nat → Except Error Answer), ∀ w,
      Run.answered (perform c w) = (answer w.length, w.append bytes)) ∨
    ∃ offset bytes, c = .patch offset bytes := by
  cases c with
  | byte b => exact Or.inl ⟨_, fun _ => .ok .done, fun _ => rfl⟩
  | bigEndian width n => exact Or.inl ⟨_, fun _ => .ok .done, fun _ => rfl⟩
  | varint n => exact Or.inl ⟨_, fun _ => .ok .done, fun _ => rfl⟩
  | append bytes => exact Or.inl ⟨_, fun _ => .ok .done, fun _ => rfl⟩
  | lengthPrefixed bytes =>
    refine Or.inl ⟨Varint.encode (UInt64.ofNat bytes.length) ++ bytes, fun _ => .ok .done, ?_⟩
    intro w
    simp [perform, lengthPrefixed, varint, append]
  | value layout kind a =>
    -- an encoder that gives up leaves what it has written
    cases fault : ((Values.codec kind).encode layout a).fault? with
    | none =>
      refine Or.inl ⟨((Values.codec kind).encode layout a).bytes, fun _ => .ok .done, ?_⟩
      intro w
      simp only [perform, value, encoded, Run.bind_apply, fault]
      rfl
    | some f =>
      refine Or.inl ⟨((Values.codec kind).encode layout a).bytes,
        fun _ => .error (.serialization f), ?_⟩
      intro w
      simp only [perform, value, encoded, Run.bind_apply, fault]
      rfl
  | reserve n => exact Or.inl ⟨_, fun length => .ok (.place length), fun _ => rfl⟩
  | patch offset bytes => exact Or.inr ⟨offset, bytes, rfl⟩

theorem perform_patch (offset : Nat) (bytes : Bytes) (w : Writer) :
    perform (.patch offset bytes : Call κ) w =
      if offset + bytes.length ≤ w.length then .ok .done (w.overwritten offset bytes)
      else .error (.truncated offset) w := by
  simp only [perform, Writer.patch]
  by_cases inside : offset + bytes.length ≤ w.length
  · rw [if_pos inside, if_pos inside]
    rfl
  · rw [if_neg inside, if_neg inside]

end Writer

namespace Draft

/-- What can be asked of a draft. What is asked of its writer sees the header as well. -/
inductive Call (κ : Type) [Values κ]
  | marker (m : Marker)
  | key (key : UInt32)
  | locator (address : Bytes)
  | writer (call : Writer.Call κ)
  | frame

namespace Call

def isFrame : Call κ → Bool
  | frame => true
  | _ => false

end Call

def perform : Call κ → DraftM Writer.Answer
  | .marker m => fun d => .ok .done (d.marker m)
  | .key key => fun d => .ok .done (d.key key)
  | .locator address => fun d => .ok .done (d.locator address)
  | .writer call => onWriter (Writer.perform call)
  | .frame => fun d =>
    match d.frame with
    | .ok (entry, framed) => .ok (.entry entry) framed
    | .error e => .error e d

abbrev Trace (κ : Type) [Values κ] := List (Call κ × Except Error Writer.Answer)

def step (s : Trace κ × Draft) (c : Call κ) : Trace κ × Draft :=
  (s.1 ++ [(c, (Run.answered (perform c s.2)).1)], (Run.answered (perform c s.2)).2)

/-- The answers to the calls, failures among them, and the draft after all of them. -/
def run (calls : List (Call κ)) (d : Draft) : Trace κ × Draft := calls.foldl step ([], d)

def withoutFrames (calls : List (Call κ)) : List (Call κ) := calls.filter fun c => !c.isFrame

/-- A draft after some calls, beside `plain`, which is what those of them make that do not frame. -/
structure Steady (κ : Type) [Values κ] (d plain : Draft) : Prop where
  kind_eq : d.kind = plain.kind
  length_eq : d.framedLength = plain.framedLength
  behind : d.writer.bytes.drop lengthFieldSize = plain.writer.bytes.drop lengthFieldSize
  payload : d.payload = d.writer.bytes.drop 4 ∧ d.payload = plain.payload
  /-- It can be framed if its size fits in the length field, and is all there then. -/
  frames_iff : (∃ entry d', perform (.frame : Call κ) d = .ok (.entry entry) d') ↔
    d.framedLength - 3 ≤ 0xffffff
  framed : ∀ answer d', perform (.frame : Call κ) d = .ok answer d' →
    ∃ b₀ b₁ b₂, answer = .entry (b₀ :: b₁ :: b₂ :: plain.writer.bytes.drop 3) ∧
      decodeLength b₀ b₁ b₂ = d.framedLength - 3 ∧
      d'.writer.bytes = b₀ :: b₁ :: b₂ :: plain.writer.bytes.drop 3 ∧
      perform (.frame : Call κ) d' = .ok answer d'
  refused : ∀ e d', perform (.frame : Call κ) d = .error e d' →
    e = .entryTooLarge d.framedLength maxFramedEntry ∧ d' = d
  /-- A patch changes the bytes that it covers, if they are all there. -/
  patched : ∀ (offset : Nat) (bytes : Bytes), offset + bytes.length ≤ d.framedLength →
    ∃ d', perform (.writer (.patch offset bytes) : Call κ) d = .ok .done d' ∧
      d'.kind = d.kind ∧ d'.framedLength = d.framedLength ∧
      ∀ i, d'.writer.bytes[i]? =
        if offset ≤ i ∧ i < offset + bytes.length then bytes[i - offset]? else d.writer.bytes[i]?
  unpatched : ∀ (offset : Nat) (bytes : Bytes), d.framedLength < offset + bytes.length →
    perform (.writer (.patch offset bytes) : Call κ) d = .error (.truncated offset) d

/-- Two drafts that differ at most in their length fields. -/
structure Alike (d e : Draft) : Prop where
  kind : d.kind = e.kind
  length : d.framedLength = e.framedLength
  header : entryHeaderSize ≤ d.framedLength
  behind : ∀ i, lengthFieldSize ≤ i → d.writer.bytes[i]? = e.writer.bytes[i]?

section Alike
variable {d e : Draft}

theorem alike_begin (kind : EntryKind) : Alike (.begin kind) (.begin kind) :=
  ⟨rfl, rfl, (Begun.begin kind).header_le, fun _ _ => rfl⟩

theorem Alike.append (h : Alike d e) (bytes : Bytes) : Alike (d.append bytes) (e.append bytes) := by
  have length := h.length
  have header := h.header
  simp only [framedLength, Writer.length] at length header
  refine ⟨h.kind, ?_, ?_, fun i large => ?_⟩
  · simp only [framedLength, Writer.length, Draft.append, Writer.append, List.length_append]
    omega
  · simp only [framedLength, Writer.length, Draft.append, Writer.append, List.length_append]
    omega
  · simp only [Draft.append, Writer.append, List.getElem?_append, h.behind i large, length]

theorem Alike.overwritten (h : Alike d e) {offset : Nat} {bytes : Bytes}
    (inside : offset + bytes.length ≤ d.framedLength) :
    Alike { d with writer := d.writer.overwritten offset bytes }
      { e with writer := e.writer.overwritten offset bytes } := by
  have inside' : offset + bytes.length ≤ e.framedLength := h.length ▸ inside
  have length := Writer.length_overwritten inside
  refine ⟨h.kind, ?_, ?_, fun i large => ?_⟩
  · exact length.trans (h.length.trans (Writer.length_overwritten inside').symm)
  · exact Nat.le_trans h.header (Nat.le_of_eq length.symm)
  · rw [Writer.getElem?_overwritten inside, Writer.getElem?_overwritten inside', h.behind i large]

theorem answered_onWriter {α : Type} (act : WriterM α) (d : Draft) :
    Run.answered (onWriter act d) = ((Run.answered (act d.writer)).1,
      { d with writer := (Run.answered (act d.writer)).2 }) := by
  rw [onWriter]
  cases act d.writer <;> rfl

/-- All calls write something behind what is there, or patch, or frame. -/
theorem perform_cases (c : Call κ) :
    (∃ (bytes : Bytes) (answer : Nat → Except Error Writer.Answer), ∀ d : Draft,
      Run.answered (perform c d) = (answer d.framedLength, d.append bytes)) ∨
    (∃ offset bytes, c = .writer (.patch offset bytes)) ∨ c = .frame := by
  cases c with
  | marker m => exact Or.inl ⟨_, fun _ => .ok .done, fun _ => rfl⟩
  | key key => exact Or.inl ⟨_, fun _ => .ok .done, fun _ => rfl⟩
  | locator address => exact Or.inl ⟨_, fun _ => .ok .done, fun _ => rfl⟩
  | writer call =>
    rcases Writer.perform_cases call with ⟨bytes, answer, result⟩ | ⟨offset, bytes, rfl⟩
    · refine Or.inl ⟨bytes, answer, fun d => ?_⟩
      rw [perform, answered_onWriter, result]
      rfl
    · exact Or.inr (Or.inl ⟨offset, bytes, rfl⟩)
  | frame => exact Or.inr (Or.inr rfl)

theorem perform_patch (offset : Nat) (bytes : Bytes) (d : Draft) :
    perform (.writer (.patch offset bytes) : Call κ) d =
      if offset + bytes.length ≤ d.framedLength then
        .ok .done { d with writer := d.writer.overwritten offset bytes }
      else .error (.truncated offset) d := by
  rw [perform, onWriter, Writer.perform_patch]
  by_cases inside : offset + bytes.length ≤ d.framedLength
  · rw [if_pos inside, if_pos (show offset + bytes.length ≤ d.writer.length from inside)]
  · rw [if_neg inside, if_neg (show ¬ offset + bytes.length ≤ d.writer.length from inside)]

/-- The bytes of the draft, with its length filled in. -/
def withLength (d : Draft) : Draft :=
  { d with writer := ⟨Bytes.bigEndian lengthFieldSize (d.framedLength - lengthFieldSize) ++
      d.writer.bytes.drop lengthFieldSize⟩ }

/-- Framing fills in the length, or finds that it does not fit. -/
theorem perform_frame (d : Draft) (header : entryHeaderSize ≤ d.framedLength) :
    perform (.frame : Call κ) d =
      if d.framedLength - lengthFieldSize ≤ maxLengthField then
        .ok (.entry d.withLength.writer.bytes) d.withLength
      else .error (.entryTooLarge d.framedLength maxFramedEntry) d := by
  have size := framedLength_eq header
  have tail := drop_lengthField header
  simp only [entryHeaderSize] at size
  rcases frame_cases header with ⟨f, kind, payload, fits, frame⟩ | ⟨long, frame⟩
  · have field : f.payload.length + 1 = d.framedLength - lengthFieldSize := by
      rw [payload, size]
      simp only [lengthFieldSize]
      omega
    have whole : f.bytes = d.withLength.writer.bytes := by
      rw [Frame.bytes, withLength, ← field, tail, kind, payload]
    simp only [maxFramedEntry] at fits
    simp only [perform]
    rw [if_pos (by omega), frame, whole]
    rfl
  · simp only [maxFramedEntry] at long
    simp only [perform]
    rw [if_neg (by omega), frame]

theorem framedLength_withLength (header : entryHeaderSize ≤ d.framedLength) :
    d.withLength.framedLength = d.framedLength := by
  simp only [entryHeaderSize, framedLength, Writer.length] at header
  simp only [withLength, framedLength, Writer.length, List.length_append, Bytes.length_bigEndian,
    List.length_drop, lengthFieldSize]
  omega

theorem drop_withLength (d : Draft) :
    d.withLength.writer.bytes.drop lengthFieldSize = d.writer.bytes.drop lengthFieldSize := by
  exact List.drop_left' (Bytes.length_bigEndian _ _)

theorem Alike.withLength (h : Alike d e) : Alike d.withLength e := by
  have same := framedLength_withLength h.header
  refine ⟨h.kind, same.trans h.length, same ▸ h.header, fun i large => ?_⟩
  have there := congrArg (·[i - lengthFieldSize]?) (drop_withLength d)
  simp only [List.getElem?_drop, Nat.add_sub_of_le large] at there
  rw [there, h.behind i large]

/-- A call that does not frame is answered alike, and leaves the drafts alike. -/
theorem Alike.perform (h : Alike d e) {c : Call κ} (other : c.isFrame = false) :
    (Run.answered (perform c d)).1 = (Run.answered (perform c e)).1 ∧
      Alike (Run.answered (Draft.perform c d)).2 (Run.answered (Draft.perform c e)).2 := by
  rcases perform_cases c with ⟨bytes, answer, result⟩ | ⟨offset, bytes, rfl⟩ | rfl
  · rw [result, result, h.length]
    exact ⟨rfl, h.append bytes⟩
  · rw [perform_patch, perform_patch, ← h.length]
    by_cases inside : offset + bytes.length ≤ d.framedLength
    · rw [if_pos inside, if_pos inside]
      exact ⟨rfl, h.overwritten inside⟩
    · rw [if_neg inside, if_neg inside]
      exact ⟨rfl, h⟩
  · cases other

theorem Alike.frame (h : Alike d e) :
    Alike (Run.answered (Draft.perform (.frame : Call κ) d)).2 e := by
  rw [perform_frame d h.header]
  split
  · exact h.withLength
  · exact h

end Alike

/-- The runs of some calls with and without those that frame. -/
structure Abreast (s t : Trace κ × Draft) : Prop where
  alike : Alike s.2 t.2
  answers : s.1.filter (fun x => !x.1.isFrame) = t.1

theorem abreast_run (calls : List (Call κ)) {s t : Trace κ × Draft} (h : Abreast s t) :
    Abreast (calls.foldl step s) ((withoutFrames calls).foldl step t) := by
  induction calls generalizing s t with
  | nil => exact h
  | cons c calls ih =>
    cases frames : c.isFrame with
    | true =>
      have same : withoutFrames (c :: calls) = withoutFrames calls := by
        simp [withoutFrames, frames]
      rw [List.foldl_cons, same]
      refine ih ⟨?_, ?_⟩
      · cases c <;> first | exact h.alike.frame | cases frames
      · simp [step, frames, h.answers]
    | false =>
      have same : withoutFrames (c :: calls) = c :: withoutFrames calls := by
        simp [withoutFrames, frames]
      obtain ⟨answers, alike⟩ := h.alike.perform frames
      rw [List.foldl_cons, same, List.foldl_cons]
      refine ih ⟨alike, ?_⟩
      simp [step, frames, h.answers, answers]

theorem Alike.drop_eq {d e : Draft} (h : Alike d e) :
    d.writer.bytes.drop lengthFieldSize = e.writer.bytes.drop lengthFieldSize := by
  apply List.ext_getElem?
  intro i
  rw [List.getElem?_drop, List.getElem?_drop, h.behind _ (Nat.le_add_right _ _)]

theorem withLength_withLength {d : Draft} (header : entryHeaderSize ≤ d.framedLength) :
    d.withLength.withLength = d.withLength := by
  rw [withLength, framedLength_withLength header, drop_withLength]
  rfl

theorem steady_of_alike {d plain : Draft} (h : Alike d plain) : Steady κ d plain := by
  have behind := h.drop_eq
  have framing := perform_frame (κ := κ) d h.header
  refine ⟨h.kind, h.length, behind, ⟨rfl, ?_⟩, ?_, ?_, ?_, ?_, ?_⟩
  · have payload := congrArg (List.drop 1) behind
    rwa [List.drop_drop, List.drop_drop] at payload
  · rw [framing]
    constructor
    · rintro ⟨entry, d', framed⟩
      by_cases fits : d.framedLength - lengthFieldSize ≤ maxLengthField
      · exact fits
      · rw [if_neg fits] at framed
        cases framed
    · intro fits
      exact ⟨_, _, if_pos fits⟩
  · intro answer d' framed
    by_cases fits : d.framedLength - lengthFieldSize ≤ maxLengthField
    · rw [framing, if_pos fits] at framed
      cases framed
      obtain ⟨b₀, b₁, b₂, field, value⟩ := Frame.exists_lengthField fits
      have bytes : d.withLength.writer.bytes =
          b₀ :: b₁ :: b₂ :: plain.writer.bytes.drop lengthFieldSize := by
        rw [withLength, field, behind]
        rfl
      have same := framedLength_withLength h.header
      refine ⟨b₀, b₁, b₂, congrArg _ bytes, value, bytes, ?_⟩
      rw [perform_frame d.withLength (same ▸ h.header), same, if_pos fits,
        withLength_withLength h.header]
    · rw [framing, if_neg fits] at framed
      cases framed
  · intro e d' failed
    rw [framing] at failed
    split at failed <;> cases failed
    exact ⟨rfl, rfl⟩
  · intro offset bytes inside
    refine ⟨_, (perform_patch offset bytes d).trans (if_pos inside), rfl, ?_, ?_⟩
    · exact Writer.length_overwritten inside
    · exact Writer.getElem?_overwritten inside
  · intro offset bytes outside
    exact (perform_patch offset bytes d).trans (if_neg (Nat.not_le_of_lt outside))

/-- Whatever was done with a draft so far, and however often it was framed. -/
theorem framing_steady (kind : EntryKind) (calls : List (Call κ)) :
    Steady κ (run calls (.begin kind)).2 (run (withoutFrames calls) (.begin kind)).2 ∧
      (run calls (.begin kind)).1.filter (fun x => !x.1.isFrame) =
        (run (withoutFrames calls) (.begin kind)).1 := by
  have begun : Abreast (([] : Trace κ), .begin kind) ([], .begin kind) := ⟨alike_begin kind, rfl⟩
  have after := abreast_run calls begun
  exact ⟨steady_of_alike after.alike, after.answers⟩

end Draft

end GraphJournal
