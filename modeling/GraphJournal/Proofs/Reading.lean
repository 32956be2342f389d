import GraphJournal.Proofs.Run
import GraphJournal.Proofs.VarintGroups
import GraphJournal.Segment

/-!
# Reading back

What is written by the writers of varints and of the parts of a record is read back, whatever stands
behind it. What readers make of bytes that were written otherwise is NOT told.
-/
namespace GraphJournal

set_option autoImplicit false

namespace Read

variable {α β : Type}

/-- The computation reads just these bytes, whatever stands behind them, and gives `a`. -/
def Reads (act : Read α) (bytes : Bytes) (a : α) : Prop :=
  ∀ (r : Reader) (rest : Bytes), r.unread = bytes ++ rest →
    ∃ r' : Reader, act r = .ok a r' ∧ r'.unread = rest

theorem reads_pure (a : α) : Reads (pure a) [] a := by
  intro r rest unread
  exact ⟨r, rfl, unread⟩

theorem Reads.bind {act : Read α} {next : α → Read β} {xs ys : Bytes} {a : α} {b : β}
    (first : Reads act xs a) (second : Reads (next a) ys b) :
    Reads (act >>= next) (xs ++ ys) b := by
  intro r rest unread
  rw [List.append_assoc] at unread
  obtain ⟨r', run, unread'⟩ := first r (ys ++ rest) unread
  obtain ⟨r'', run', unread''⟩ := second r' rest unread'
  refine ⟨r'', ?_, unread''⟩
  rw [Run.bind_apply, run]
  exact run'

theorem Reads.map {act : Read α} {xs : Bytes} {a : α} (first : Reads act xs a) (f : α → β) :
    Reads (act >>= fun a => pure (f a)) xs (f a) := by
  intro r rest unread
  obtain ⟨r', run, unread'⟩ := first r rest unread
  refine ⟨r', ?_, unread'⟩
  rw [Run.bind_apply, run]
  rfl

theorem reads_byte (b : UInt8) : Reads byte [b] b := by
  intro r rest unread
  refine ⟨r.skip 1, ?_, ?_⟩
  · simp only [byte, unread, List.singleton_append]
  · simp [Reader.skip, unread]

theorem reads_bytes (bs : Bytes) : Reads (bytes bs.length) bs bs := by
  intro r rest unread
  have enough : Bytes.hasAtLeast bs.length (bs ++ rest) = true := by
    rw [Bytes.hasAtLeast_iff, List.length_append]
    omega
  refine ⟨r.skip bs.length, ?_, ?_⟩
  · simp only [bytes, unread, if_pos enough, List.take_left]
  · simp only [Reader.skip, unread, List.drop_left]

theorem reads_varint (v : UInt64) : Reads varint (Varint.encode v) v := by
  intro r rest unread
  refine ⟨r.skip (Varint.encode v).length, ?_, ?_⟩
  · simp only [varint, unread, Varint.decode_encode]
  · simp only [Reader.skip, unread, List.drop_left]

theorem reads_varint32 (k : UInt32) : Reads varint32 (Varint.encode k.toUInt64) k := by
  have small : k.toUInt64.toNat < 0x100000000 := by
    rw [UInt32.toNat_toUInt64]
    exact k.toNat_lt
  unfold varint32
  rw [← List.append_nil (Varint.encode k.toUInt64)]
  refine (reads_varint k.toUInt64).bind ?_
  have same : k.toUInt64.toUInt32 = k := by simp
  rw [if_pos small, same]
  exact reads_pure k

theorem reads_lengthPrefixed {bs : Bytes} (short : bs.length < 2 ^ 64) :
    Reads lengthPrefixed (Varint.encode (UInt64.ofNat bs.length) ++ bs) bs := by
  have length : (UInt64.ofNat bs.length).toNat = bs.length := by
    rw [UInt64.toNat_ofNat']
    exact Nat.mod_eq_of_lt short
  have rest := reads_bytes bs
  rw [← length] at rest
  exact (reads_varint _).bind rest

theorem reads_marker {m : Marker} (valid : m ≠ .invalid) : Reads marker [m.byte] m := by
  unfold marker
  rw [← List.append_nil [m.byte]]
  refine (reads_byte m.byte).bind ?_
  rw [Marker.ofByte?_byte]
  dsimp only
  rw [if_neg valid]
  exact reads_pure m

theorem reads_key (k : UInt32) : Reads segment (Segment.key k).encode (.key k) :=
  (reads_marker (by decide : Marker.key ≠ .invalid)).bind ((reads_varint32 k).map Segment.key)

theorem reads_locator {address : Bytes} (short : address.length < 2 ^ 64) :
    Reads segment (Segment.locator address).encode (.locator address) :=
  (reads_marker (by decide : Marker.locator ≠ .invalid)).bind
    ((reads_lengthPrefixed short).map Segment.locator)

theorem reads_terminal {op : Marker} (terminal : op.isTerminal = true) :
    Reads segment (Segment.terminal op).encode (.terminal op) := by
  have valid : op ≠ .invalid := by
    rintro rfl
    cases terminal
  refine (reads_marker valid).bind ?_
  cases op <;> first | exact reads_pure _ | cases terminal

end Read

end GraphJournal
