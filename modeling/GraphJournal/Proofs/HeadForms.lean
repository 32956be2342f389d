import GraphJournal.Proofs.RoundTrip

/-!
# Heads in all their forms

The forms in which the head of a MessagePack value can be written, the short ones and the long ones.
A head is read from just these, whatever stands behind it. Which of them a writer chooses, and what
the lengths in them lead to, is NOT told here.
-/
namespace GraphJournal.MessagePack

set_option autoImplicit false

/-- The first bytes that a number of so many bytes follows, and the heads that these make. -/
inductive Numbered : UInt8 → Nat → (Nat → Head) → Prop
  | binary8 : Numbered 0xc4 1 .binary
  | binary16 : Numbered 0xc5 2 .binary
  | binary32 : Numbered 0xc6 4 .binary
  | extension8 : Numbered 0xc7 1 .extension
  | extension16 : Numbered 0xc8 2 .extension
  | extension32 : Numbered 0xc9 4 .extension
  | single : Numbered 0xca 4 fun n => .single (UInt32.ofNat n)
  | double : Numbered 0xcb 8 fun n => .double (UInt64.ofNat n)
  | unsigned8 : Numbered 0xcc 1 .unsigned
  | unsigned16 : Numbered 0xcd 2 .unsigned
  | unsigned32 : Numbered 0xce 4 .unsigned
  | unsigned64 : Numbered 0xcf 8 .unsigned
  | signed8 : Numbered 0xd0 1 fun n => .signed (asSigned 1 n)
  | signed16 : Numbered 0xd1 2 fun n => .signed (asSigned 2 n)
  | signed32 : Numbered 0xd2 4 fun n => .signed (asSigned 4 n)
  | signed64 : Numbered 0xd3 8 fun n => .signed (asSigned 8 n)
  | text8 : Numbered 0xd9 1 .text
  | text16 : Numbered 0xda 2 .text
  | text32 : Numbered 0xdb 4 .text
  | array16 : Numbered 0xdc 2 .array
  | array32 : Numbered 0xdd 4 .array
  | map16 : Numbered 0xde 2 .map
  | map32 : Numbered 0xdf 4 .map

/-- The other heads of a single byte, besides those that hold a number or a length themselves. -/
inductive Single : UInt8 → Head → Prop
  | nil : Single 0xc0 .nil
  | no : Single 0xc2 (.bool false)
  | yes : Single 0xc3 (.bool true)
  | extension1 : Single 0xd4 (.extension 1)
  | extension2 : Single 0xd5 (.extension 2)
  | extension4 : Single 0xd6 (.extension 4)
  | extension8 : Single 0xd7 (.extension 8)
  | extension16 : Single 0xd8 (.extension 16)

/-- The bytes are one of the forms of the head. -/
inductive Spells : Bytes → Head → Prop
  | short {k : Nat} {head : Head} (h : Short k head) : Spells [UInt8.ofNat k] head
  | single {b : UInt8} {head : Head} (h : Single b head) : Spells [b] head
  | wide {form : UInt8} {width n : Nat} {head : Nat → Head} (h : Numbered form width head)
    (fits : n < Bytes.limit width) : Spells (MessagePack.wide form width n) (head n)

theorem gives_spells {bytes : Bytes} {head : Head} (spelled : Spells bytes head) :
    Gives readHead bytes head := by
  cases spelled with
  | short h => exact gives_short h
  | single h => cases h <;> exact fun _ => rfl
  | wide h fits =>
    refine gives_wide _ fits ?_
    cases h <;> exact fun _ => rfl

section Found

theorem ok_of_bind_ok {ε α β : Type} {x : Except ε α} {next : α → Except ε β} {b : β}
    (run : (x >>= next) = .ok b) : ∃ a, x = .ok a ∧ next a = .ok b := by
  cases x with
  | error e => cases run
  | ok a => exact ⟨a, rfl, run⟩

theorem takeBytes_view {n : Nat} {bytes taken rest : Bytes}
    (run : takeBytes n bytes = .ok (taken, rest)) : bytes = taken ++ rest ∧ taken.length = n := by
  unfold takeBytes at run
  split at run
  · rename_i enough
    rw [Bytes.hasAtLeast_iff] at enough
    cases run
    exact ⟨(List.take_append_drop n bytes).symm, List.length_take_of_le enough⟩
  · cases run

/-- What reads a head behind a first byte: what it finds has been spelled. -/
def Finishes (b : UInt8) (after : Decode Head) : Prop :=
  ∀ bytes head rest, after bytes = .ok (head, rest) →
    ∃ used, b :: bytes = used ++ rest ∧ Spells used head

theorem finishes_pure {b : UInt8} {head : Head} (spelled : Spells [b] head) :
    Finishes b (pure head) := by
  intro bytes head' rest run
  cases run
  exact ⟨[b], rfl, spelled⟩

theorem finishes_wide {form : UInt8} {width : Nat} {head : Nat → Head}
    (h : Numbered form width head) : Finishes form (takeNat width >>= fun n => pure (head n)) := by
  intro bytes found rest run
  obtain ⟨⟨n, others⟩, first, last⟩ := ok_of_bind_ok run
  obtain ⟨⟨taken, others'⟩, first, same⟩ := ok_of_bind_ok first
  obtain ⟨rfl, rfl⟩ := takeBytes_view first
  cases same
  cases last
  have spelled := Spells.wide h (Bytes.toNat_lt_limit taken)
  rw [wide, Bytes.bigEndian_toNat] at spelled
  exact ⟨form :: taken, rfl, spelled⟩

theorem finishes_readHead :
    ∃ after : UInt8 → Decode Head, readHead = takeByte >>= after ∧ ∀ b, Finishes b (after b) := by
  refine ⟨_, rfl, fun b => ?_⟩
  have byte : UInt8.ofNat b.toNat = b := UInt8.ofNat_toNat
  have small := b.toNat_lt
  have short {k : Nat} {head : Head} (h : Short k head) (same : b.toNat = k) :
      Finishes b (pure head) := finishes_pure (byte ▸ same ▸ Spells.short h)
  have eq_of {k : Nat} (same : b.toNat = k) : b = UInt8.ofNat k := same ▸ byte.symm
  dsimp only
  split
  · exact short (.unsigned (by assumption)) rfl
  split
  · exact short (.map (n := b.toNat - 0x80) (by omega)) (by omega)
  split
  · exact short (.array (n := b.toNat - 0x90) (by omega)) (by omega)
  split
  · exact short (.text (n := b.toNat - 0xa0) (by omega)) (by omega)
  split
  · exact short (.signed (by assumption) (by omega)) rfl
  -- The other bytes one by one: a number follows, or nothing does, or the byte starts no head.
  split
  all_goals first
    | exact (nofun : Finishes b malformed)
    | rename_i same
      obtain rfl := eq_of same
      first
        | exact finishes_wide (by constructor)
        | exact finishes_pure (.single (by constructor))

/-- Whatever head is read, its bytes are one of its forms. -/
theorem spells_of_readHead {bytes rest : Bytes} {head : Head}
    (run : readHead bytes = .ok (head, rest)) : ∃ used, bytes = used ++ rest ∧ Spells used head := by
  obtain ⟨after, same, finishes⟩ := finishes_readHead
  rw [same] at run
  obtain ⟨⟨b, others⟩, first, second⟩ := ok_of_bind_ok run
  cases bytes with
  | nil => cases first
  | cons b' bytes =>
    cases first
    exact finishes _ _ head rest second

end Found

end GraphJournal.MessagePack
