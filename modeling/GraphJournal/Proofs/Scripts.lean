import GraphJournal.Proofs.Reading
import GraphJournal.Proofs.Windows

/-!
# Scripts

Lists of numbers and byte strings that are written one behind the other and read back in turn. The
reader has to know the forms of what was written and the lengths of the bare byte strings, and
nothing else: how long an item is, its own bytes tell, whatever stands behind them.

A reader that expects other forms than those written is NOT treated here, except for one that wants
its varints to be short.
-/
namespace GraphJournal

set_option autoImplicit false

namespace Read

variable {α : Type}

theorem reads_bigEndian {width n : Nat} (fits : n < Bytes.limit width) :
    Reads (bigEndian width) (Bytes.bigEndian width n) n := by
  have taken := reads_bytes (Bytes.bigEndian width n)
  rw [Bytes.length_bigEndian] at taken
  have digits := taken.map Bytes.toNat
  rwa [Bytes.toNat_bigEndian, Nat.mod_eq_of_lt fits] at digits

/-- What is read from the front of a reader moves it just over these bytes. -/
theorem Reads.skips {act : Read α} {bytes rest : Bytes} {a : α} (reads : Reads act bytes a)
    (orderly : Orderly act) {r : Reader} (unread : r.unread = bytes ++ rest) :
    act r = .ok a (r.skip bytes.length) := by
  obtain ⟨r', run, left⟩ := reads r rest unread
  obtain ⟨n, there, rfl⟩ := orderly.of_ok run
  have length := congrArg List.length left
  rw [Reader.length_skip, unread, List.length_append] at length
  rw [unread, List.length_append] at there
  rw [run]
  congr
  omega

end Read

namespace Script

/-- Something that is written in one piece. -/
inductive Item
  | u8 (n : UInt8)
  | u16 (n : UInt16)
  | u32 (n : UInt32)
  | u64 (n : UInt64)
  | varint (n : UInt64)
  | lengthPrefixed (bytes : Bytes)
  | raw (bytes : Bytes)
  deriving DecidableEq, Repr

/-- What a reader has to know of an item. -/
inductive Form
  | u8
  | u16
  | u32
  | u64
  | varint
  /-- A varint that is to fit in 32 bits. -/
  | varint32
  | lengthPrefixed
  | raw (length : Nat)
  deriving DecidableEq, Repr

namespace Item

def write : Item → Writer → Writer
  | u8 n, w => w.byte n
  | u16 n, w => w.bigEndian 2 n.toNat
  | u32 n, w => w.bigEndian 4 n.toNat
  | u64 n, w => w.bigEndian 8 n.toNat
  | varint n, w => w.varint n
  | lengthPrefixed bytes, w => w.lengthPrefixed bytes
  | raw bytes, w => w.append bytes

def form : Item → Form
  | u8 _ => .u8
  | u16 _ => .u16
  | u32 _ => .u32
  | u64 _ => .u64
  | varint _ => .varint
  | lengthPrefixed _ => .lengthPrefixed
  | raw bytes => .raw bytes.length

/-- Byte strings are no longer than memory is, and so their lengths fit in 64 bits. -/
def Sized : Item → Prop
  | lengthPrefixed bytes => bytes.length < 2 ^ 64
  | _ => True

def bytes : Item → Bytes
  | u8 n => [n]
  | u16 n => Bytes.bigEndian 2 n.toNat
  | u32 n => Bytes.bigEndian 4 n.toNat
  | u64 n => Bytes.bigEndian 8 n.toNat
  | varint n => Varint.encode n
  | lengthPrefixed bytes => Varint.encode (UInt64.ofNat bytes.length) ++ bytes
  | raw bytes => bytes

theorem write_eq (item : Item) (w : Writer) : item.write w = w.append item.bytes := by
  cases item with
  | lengthPrefixed bytes =>
    simp [write, Item.bytes, Writer.lengthPrefixed, Writer.varint, Writer.append]
  | _ => rfl

end Item

namespace Form

def read : Form → Read Item
  | u8 => return .u8 (← Read.byte)
  | u16 => return .u16 (.ofNat (← Read.bigEndian 2))
  | u32 => return .u32 (.ofNat (← Read.bigEndian 4))
  | u64 => return .u64 (.ofNat (← Read.bigEndian 8))
  | varint => return .varint (← Read.varint)
  | varint32 => return .varint (← Read.varint32).toUInt64
  | lengthPrefixed => return .lengthPrefixed (← Read.lengthPrefixed)
  | raw length => return .raw (← Read.bytes length)

/-- Whether a reader that goes by this form reads such an item, or refuses it as too large. -/
def Suits (form : Form) (item : Item) : Prop :=
  form = item.form ∨ (form = varint32 ∧ item.form = varint)

/-- Whether the item is small enough for the form. -/
def Admits (form : Form) (item : Item) : Prop :=
  ∀ n, form = varint32 → item = .varint n → n.toNat < 2 ^ 32

end Form

def writeAll (items : List Item) (w : Writer) : Writer :=
  items.foldl (fun w item => item.write w) w

def readAll : List Form → Read (List Item)
  | [] => return []
  | form :: forms => return (← form.read) :: (← readAll forms)

/-- The reader of what a script leaves in a writer, and of what comes behind it. -/
def readerOf (items : List Item) (w : Writer) (rest : Bytes) (base : Nat) : Reader :=
  .ofBytes ((writeAll items w).bytes ++ rest) base

/-- What becomes of a script that is written to `w`, and what is then read from where it begins,
with `rest` behind it. -/
structure RoundTrip (items : List Item) (w : Writer) (rest : Bytes) (base : Nat) (r : Reader) :
    Prop where
  begins : Read.advance w.length (readerOf items w rest base) = .ok () r
  before : (writeAll items w).bytes.take w.length = w.bytes
  /-- The forms of the items are enough to have them all back. -/
  read : ∃ r', readAll (items.map Item.form) r = .ok items r' ∧ r'.unread = rest ∧
    r'.offset = base + (writeAll items w).length
  /-- The same is read if some of the varints are to be short, as long as these are. -/
  narrow : ∀ forms : List Form, List.Forall₂ Form.Suits forms items →
    List.Forall₂ Form.Admits forms items → readAll forms r = readAll (items.map Item.form) r
  /-- Otherwise it is refused for one of them. -/
  refused : ∀ forms : List Form, List.Forall₂ Form.Suits forms items →
    ¬ List.Forall₂ Form.Admits forms items → ∃ n r', Item.varint n ∈ items ∧ 2 ^ 32 ≤ n.toNat ∧
      readAll forms r = .error (.serialization (.varintExceeds32 n)) r'

theorem writeAll_eq (items : List Item) (w : Writer) :
    writeAll items w = w.append (items.flatMap Item.bytes) := by
  induction items generalizing w with
  | nil => simp [writeAll, Writer.append]
  | cons item items ih =>
    rw [writeAll, List.foldl_cons, ← writeAll, ih, item.write_eq, List.flatMap_cons]
    simp only [Writer.append, List.append_assoc]

section Reading

theorem orderly_read (form : Form) : Read.Orderly form.read := by
  have then_ {α : Type} {act : Read α} (h : Read.Orderly act) (f : α → Item) :
      Read.Orderly (act >>= fun a => pure (f a)) := h.bind fun a => Read.orderly_pure (f a)
  cases form with
  | u8 => exact then_ Read.orderly_byte.1 _
  | u16 => exact then_ (Read.orderly_bigEndian 2).1 _
  | u32 => exact then_ (Read.orderly_bigEndian 4).1 _
  | u64 => exact then_ (Read.orderly_bigEndian 8).1 _
  | varint => exact then_ Read.orderly_varint _
  | varint32 => exact then_ Read.orderly_varint32 _
  | lengthPrefixed => exact then_ Read.orderly_lengthPrefixed _
  | raw length => exact then_ (Read.orderly_bytes length).1 _

theorem orderly_readAll (forms : List Form) : Read.Orderly (readAll forms) := by
  induction forms with
  | nil => exact Read.orderly_pure []
  | cons form forms ih =>
    refine (orderly_read form).bind fun item => ?_
    exact ih.bind fun items => Read.orderly_pure (item :: items)

/-- An item is read by its own form. -/
theorem reads_form {item : Item} (sized : item.Sized) :
    Read.Reads item.form.read item.bytes item := by
  cases item with
  | u8 n => exact (Read.reads_byte n).map Item.u8
  | u16 n =>
    have digits : Read.Reads (Read.bigEndian 2) (Bytes.bigEndian 2 n.toNat) n.toNat :=
      Read.reads_bigEndian n.toNat_lt
    have read := digits.map fun n => Item.u16 (.ofNat n)
    rwa [UInt16.ofNat_toNat] at read
  | u32 n =>
    have digits : Read.Reads (Read.bigEndian 4) (Bytes.bigEndian 4 n.toNat) n.toNat :=
      Read.reads_bigEndian n.toNat_lt
    have read := digits.map fun n => Item.u32 (.ofNat n)
    rwa [UInt32.ofNat_toNat] at read
  | u64 n =>
    have digits : Read.Reads (Read.bigEndian 8) (Bytes.bigEndian 8 n.toNat) n.toNat :=
      Read.reads_bigEndian n.toNat_lt
    have read := digits.map fun n => Item.u64 (.ofNat n)
    rwa [UInt64.ofNat_toNat] at read
  | varint n => exact (Read.reads_varint n).map Item.varint
  | lengthPrefixed bytes => exact (Read.reads_lengthPrefixed sized).map Item.lengthPrefixed
  | raw bytes => exact (Read.reads_bytes bytes).map Item.raw

/-- An item is read by any form that suits and admits it. -/
theorem reads_suited {form : Form} {item : Item} (sized : item.Sized) (suits : form.Suits item)
    (admits : form.Admits item) : Read.Reads form.read item.bytes item := by
  rcases suits with rfl | ⟨rfl, same⟩
  · exact reads_form sized
  · cases item with
    | varint n =>
      have small : n.toUInt32.toUInt64 = n := by
        apply UInt64.toNat_inj.mp
        rw [UInt32.toNat_toUInt64, UInt64.toNat_toUInt32, Nat.mod_eq_of_lt (admits n rfl rfl)]
      have read := (Read.reads_varint32 n.toUInt32).map fun v => Item.varint v.toUInt64
      rwa [small] at read
    | u8 _ | u16 _ | u32 _ | u64 _ | lengthPrefixed _ | raw _ => cases same

theorem reads_all {forms : List Form} {items : List Item} (sized : ∀ item ∈ items, item.Sized)
    (suits : List.Forall₂ Form.Suits forms items) (admits : List.Forall₂ Form.Admits forms items) :
    Read.Reads (readAll forms) (items.flatMap Item.bytes) items := by
  induction suits with
  | nil => exact Read.reads_pure []
  | @cons form item forms items suits _ ih =>
    obtain ⟨admits, others⟩ := List.forall₂_cons.mp admits
    have first := reads_suited (sized item List.mem_cons_self) suits admits
    have rest := ih (fun other h => sized other (List.mem_cons_of_mem item h)) others
    exact first.bind (rest.map fun items => item :: items)

theorem varint32_refused {n : UInt64} {r : Reader} {rest : Bytes} (large : 2 ^ 32 ≤ n.toNat)
    (unread : r.unread = Varint.encode n ++ rest) :
    ∃ r', Form.varint32.read r = .error (.serialization (.varintExceeds32 n)) r' := by
  obtain ⟨r', run, -⟩ := Read.reads_varint n r rest unread
  have failed : Read.varint32 r = .error (.serialization (.varintExceeds32 n)) r' := by
    have exceeds : ¬ n.toNat < 0x100000000 := Nat.not_lt_of_le large
    rw [Read.varint32, Run.bind_apply, run]
    dsimp only
    rw [if_neg exceeds]
    rfl
  refine ⟨r', ?_⟩
  rw [Form.read, Run.bind_apply, failed]

/-- The first form that does not admit its item ends the reading. -/
theorem readAll_refused {forms : List Form} {items : List Item}
    (sized : ∀ item ∈ items, item.Sized) (suits : List.Forall₂ Form.Suits forms items)
    (large : ¬ List.Forall₂ Form.Admits forms items) {r : Reader} {rest : Bytes}
    (unread : r.unread = items.flatMap Item.bytes ++ rest) :
    ∃ n r', Item.varint n ∈ items ∧ 2 ^ 32 ≤ n.toNat ∧
      readAll forms r = .error (.serialization (.varintExceeds32 n)) r' := by
  induction suits generalizing r with
  | nil => exact absurd .nil large
  | @cons form item forms items here suits ih =>
    rw [List.flatMap_cons, List.append_assoc] at unread
    by_cases admits : form.Admits item
    · obtain ⟨s, run, left⟩ := reads_suited (sized item List.mem_cons_self) here admits r _ unread
      have others : ¬ List.Forall₂ Form.Admits forms items := fun h => large (.cons admits h)
      obtain ⟨n, r', member, size, failed⟩ :=
        ih (fun other h => sized other (List.mem_cons_of_mem item h)) others left
      refine ⟨n, r', List.mem_cons_of_mem item member, size, ?_⟩
      rw [readAll, Run.bind_apply, run]
      dsimp only
      rw [Run.bind_apply, failed]
    · obtain ⟨n, rfl, rfl, size⟩ : ∃ n, form = .varint32 ∧ item = .varint n ∧ 2 ^ 32 ≤ n.toNat := by
        by_contra none
        refine admits fun n narrow varint => Nat.lt_of_not_le fun size => ?_
        exact none ⟨n, narrow, varint, size⟩
      obtain ⟨r', failed⟩ := varint32_refused size unread
      refine ⟨n, r', List.mem_cons_self, size, ?_⟩
      rw [readAll, Run.bind_apply, failed]

theorem suits_own (items : List Item) :
    List.Forall₂ Form.Suits (items.map Item.form) items := by
  rw [List.forall₂_map_left_iff, List.forall₂_same]
  exact fun item _ => Or.inl rfl

theorem admits_own (items : List Item) :
    List.Forall₂ Form.Admits (items.map Item.form) items := by
  rw [List.forall₂_map_left_iff, List.forall₂_same]
  rintro item - n own rfl
  cases own

end Reading

/-- What was there before, and what comes after, makes no difference. -/
theorem script_round_trip (items : List Item) (sized : ∀ item ∈ items, item.Sized) (w : Writer)
    (rest : Bytes) (base : Nat) :
    RoundTrip items w rest base ((readerOf items w rest base).skip w.length) := by
  have written := writeAll_eq items w
  have front : (readerOf items w rest base).unread =
      w.bytes ++ (items.flatMap Item.bytes ++ rest) := by
    rw [readerOf, written, Reader.ofBytes, Writer.append, List.append_assoc]
  have unread : ((readerOf items w rest base).skip w.length).unread =
      items.flatMap Item.bytes ++ rest := by
    rw [Reader.skip, front]
    exact List.drop_left
  have skips {forms : List Form} (suits : List.Forall₂ Form.Suits forms items)
      (admits : List.Forall₂ Form.Admits forms items) :=
    (reads_all sized suits admits).skips (orderly_readAll forms) unread
  refine ⟨?_, ?_, ⟨_, skips (suits_own items) (admits_own items), ?_, ?_⟩, ?_, ?_⟩
  · refine if_pos (Bytes.hasAtLeast_iff.mpr ?_)
    rw [front, List.length_append]
    exact Nat.le_add_right _ _
  · rw [written]
    exact List.take_left
  · rw [Reader.skip, unread]
    exact List.drop_left
  · rw [written]
    simp only [Reader.offset, Reader.skip, readerOf, Reader.ofBytes, Writer.append, Writer.length,
      List.length_append, Nat.zero_add]
  · intro forms suits admits
    rw [skips suits admits, skips (suits_own items) (admits_own items)]
  · exact fun forms suits large => readAll_refused sized suits large unread

/-- Among the items is a varint that a reader of short ones refuses. -/
def parcel : List Item :=
  [.u16 0x0102, .varint 0x100000000, .lengthPrefixed [7, 8], .raw [9], .u64 3]

theorem parcel_round_trip : (∀ item ∈ parcel, item.Sized) ∧
    RoundTrip parcel ⟨[1]⟩ [5] 10 ((readerOf parcel ⟨[1]⟩ [5] 10).skip 1) := by
  have sized : ∀ item ∈ parcel, item.Sized := by
    simp [parcel, Item.Sized]
  exact ⟨sized, script_round_trip parcel sized ⟨[1]⟩ [5] 10⟩

end Script

end GraphJournal
