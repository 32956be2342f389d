import GraphJournal.Proofs.DecodedValues

/-!
# What a decoder consumes

A value ends where its own bytes say that it ends. Whatever bytes a decoder accepts, also those that
no encoder writes (numbers in long forms, byte strings for text, fields that are passed over), it
would accept the same bytes in front of any others, with the same value; cut short anywhere, they are
refused. From this follows what a reader has consumed and what is left over after a value that should
fill its space.

Which bytes stand for which value is NOT told here; for what an encoder writes see the round trips.
-/
namespace GraphJournal

set_option autoImplicit false

namespace MessagePack

variable {α β : Type}

/-- Whatever is read is read from some bytes at the front, which are read alike in front of any
others. -/
def Delimited (act : Decode α) : Prop :=
  ∀ bytes a rest, act bytes = .ok (a, rest) → ∃ used, bytes = used ++ rest ∧ Gives act used a

section Parts

theorem delimited_pure (a : α) : Delimited (pure a) := by
  intro bytes a' rest run
  cases run
  exact ⟨[], rfl, gives_pure a⟩

theorem delimited_malformed : Delimited (malformed : Decode α) := by
  intro bytes a rest run
  cases run

theorem Delimited.bind {act : Decode α} {next : α → Decode β} (h : Delimited act)
    (after : ∀ a, Delimited (next a)) : Delimited (act >>= next) := by
  intro bytes b rest run
  obtain ⟨⟨a, others⟩, first, second⟩ := ok_of_bind_ok run
  obtain ⟨used, rfl, gives⟩ := h bytes a others first
  obtain ⟨used', rfl, gives'⟩ := after a others b rest second
  exact ⟨used ++ used', (List.append_assoc used used' rest).symm, gives.bind gives'⟩

theorem Delimited.map {act : Decode α} (h : Delimited act) (f : α → β) : Delimited (f <$> act) :=
  h.bind fun a => delimited_pure (f a)

theorem Delimited.discard {act : Decode α} (h : Delimited act) :
    Delimited (Functor.discard act) := h.map fun _ => ()

theorem delimited_lift (x : Except SerializationFault α) : Delimited (StateT.lift x) := by
  intro bytes a rest run
  obtain ⟨b, rfl, same⟩ := ok_of_bind_ok run
  cases same
  exact ⟨[], rfl, fun _ => rfl⟩

theorem delimited_orMalformed (a? : Option α) : Delimited (Codec.orMalformed a?) := by
  cases a? with
  | none => exact delimited_malformed
  | some a => exact delimited_pure a

theorem delimited_takeBytes (n : Nat) : Delimited (takeBytes n) := by
  intro bytes taken rest run
  obtain ⟨rfl, rfl⟩ := takeBytes_view run
  exact ⟨taken, rfl, gives_takeBytes taken⟩

theorem delimited_readHead : Delimited readHead := by
  intro bytes head rest run
  obtain ⟨used, rfl, spelled⟩ := spells_of_readHead run
  exact ⟨used, rfl, gives_spells spelled⟩

theorem delimited_times {read : Decode α} (h : Delimited read) (n : Nat) :
    Delimited (times read n) := by
  induction n with
  | zero => exact delimited_pure []
  | succ n ih => exact h.bind fun a => ih.bind fun rest => delimited_pure (a :: rest)

theorem delimited_skip (depth : Nat) : Delimited (skip depth) := by
  induction depth with
  | zero =>
    rw [skip]
    refine delimited_readHead.bind fun head => ?_
    cases head with
    | text n | binary n => exact (delimited_takeBytes n).discard
    | extension n | array n | map n => exact delimited_malformed
    | _ => exact delimited_pure ()
  | succ depth ih =>
    rw [skip]
    refine delimited_readHead.bind fun head => ?_
    cases head with
    | text n | binary n => exact (delimited_takeBytes n).discard
    | extension n => exact (delimited_takeBytes (n + 1)).discard
    | array n => exact (delimited_times ih n).discard
    | map n => exact (delimited_times (ih.bind fun _ => ih) n).discard
    | _ => exact delimited_pure ()

end Parts

namespace Codec

section Scalars

theorem delimited_integer {toInt : α → Int} (ofInt? : Int → Option α) {zero : α} (depth : Nat) :
    Delimited ((integer toInt ofInt? zero).decode depth) := by
  refine Delimited.bind ?_ fun i => delimited_orMalformed (ofInt? i)
  refine delimited_readHead.bind fun head => ?_
  cases head with
  | unsigned n => exact delimited_pure _
  | signed i => exact delimited_pure _
  | _ => exact delimited_malformed

theorem delimited_bool (depth : Nat) : Delimited (bool.decode depth) := by
  refine delimited_readHead.bind fun head => ?_
  cases head with
  | bool b => exact delimited_pure b
  | _ => exact delimited_malformed

theorem delimited_binary64 (depth : Nat) : Delimited (binary64.decode depth) := by
  refine delimited_readHead.bind fun head => ?_
  cases head with
  | double bits | single bits | unsigned n | signed i => exact delimited_pure _
  | _ => exact delimited_malformed

theorem delimited_unit (depth : Nat) : Delimited (unit.decode depth) := by
  refine delimited_readHead.bind fun head => ?_
  cases head with
  | nil => exact delimited_pure ()
  | _ => exact delimited_malformed

theorem delimited_text (depth : Nat) : Delimited (text.decode depth) := by
  refine delimited_readHead.bind fun head => ?_
  cases head with
  | text n | binary n =>
    exact (delimited_takeBytes n).bind fun bytes => delimited_orMalformed (textOfBytes? bytes)
  | _ => exact delimited_malformed

end Scalars

section Compounds
variable {c : Codec α}

/-- An option is read by its first byte, so a value of its own has to have one. -/
theorem delimited_option {depth : Nat} (h : Delimited (c.decode depth))
    (none : c.decode depth [] = .error .malformed) : Delimited ((option c).decode depth) := by
  intro bytes a rest run
  simp only [option] at run
  split at run
  · cases run
    exact ⟨[0xc0], rfl, fun _ => rfl⟩
  · rename_i other
    obtain ⟨used, rfl, gives⟩ := (h.map some) bytes a rest run
    refine ⟨used, rfl, ?_⟩
    cases used with
    | nil =>
      have empty := gives []
      obtain ⟨⟨b, _⟩, first, -⟩ := ok_of_bind_ok empty
      rw [List.append_nil, none] at first
      cases first
    | cons b used =>
      intro tail
      have notNil : b ≠ 0xc0 := by
        rintro rfl
        exact other (used ++ rest) rfl
      have given := gives tail
      simp only [option]
      split
      · rename_i others same
        cases same
        exact absurd rfl notNil
      · exact given

theorem delimited_list (items : ∀ depth, Delimited (c.decode depth)) (depth : Nat) :
    Delimited ((list c).decode depth) := by
  refine delimited_readHead.bind fun head => ?_
  cases head with
  | array n =>
    cases depth with
    | zero => exact delimited_malformed
    | succ depth => exact delimited_times (items depth) n
  | binary n => exact (delimited_takeBytes n).bind fun bytes => delimited_lift _
  | _ => exact delimited_malformed

theorem delimited_both {first : Decode α} {second : Decode β} (h : Delimited first)
    (h' : Delimited second) : Delimited (do return (← first, ← second)) :=
  h.bind fun a => h'.bind fun b => delimited_pure (a, b)

theorem delimited_pair {d : Codec β} (first : ∀ depth, Delimited (c.decode depth))
    (second : ∀ depth, Delimited (d.decode depth)) (depth : Nat) :
    Delimited ((pair c d).decode depth) := by
  refine delimited_readHead.bind fun head => ?_
  split
  · exact delimited_both (first _) (second _)
  · exact delimited_malformed

theorem delimited_textMap (values : ∀ depth, Delimited (c.decode depth)) (depth : Nat) :
    Delimited ((textMap c).decode depth) := by
  refine delimited_readHead.bind fun head => ?_
  split
  · rename_i n inner
    exact (delimited_times (delimited_both (delimited_text inner) (values inner)) n).bind
      fun entries => delimited_pure _
  · exact delimited_malformed

end Compounds

section Choices
variable {name : α → String} {all : List α}

theorem delimited_readName : Delimited (readName name all) := by
  refine delimited_readHead.bind fun head => ?_
  cases head with
  | text n | binary n =>
    exact (delimited_takeBytes n).bind fun bytes => delimited_orMalformed _
  | unsigned n => exact delimited_orMalformed _
  | _ => exact delimited_malformed

/-- A name does not start as a map does. -/
theorem readName_of_map {bytes rest : Bytes} {n : Nat} (head : readHead bytes = .ok (.map n, rest)) :
    readName name all bytes = .error .malformed := by
  change (readHead bytes >>= _) = _
  rw [head]
  rfl

theorem delimited_choice {default : α} (depth : Nat) :
    Delimited ((choice name all default).decode depth) := by
  -- A map of one entry is told by its head; in front of other bytes it has the same head, and a name
  -- has none of this kind.
  intro bytes a rest run
  simp only [choice] at run
  split at run
  · rename_i others head
    obtain ⟨used, rfl, gives⟩ := delimited_readHead bytes _ others head
    refine ((delimited_readName.bind fun a => delimited_readHead.bind fun last => ?_) others a rest
      run).elim ?_
    · cases last with
      | nil => exact delimited_pure a
      | _ => exact delimited_malformed
    · rintro used' ⟨rfl, gives'⟩
      refine ⟨used ++ used', (List.append_assoc used used' rest).symm, ?_⟩
      intro tail
      have again : readHead.run (used ++ (used' ++ tail)) = .ok (.map 1, used' ++ tail) :=
        gives (used' ++ tail)
      rw [List.append_assoc]
      simp only [choice, again]
      exact gives' tail
  · obtain ⟨used, rfl, gives⟩ := delimited_readName bytes a rest run
    refine ⟨used, rfl, ?_⟩
    intro tail
    have given := gives tail
    simp only [choice]
    split
    · rename_i others head
      rw [readName_of_map head] at given
      cases given
    · exact given

end Choices

section Bodies

theorem delimited_bodyField : Delimited BodyField.read := by
  refine delimited_readHead.bind fun head => ?_
  cases head with
  | text n | binary n =>
    exact (delimited_takeBytes n).bind fun bytes => delimited_pure (BodyField.ofName bytes)
  | unsigned n => exact delimited_pure (BodyField.ofIndex n)
  | _ => exact delimited_malformed

theorem delimited_readBodyField (depth : Nat) (b : PartialBody) :
    Delimited (readBodyField depth b) := by
  refine delimited_bodyField.bind fun field => ?_
  cases field with
  | text =>
    dsimp only
    split
    · exact delimited_malformed
    · exact (delimited_text depth).bind fun s => delimited_pure _
  | revision =>
    dsimp only
    split
    · exact delimited_malformed
    · exact (delimited_integer _ depth).bind fun n => delimited_pure _
  | unknown => exact (delimited_skip depth).bind fun _ => delimited_pure b

theorem delimited_readBodyFields (depth n : Nat) (b : PartialBody) :
    Delimited (readBodyFields depth n b) := by
  induction n generalizing b with
  | zero => exact delimited_pure b
  | succ n ih => exact (delimited_readBodyField depth b).bind fun b' => ih b'

theorem delimited_body (depth : Nat) : Delimited (body.decode depth) := by
  refine delimited_readHead.bind fun head => ?_
  split
  · exact (delimited_text _).bind fun s => (delimited_integer _ _).bind fun n => delimited_pure _
  · refine (delimited_readBodyFields _ _ {}).bind fun b => ?_
    split
    · exact delimited_pure _
    · exact delimited_malformed
  · exact delimited_malformed

theorem delimited_refusing (depth : Nat) : Delimited (refusing.decode depth) := by
  intro bytes a rest run
  cases run

theorem delimited_nodeId (depth : Nat) : Delimited (nodeId.decode depth) :=
  (delimited_integer _ depth).map NodeId.mk

end Bodies

end Codec

end MessagePack

namespace Nested

open MessagePack

theorem delimited_decode (depth : Nat) : Delimited (decode depth) := by
  induction depth with
  | zero =>
    rw [decode]
    refine delimited_readHead.bind fun head => ?_
    split
    · exact delimited_malformed
    · exact delimited_pure empty
    · exact delimited_malformed
  | succ depth ih =>
    rw [decode]
    refine delimited_readHead.bind fun head => ?_
    split
    · exact (delimited_times ih _).map ofList
    · exact delimited_pure empty
    · exact delimited_malformed

end Nested

open MessagePack

theorem ValueType.delimited_codec (t : ValueType) (depth : Nat) :
    Delimited (t.codec.decode depth) := by
  open Codec in
  cases t with
  | u8 => exact delimited_integer (unsignedOf 1 UInt8.ofNat) depth
  | u16 => exact delimited_integer (unsignedOf 2 UInt16.ofNat) depth
  | u32 => exact delimited_integer (unsignedOf 4 UInt32.ofNat) depth
  | u64 => exact delimited_integer (unsignedOf 8 UInt64.ofNat) depth
  | i8 => exact delimited_integer (signedOf 1 Int8.ofInt) depth
  | i16 => exact delimited_integer (signedOf 2 Int16.ofInt) depth
  | i32 => exact delimited_integer (signedOf 4 Int32.ofInt) depth
  | i64 => exact delimited_integer (signedOf 8 Int64.ofInt) depth
  | bool => exact delimited_bool depth
  | f64 => exact delimited_binary64 depth
  | string => exact delimited_text depth
  | unit => exact delimited_unit depth
  | optU32 => exact delimited_option (delimited_integer _ depth) rfl
  | vecU32 => exact delimited_list (delimited_integer _) depth
  | vecString => exact delimited_list delimited_text depth
  | pair => exact delimited_pair (delimited_integer _) delimited_text depth
  | map => exact delimited_textMap (delimited_integer _) depth
  | body => exact delimited_body depth
  | nested => exact Nested.delimited_decode depth
  | fail => exact delimited_refusing depth
  | entryKind | marker => exact delimited_choice depth
  | nodeId => exact delimited_nodeId depth

namespace Read

variable {α : Type} {c : Codec α}

theorem formatted_eq (layout : Layout) (c : Codec α) : formatted layout c = value c := by
  cases layout <;> rfl

theorem value_skips {used : Bytes} {a : α} (gives : Gives (c.decode maxDepth) used a) {r : Reader}
    {rest : Bytes} (unread : r.unread = used ++ rest) : value c r = .ok a (r.skip used.length) := by
  rw [value_of_gives gives unread, Reader.skip, unread, List.drop_left]

/-- Where a value is found, and what is left of the reader. -/
theorem value_view (h : Delimited (c.decode maxDepth)) {r r' : Reader} {a : α}
    (read : value c r = .ok a r') :
    ∃ used rest, r.unread = used ++ rest ∧ Gives (c.decode maxDepth) used a ∧
      r' = r.skip used.length := by
  cases front : c.decodeFront r.unread with
  | error fault =>
    rw [value, front] at read
    cases read
  | ok found =>
    obtain ⟨used, unread, gives⟩ := h r.unread found.1 found.2 front
    have again := value_skips gives unread
    rw [read] at again
    cases again
    exact ⟨used, found.2, unread, gives, rfl⟩

/-- A failure leaves the reader as it was, and the bytes fail alike when all of them are read. -/
theorem value_failed {r r' : Reader} {e : Error} (failed : value c r = .error e r') :
    r' = r ∧ c.decodeAll r.unread = .error e := by
  cases front : c.decodeFront r.unread with
  | error fault =>
    rw [value, front] at failed
    cases failed
    exact ⟨rfl, by rw [Codec.decodeAll, front]⟩
  | ok found =>
    rw [value, front] at failed
    cases failed

theorem skip_injective {r : Reader} {m n : Nat} (same : r.skip m = r.skip n) : m = n :=
  Nat.add_left_cancel (congrArg Reader.position same)

/-- A value cut short is none: what a decoder makes of a part of it, it would make of the whole. -/
theorem value_of_cut (h : Delimited (c.decode maxDepth)) {used : Bytes} {a : α}
    (gives : Gives (c.decode maxDepth) used a) {r : Reader} {m : Nat} (cut : m < used.length)
    (unread : r.unread = used.take m) : ∃ e, value c r = .error e r := by
  cases read : value c r with
  | error e r' =>
    obtain ⟨rfl, -⟩ := value_failed read
    exact ⟨e, rfl⟩
  | ok b r' =>
    obtain ⟨used', rest, split, gives', -⟩ := value_view h read
    rw [unread] at split
    -- the shorter value is read from the longer one's bytes as well, and ends elsewhere
    have whole : used = used' ++ (rest ++ used.drop m) := by
      rw [← List.append_assoc, ← split, List.take_append_drop]
    have one := gives []
    have other := gives' (rest ++ used.drop m)
    rw [← whole] at other
    rw [List.append_nil, other] at one
    have nothing : rest ++ used.drop m = [] := by
      injection one with both
      exact congrArg Prod.snd both
    have gone : used.length ≤ m := List.drop_eq_nil_iff.mp (List.append_eq_nil_iff.mp nothing).2
    omega

end Read

namespace MessagePack.Codec

variable {α : Type} {c : Codec α}

theorem remaining_skip {r : Reader} {used rest : Bytes} (unread : r.unread = used ++ rest) :
    (r.skip used.length).unread = rest := by
  rw [Reader.skip, unread]
  exact List.drop_left

/-- Reading all bytes is the same whether the rest is kept as bytes or as a reader. -/
theorem fromBytes_eq_decodeAll (h : Delimited (c.decode maxDepth)) (layout : Layout)
    (bytes : Bytes) : c.fromBytes layout bytes = c.decodeAll bytes := by
  rw [fromBytes, Read.formatted_eq, decodeAll]
  cases read : Read.value c (.ofBytes bytes 0) with
  | error e r =>
    have failed := (Read.value_failed read).2
    rw [← decodeAll]
    exact failed.symm
  | ok a r =>
    obtain ⟨used, rest, unread, gives, rfl⟩ := Read.value_view h read
    have front : c.decodeFront bytes = .ok (a, rest) := by
      have given := gives rest
      rwa [← unread] at given
    rw [front]
    have left := remaining_skip unread
    simp only [Reader.isEmpty, Reader.remaining, left]
    cases rest with
    | nil => rfl
    | cons b rest => rfl

/-- What becomes of the reader `r`, and of its unread bytes alone, when a value is read from it. -/
structure SelfDelimiting (c : Codec α) (layout : Layout) (r : Reader) : Prop where
  alike : ∀ other, Read.formatted other c r = Read.formatted layout c r
  /-- A value takes the bytes that it is read from and does not look at those behind it. -/
  consumes : ∀ a r', Read.formatted layout c r = .ok a r' →
    ∃ n, n ≤ r.unread.length ∧ r' = r.skip n ∧
      (∀ (s : Reader) (tail : Bytes), s.unread = r.unread.take n ++ tail →
        Read.formatted layout c s = .ok a (s.skip n)) ∧
      ∀ (s : Reader) (m : Nat), m < n → s.unread = r.unread.take m →
        ∃ e, Read.formatted layout c s = .error e s
  atomic : ∀ e r', Read.formatted layout c r = .error e r' → r' = r
  all_iff : ∀ a, c.fromBytes layout r.unread = .ok a ↔
    Read.formatted layout c r = .ok a (r.skip r.unread.length)
  trailing : ∀ a n, Read.formatted layout c r = .ok a (r.skip n) → n < r.unread.length →
    ∃ fault : SerializationFault,
      c.fromBytes layout r.unread = .error (.serialization fault) ∧
        fault = .trailingBytes (r.unread.length - n) ∧
        fault.message = s!"{r.unread.length - n} trailing bytes after value"
  failing : ∀ e, Read.formatted layout c r = .error e r → c.fromBytes layout r.unread = .error e
  /-- The reading of all bytes that stores and cells use is this one. -/
  decodes : c.fromBytes layout r.unread = c.decodeAll r.unread

/-- What is true of a decoder at the front of any bytes, as a reader and a whole input see it. -/
theorem self_delimiting_of_delimited (h : Delimited (c.decode maxDepth)) (layout : Layout)
    (r : Reader) : SelfDelimiting c layout r := by
  have all := fromBytes_eq_decodeAll h layout r.unread
  have same := Read.formatted_eq layout c
  refine ⟨?_, ?_, ?_, ?_, ?_, ?_, all⟩
  · intro other
    rw [same, Read.formatted_eq]
  · rw [same]
    intro a r' read
    obtain ⟨used, rest, unread, gives, rfl⟩ := Read.value_view h read
    have taken : r.unread.take used.length = used := by rw [unread, List.take_left]
    refine ⟨used.length, ?_, rfl, ?_, ?_⟩
    · rw [unread, List.length_append]
      exact Nat.le_add_right _ _
    · intro s tail front
      rw [taken] at front
      exact Read.value_skips gives front
    · intro s m cut front
      rw [unread, List.take_append_of_le_length (Nat.le_of_lt cut)] at front
      exact Read.value_of_cut h gives cut front
  · rw [same]
    exact fun e r' failed => (Read.value_failed failed).1
  · intro a
    rw [same, all]
    constructor
    · intro whole
      obtain ⟨used, unread, gives⟩ := h r.unread a [] (decodeFront_of_decodeAll whole)
      rw [Read.value_skips gives unread, unread, List.append_nil]
    · intro read
      obtain ⟨used, rest, unread, gives, skipped⟩ := Read.value_view h read
      have length := Read.skip_injective skipped
      rw [unread, List.length_append] at length
      have nothing : rest = [] := List.length_eq_zero_iff.mp (by omega)
      rw [unread, nothing, List.append_nil]
      exact decodeAll_of_gives gives
  · rw [same, all]
    intro a n read short
    obtain ⟨used, rest, unread, gives, skipped⟩ := Read.value_view h read
    obtain rfl := Read.skip_injective skipped
    have front : c.decodeFront r.unread = .ok (a, rest) := by
      rw [unread]
      exact gives rest
    have left : r.unread.length - used.length = rest.length := by
      rw [unread, List.length_append, Nat.add_sub_cancel_left]
    refine ⟨.trailingBytes rest.length, ?_, by rw [left], by rw [left]; rfl⟩
    rw [decodeAll, front]
    cases rest with
    | nil =>
      rw [List.length_nil] at left
      omega
    | cons b rest => rfl
  · rw [same, all]
    exact fun e failed => (Read.value_failed failed).2

end MessagePack.Codec

/-- Whatever the bytes are, whoever wrote them, and wherever the reader stands. -/
theorem ValueType.self_delimiting (t : ValueType) (layout : Layout) (r : Reader) :
    t.codec.SelfDelimiting layout r :=
  Codec.self_delimiting_of_delimited (t.delimited_codec maxDepth) layout r

/-- A number in nine bytes, then a byte that is no part of it. -/
example :
    ValueType.u8.codec.decodeAll [0xcf, 0, 0, 0, 0, 0, 0, 0, 7, 1] =
      .error (.serialization (.trailingBytes 1)) := by
  rfl

end GraphJournal
