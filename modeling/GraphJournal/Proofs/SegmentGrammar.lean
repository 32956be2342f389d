import GraphJournal.Proofs.VarintLength
import GraphJournal.Proofs.Windows
import GraphJournal.Segment

/-!
# The grammar of segments

What a reader takes for a part of a record, for any bytes at any place, and what it refuses. A part
is told by its first byte; a key and the length of an address follow as varints, in as many bytes as
whoever wrote them has used. Written again, a part gives the same bytes if these were as few as
possible.

How parts follow one another in a record is NOT treated here.
-/
namespace GraphJournal

set_option autoImplicit false

namespace Marker

theorem ofByte?_large {b : UInt8} (large : 5 < b.toNat) :
    ofByte? b = none ∨ ofByte? b = some invalid := by
  unfold ofByte?
  split
  all_goals first
    | exact absurd large (by decide)
    | exact Or.inr rfl
    | exact Or.inl rfl

end Marker

namespace Draft

/-- The draft with a part of a record behind what it holds. -/
def segment (d : Draft) : Segment → Draft
  | .key k => d.key k
  | .locator address => d.locator address
  | .terminal op => d.marker op

theorem segment_eq (d : Draft) (part : Segment) : d.segment part = d.append part.encode := by
  cases part <;> rfl

end Draft

namespace Read

variable {r : Reader} {b : UInt8} {rest : Bytes}

/-- The varint behind the first byte. -/
abbrev numberAt (r : Reader) (rest : Bytes) : Except Error (UInt64 × Nat) :=
  Varint.decode rest (r.offset + 1)

/-- What no part of a record starts with, and the error that says so. -/
inductive Refused (r : Reader) : Error → Prop
  | empty (unread : r.unread = []) : Refused r (.truncated r.offset)
  /-- A byte that stands for no marker, or for the one that is never written. -/
  | unknown {b : UInt8} {rest : Bytes} (unread : r.unread = b :: rest) (large : 5 < b.toNat) :
    Refused r (.unknownMarker b)
  | number {b : UInt8} {rest : Bytes} {e : Error} (unread : r.unread = b :: rest)
    (marked : b = 0 ∨ b = 1) (failed : numberAt r rest = .error e) : Refused r e
  | key {rest : Bytes} {v : UInt64} {n : Nat} (unread : r.unread = 1 :: rest)
    (read : numberAt r rest = .ok (v, n)) (large : 2 ^ 32 ≤ v.toNat) :
    Refused r (.serialization (.varintExceeds32 v))
  /-- An address that is longer than what is left. -/
  | address {rest : Bytes} {v : UInt64} {n : Nat} (unread : r.unread = 0 :: rest)
    (read : numberAt r rest = .ok (v, n)) (short : rest.length < n + v.toNat) :
    Refused r (.truncated (r.offset + r.unread.length))

/-- The number behind the first byte, where there is one, takes as few bytes as it can. -/
def ShortestBehind (bytes : Bytes) : Prop :=
  ∀ (b : UInt8) (rest : Bytes) (v : UInt64) (n : Nat), bytes = b :: rest →
    Varint.decode rest 0 = .ok (v, n) → Varint.Shortest v n

/-- What is read from `r` as a part of a record, when nothing is, and what can be said of it. -/
structure Grammar (r : Reader) : Prop where
  /-- The value of a key fits in 32 bits, as the key does. -/
  key_iff : ∀ k r', segment r = .ok (.key k) r' ↔
    ∃ rest v n, r.unread = 1 :: rest ∧ numberAt r rest = .ok (v, n) ∧ v.toNat = k.toNat ∧
      r' = r.skip (1 + n)
  locator_iff : ∀ a r', segment r = .ok (.locator a) r' ↔
    ∃ rest v n, r.unread = 0 :: rest ∧ numberAt r rest = .ok (v, n) ∧
      n + v.toNat ≤ rest.length ∧ a = (rest.drop n).take v.toNat ∧ r' = r.skip (1 + n + v.toNat)
  terminal_iff : ∀ op r', segment r = .ok (.terminal op) r' ↔
    ∃ b rest, r.unread = b :: rest ∧ 2 ≤ b.toNat ∧ b.toNat ≤ 5 ∧ op.byte = b ∧ r' = r.skip 1
  refused_iff : ∀ e, (∃ r', segment r = .error e r') ↔ Refused r e
  unknown : ∀ b rest, r.unread = b :: rest → 5 < b.toNat →
    segment r = .error (.unknownMarker b) (r.skip 1)
  /-- The bytes that a part takes are read alike in any other reader, whatever stands behind them. -/
  stable : ∀ part r', segment r = .ok part r' →
    ∃ n, n ≤ r.unread.length ∧ r' = r.skip n ∧
      ∀ (s : Reader) (tail : Bytes), s.unread = r.unread.take n ++ tail →
        segment s = .ok part (s.skip n)
  /-- Writing the part again gives the bytes it took, if the number in them has its shortest form,
  and only then. A marker that ends the address has no number behind it. -/
  again_iff : ∀ part n, segment r = .ok part (r.skip n) → ∀ d : Draft,
    (d.segment part = d.append (r.unread.take n) ↔ ShortestBehind (r.unread.take n))

section Parts

theorem skip_unread (unread : r.unread = b :: rest) : (r.skip 1).unread = rest := by
  rw [Reader.skip, unread]
  rfl

theorem marker_of_byte {m : Marker} (unread : r.unread = b :: rest)
    (known : Marker.ofByte? b = some m) (valid : m ≠ .invalid) : marker r = .ok m (r.skip 1) := by
  rw [marker, Run.bind_apply, byte, unread]
  dsimp only
  rw [known]
  dsimp only
  rw [if_neg valid]
  rfl

theorem marker_of_large (unread : r.unread = b :: rest) (large : 5 < b.toNat) :
    marker r = .error (.unknownMarker b) (r.skip 1) := by
  rw [marker, Run.bind_apply, byte, unread]
  rcases Marker.ofByte?_large large with none | invalid
  · simp only [none]
    rfl
  · simp only [invalid]
    rfl

theorem varint_at (unread : r.unread = b :: rest) :
    varint (r.skip 1) =
      match numberAt r rest with
      | .ok (v, n) => .ok v (r.skip (1 + n))
      | .error e => .error e (r.skip 1) := by
  rw [varint, skip_unread unread]
  change (match numberAt r rest with
    | .ok (v, n) => _
    | .error e => _) = _
  cases numberAt r rest with
  | error e => rfl
  | ok found =>
    simp only [Reader.skip_skip]

theorem varint32_at (unread : r.unread = b :: rest) :
    varint32 (r.skip 1) =
      match numberAt r rest with
      | .ok (v, n) =>
        if v.toNat < 2 ^ 32 then .ok v.toUInt32 (r.skip (1 + n))
        else .error (.serialization (.varintExceeds32 v)) (r.skip (1 + n))
      | .error e => .error e (r.skip 1) := by
  rw [varint32, Run.bind_apply, varint_at unread]
  cases numberAt r rest with
  | error e => rfl
  | ok found =>
    by_cases small : found.1.toNat < 2 ^ 32
    · simp only [if_pos small]
      exact congrFun (if_pos small) _
    · simp only [if_neg small]
      exact congrFun (if_neg small) _

theorem lengthPrefixed_at (unread : r.unread = b :: rest) :
    lengthPrefixed (r.skip 1) =
      match numberAt r rest with
      | .ok (v, n) =>
        if n + v.toNat ≤ rest.length then
          .ok ((rest.drop n).take v.toNat) (r.skip (1 + n + v.toNat))
        else .error (.truncated (r.offset + r.unread.length)) (r.skip (1 + n))
      | .error e => .error e (r.skip 1) := by
  rw [lengthPrefixed, Run.bind_apply, varint_at unread]
  cases read : numberAt r rest with
  | error e => rfl
  | ok found =>
    obtain ⟨v, n⟩ := found
    have within := (Varint.used_le_of_decode read).2
    have left : (r.skip (1 + n)).unread = rest.drop n := by
      rw [← Reader.skip_skip, Reader.skip, skip_unread unread]
    have there : 1 + n ≤ r.unread.length := by
      rw [unread, List.length_cons]
      omega
    have enough : Bytes.hasAtLeast v.toNat (rest.drop n) = true ↔ n + v.toNat ≤ rest.length := by
      rw [Bytes.hasAtLeast_iff, List.length_drop]
      omega
    have ends := Reader.end_skip there
    rw [left] at ends
    simp only [bytes, left, enough, Reader.skip_skip, Reader.shortRead, ends]

end Parts

section Answers

theorem segment_empty (unread : r.unread = []) : segment r = .error (.truncated r.offset) r := by
  rw [segment, Run.bind_apply, marker, Run.bind_apply, byte, unread]
  simp only [Reader.shortRead, unread, List.length_nil, Nat.add_zero]

theorem segment_large (unread : r.unread = b :: rest) (large : 5 < b.toNat) :
    segment r = .error (.unknownMarker b) (r.skip 1) := by
  rw [segment, Run.bind_apply, marker_of_large unread large]

theorem segment_key (unread : r.unread = 1 :: rest) :
    segment r =
      match numberAt r rest with
      | .ok (v, n) =>
        if v.toNat < 2 ^ 32 then .ok (.key v.toUInt32) (r.skip (1 + n))
        else .error (.serialization (.varintExceeds32 v)) (r.skip (1 + n))
      | .error e => .error e (r.skip 1) := by
  rw [segment, Run.bind_apply, marker_of_byte unread rfl (by decide : Marker.key ≠ .invalid)]
  dsimp only
  rw [Run.bind_apply, varint32_at unread]
  cases numberAt r rest with
  | error e => rfl
  | ok found =>
    by_cases small : found.1.toNat < 2 ^ 32
    · simp only [if_pos small, Run.pure_apply]
    · simp only [if_neg small]

theorem segment_locator (unread : r.unread = 0 :: rest) :
    segment r =
      match numberAt r rest with
      | .ok (v, n) =>
        if n + v.toNat ≤ rest.length then
          .ok (.locator ((rest.drop n).take v.toNat)) (r.skip (1 + n + v.toNat))
        else .error (.truncated (r.offset + r.unread.length)) (r.skip (1 + n))
      | .error e => .error e (r.skip 1) := by
  rw [segment, Run.bind_apply, marker_of_byte unread rfl (by decide : Marker.locator ≠ .invalid)]
  dsimp only
  rw [Run.bind_apply, lengthPrefixed_at unread]
  cases numberAt r rest with
  | error e => rfl
  | ok found =>
    by_cases fits : found.2 + found.1.toNat ≤ rest.length
    · simp only [if_pos fits, Run.pure_apply]
    · simp only [if_neg fits]

theorem segment_terminal {op : Marker} (unread : r.unread = op.byte :: rest)
    (terminal : op.isTerminal = true) : segment r = .ok (.terminal op) (r.skip 1) := by
  have valid : op ≠ .invalid := by
    rintro rfl
    cases terminal
  rw [segment, Run.bind_apply, marker_of_byte unread (Marker.ofByte?_byte op) valid]
  cases op <;> first | rfl | cases terminal

/-- All that can come of a read, by what stands at the front of the reader. -/
inductive Answer (r : Reader) : EStateM.Result Error Reader Segment → Prop
  | key {rest : Bytes} {v : UInt64} {n : Nat} (unread : r.unread = 1 :: rest)
    (read : numberAt r rest = .ok (v, n)) (small : v.toNat < 2 ^ 32) :
    Answer r (.ok (.key v.toUInt32) (r.skip (1 + n)))
  | locator {rest : Bytes} {v : UInt64} {n : Nat} (unread : r.unread = 0 :: rest)
    (read : numberAt r rest = .ok (v, n)) (there : n + v.toNat ≤ rest.length) :
    Answer r (.ok (.locator ((rest.drop n).take v.toNat)) (r.skip (1 + n + v.toNat)))
  | terminal {op : Marker} {rest : Bytes} (unread : r.unread = op.byte :: rest)
    (terminal : op.isTerminal = true) : Answer r (.ok (.terminal op) (r.skip 1))
  | refused {e : Error} {r' : Reader} (why : Refused r e) : Answer r (.error e r')

theorem first_cases (b : UInt8) :
    b = 0 ∨ b = 1 ∨ (∃ op : Marker, op.byte = b ∧ op.isTerminal = true) ∨ 5 < b.toNat := by
  by_cases large : 5 < b.toNat
  · exact Or.inr (Or.inr (Or.inr large))
  · have byte : b = UInt8.ofNat b.toNat := (UInt8.ofNat_toNat).symm
    generalize b.toNat = n at large byte
    subst byte
    obtain rfl | rfl | rfl | rfl | rfl | rfl : n = 0 ∨ n = 1 ∨ n = 2 ∨ n = 3 ∨ n = 4 ∨ n = 5 := by
      omega
    · exact Or.inl rfl
    · exact Or.inr (Or.inl rfl)
    · exact Or.inr (Or.inr (Or.inl ⟨.value, rfl, rfl⟩))
    · exact Or.inr (Or.inr (Or.inl ⟨.delete, rfl, rfl⟩))
    · exact Or.inr (Or.inr (Or.inl ⟨.addItem, rfl, rfl⟩))
    · exact Or.inr (Or.inr (Or.inl ⟨.deleteItem, rfl, rfl⟩))

theorem answer_segment (r : Reader) : Answer r (segment r) := by
  cases unread : r.unread with
  | nil =>
    rw [segment_empty unread]
    exact .refused (.empty unread)
  | cons b rest =>
    rcases first_cases b with rfl | rfl | ⟨op, rfl, terminal⟩ | large
    · rw [segment_locator unread]
      cases read : numberAt r rest with
      | error e => exact .refused (.number unread (Or.inl rfl) read)
      | ok found =>
        dsimp only
        split
        · rename_i there
          exact .locator unread read there
        · rename_i short
          exact .refused (.address unread read (Nat.lt_of_not_le short))
    · rw [segment_key unread]
      cases read : numberAt r rest with
      | error e => exact .refused (.number unread (Or.inr rfl) read)
      | ok found =>
        dsimp only
        split
        · rename_i small
          exact .key unread read small
        · rename_i large
          exact .refused (.key unread read (Nat.le_of_not_lt large))
    · rw [segment_terminal unread terminal]
      exact .terminal unread terminal
    · rw [segment_large unread large]
      exact .refused (.unknown unread large)

theorem error_of_refused {e : Error} (why : Refused r e) : ∃ r', segment r = .error e r' := by
  cases why with
  | empty unread => exact ⟨_, segment_empty unread⟩
  | unknown unread large => exact ⟨_, segment_large unread large⟩
  | number unread marked failed =>
    rcases marked with rfl | rfl
    · exact ⟨_, by rw [segment_locator unread, failed]⟩
    · exact ⟨_, by rw [segment_key unread, failed]⟩
  | key unread read large =>
    exact ⟨_, by rw [segment_key unread, read]; exact if_neg (Nat.not_lt_of_le large)⟩
  | address unread read short =>
    exact ⟨_, by rw [segment_locator unread, read]; exact if_neg (Nat.not_le_of_lt short)⟩

end Answers

section Consumed

/-- The bytes that a part takes, its first one and those behind it. -/
theorem take_unread (unread : r.unread = b :: rest) (n : Nat) :
    r.unread.take (1 + n) = b :: rest.take n := by
  rw [unread, Nat.add_comm, List.take_succ_cons]

/-- Bytes that are cut behind a number have it at their front. -/
theorem decode_front {v : UInt64} {n : Nat} (read : numberAt r rest = .ok (v, n)) (more place : Nat)
    (tail : Bytes) : Varint.decode (rest.take (n + more) ++ tail) place = .ok (v, n) := by
  rw [List.take_add, List.append_assoc]
  exact Varint.decode_stable read place _

theorem stable_of_answer {part : Segment} {r' : Reader} (answer : Answer r (.ok part r')) :
    ∃ n, n ≤ r.unread.length ∧ r' = r.skip n ∧
      ∀ (s : Reader) (tail : Bytes), s.unread = r.unread.take n ++ tail →
        segment s = .ok part (s.skip n) := by
  cases answer with
  | @key rest v n unread read small =>
    have within := (Varint.used_le_of_decode read).2
    refine ⟨1 + n, ?_, rfl, ?_⟩
    · rw [unread, List.length_cons]
      omega
    · intro s tail front
      rw [take_unread unread, List.cons_append] at front
      have again : numberAt s (rest.take n ++ tail) = .ok (v, n) := decode_front read 0 _ tail
      rw [segment_key front, again]
      exact if_pos small
  | @locator rest v n unread read there =>
    refine ⟨1 + n + v.toNat, ?_, rfl, ?_⟩
    · rw [unread, List.length_cons]
      omega
    · intro s tail front
      rw [Nat.add_assoc, take_unread unread, List.cons_append] at front
      have again : numberAt s (rest.take (n + v.toNat) ++ tail) = .ok (v, n) :=
        decode_front read v.toNat _ tail
      have enough : n + v.toNat ≤ (rest.take (n + v.toNat) ++ tail).length := by
        rw [List.length_append, List.length_take_of_le there]
        omega
      have address : ((rest.take (n + v.toNat) ++ tail).drop n).take v.toNat =
          (rest.drop n).take v.toNat := by
        rw [List.take_drop, List.take_drop, List.take_left' (List.length_take_of_le there)]
      rw [segment_locator front, again]
      dsimp only
      rw [if_pos enough, address]
  | @terminal op rest unread terminal =>
    refine ⟨1, ?_, rfl, ?_⟩
    · rw [unread, List.length_cons]
      omega
    · intro s tail front
      rw [unread, List.take_succ_cons, List.take_zero] at front
      exact segment_terminal front terminal

theorem append_injective {d : Draft} {xs ys : Bytes} : d.append xs = d.append ys ↔ xs = ys := by
  constructor
  · intro same
    exact List.append_cancel_left (congrArg (·.writer.bytes) same)
  · exact congrArg d.append

/-- Behind the first byte stands this number and no other. -/
theorem shortestBehind_cons {bytes : Bytes} {v : UInt64} {n : Nat}
    (read : Varint.decode bytes 0 = .ok (v, n)) : ShortestBehind (b :: bytes) ↔ Varint.Shortest v n := by
  constructor
  · exact fun all => all b bytes v n rfl read
  · rintro least b' rest v' n' same read'
    cases same
    rw [read] at read'
    cases read'
    exact least

theorem again_of_answer {part : Segment} {r' : Reader} (answer : Answer r (.ok part r')) {n : Nat}
    (moved : r' = r.skip n) (d : Draft) :
    d.segment part = d.append (r.unread.take n) ↔ ShortestBehind (r.unread.take n) := by
  rw [Draft.segment_eq, append_injective]
  cases answer with
  | @key rest v m unread read small =>
    obtain rfl := skip_injective moved
    have number : Varint.decode (rest.take m) 0 = .ok (v, m) := by
      have front := decode_front read 0 0 []
      rwa [Nat.add_zero, List.append_nil] at front
    have same : v.toUInt32.toUInt64 = v := by
      apply UInt64.toNat_inj.mp
      rw [UInt32.toNat_toUInt64, UInt64.toNat_toUInt32, Nat.mod_eq_of_lt small]
    rw [take_unread unread, shortestBehind_cons number, Varint.shortest_iff read]
    change 1 :: Varint.encode v.toUInt32.toUInt64 = 1 :: rest.take m ↔ _
    rw [same, List.cons_inj_right, eq_comm]
  | @locator rest v m unread read there =>
    obtain rfl := skip_injective moved
    have number : Varint.decode (rest.take (m + v.toNat)) 0 = .ok (v, m) := by
      have front := decode_front read v.toNat 0 []
      rwa [List.append_nil] at front
    have length : ((rest.drop m).take v.toNat).length = v.toNat := by
      rw [List.length_take_of_le]
      rw [List.length_drop]
      omega
    rw [Nat.add_assoc, take_unread unread, shortestBehind_cons number, Varint.shortest_iff read]
    change 0 :: (Varint.encode (UInt64.ofNat ((rest.drop m).take v.toNat).length) ++ _) = _ ↔ _
    rw [length, UInt64.ofNat_toNat, List.take_add, List.cons_inj_right, List.append_left_inj, eq_comm]
  | @terminal op rest unread terminal =>
    obtain rfl := skip_injective moved
    have alone : r.unread.take 1 = [op.byte] := by rw [unread, List.take_succ_cons, List.take_zero]
    rw [alone]
    refine iff_of_true rfl ?_
    rintro b rest v m same read
    cases same
    cases read

end Consumed

section Iffs

theorem key_iff (k : UInt32) (r' : Reader) : segment r = .ok (.key k) r' ↔
    ∃ rest v n, r.unread = 1 :: rest ∧ numberAt r rest = .ok (v, n) ∧ v.toNat = k.toNat ∧
      r' = r.skip (1 + n) := by
  constructor
  · intro run
    have answer := answer_segment r
    rw [run] at answer
    cases answer with
    | key unread read small =>
      refine ⟨_, _, _, unread, read, ?_, rfl⟩
      rw [UInt64.toNat_toUInt32, Nat.mod_eq_of_lt small]
  · rintro ⟨rest, v, n, unread, read, value, rfl⟩
    have small : v.toNat < 2 ^ 32 := value ▸ k.toNat_lt
    have same : v.toUInt32 = k := by
      apply UInt32.toNat_inj.mp
      rw [UInt64.toNat_toUInt32, Nat.mod_eq_of_lt small, value]
    rw [segment_key unread, read, ← same]
    exact if_pos small

theorem locator_iff (a : Bytes) (r' : Reader) : segment r = .ok (.locator a) r' ↔
    ∃ rest v n, r.unread = 0 :: rest ∧ numberAt r rest = .ok (v, n) ∧
      n + v.toNat ≤ rest.length ∧ a = (rest.drop n).take v.toNat ∧ r' = r.skip (1 + n + v.toNat) := by
  constructor
  · intro run
    have answer := answer_segment r
    rw [run] at answer
    cases answer with
    | locator unread read there => exact ⟨_, _, _, unread, read, there, rfl, rfl⟩
  · rintro ⟨rest, v, n, unread, read, there, rfl, rfl⟩
    rw [segment_locator unread, read]
    exact if_pos there

theorem isTerminal_iff (op : Marker) : op.isTerminal = true ↔ 2 ≤ op.byte.toNat ∧ op.byte.toNat ≤ 5 := by
  cases op <;> decide

theorem terminal_iff (op : Marker) (r' : Reader) : segment r = .ok (.terminal op) r' ↔
    ∃ b rest, r.unread = b :: rest ∧ 2 ≤ b.toNat ∧ b.toNat ≤ 5 ∧ op.byte = b ∧ r' = r.skip 1 := by
  constructor
  · intro run
    have answer := answer_segment r
    rw [run] at answer
    cases answer with
    | terminal unread terminal =>
      obtain ⟨low, high⟩ := (isTerminal_iff op).mp terminal
      exact ⟨_, _, unread, low, high, rfl, rfl⟩
  · rintro ⟨b, rest, unread, low, high, rfl, rfl⟩
    exact segment_terminal unread ((isTerminal_iff op).mpr ⟨low, high⟩)

theorem refused_iff (e : Error) : (∃ r', segment r = .error e r') ↔ Refused r e := by
  constructor
  · rintro ⟨r', run⟩
    have answer := answer_segment r
    rw [run] at answer
    cases answer with
    | refused why => exact why
  · exact error_of_refused

end Iffs

/-- For any bytes, wherever the reader stands in whatever string. -/
theorem segment_grammar (r : Reader) : Grammar r where
  key_iff := key_iff
  locator_iff := locator_iff
  terminal_iff := terminal_iff
  refused_iff := refused_iff
  unknown _ _ := segment_large
  stable _ _ run := stable_of_answer (run ▸ answer_segment r)
  again_iff _ _ run := again_of_answer (run ▸ answer_segment r) rfl

/-- The key 5 in a byte more than it needs, and an address that is cut. -/
example : segment (.ofBytes [1, 0x85, 0, 9] 0) = .ok (.key 5) ⟨[9], 3, 0⟩ ∧
    segment (.ofBytes [0, 2, 7] 0) = .error (.truncated 3) ⟨[7], 2, 0⟩ := by
  constructor <;> rfl

end Read

end GraphJournal
