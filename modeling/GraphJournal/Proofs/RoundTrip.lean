import Mathlib.Algebra.Group.Int.Defs
import Mathlib.Algebra.Group.Nat.Defs
import GraphJournal.Limits
import GraphJournal.MessagePack.Compound
import GraphJournal.Proofs.CellHistory

/-!
# Round trips of values

What a codec writes is read back, whatever stands behind it. Heads, whole numbers and lists are
treated; a list only as long as its head can tell its length. Values of other types are NOT treated
here.
-/
namespace GraphJournal.MessagePack

set_option autoImplicit false

variable {α β : Type}

/-- The decoder reads just these bytes, whatever stands behind them, and gives `a`. -/
def Gives (act : Decode α) (bytes : Bytes) (a : α) : Prop :=
  ∀ rest, act (bytes ++ rest) = .ok (a, rest)

theorem gives_pure (a : α) : Gives (pure a) [] a := fun _ => rfl

theorem Gives.bind {act : Decode α} {next : α → Decode β} {xs ys : Bytes} {a : α} {b : β}
    (first : Gives act xs a) (second : Gives (next a) ys b) :
    Gives (act >>= next) (xs ++ ys) b := by
  intro rest
  have run := first (ys ++ rest)
  have run' := second rest
  rw [List.append_assoc]
  change (act (xs ++ (ys ++ rest))).bind _ = _
  rw [run]
  exact run'

theorem Gives.map {act : Decode α} {xs : Bytes} {a : α} (first : Gives act xs a) (f : α → β) :
    Gives (act >>= fun a => pure (f a)) xs (f a) := by
  intro rest
  have run := first rest
  change (act (xs ++ rest)).bind _ = _
  rw [run]
  rfl

theorem gives_takeBytes (bs : Bytes) : Gives (takeBytes bs.length) bs bs := by
  intro rest
  have enough : Bytes.hasAtLeast bs.length (bs ++ rest) = true := by
    rw [Bytes.hasAtLeast_iff, List.length_append]
    omega
  rw [takeBytes, if_pos enough, List.take_left, List.drop_left]

theorem gives_takeNat {width n : Nat} (fits : n < Bytes.limit width) :
    Gives (takeNat width) (Bytes.bigEndian width n) n := by
  have digits := (gives_takeBytes (Bytes.bigEndian width n)).map Bytes.toNat
  rwa [Bytes.length_bigEndian, Bytes.toNat_bigEndian, Nat.mod_eq_of_lt fits] at digits

section Heads

/-- A head whose form byte a number follows. -/
theorem gives_wide {form : UInt8} {width n : Nat} (head : Nat → Head) (fits : n < Bytes.limit width)
    (read : ∀ rest, readHead (form :: rest) = (takeNat width >>= fun n => pure (head n)) rest) :
    Gives readHead (wide form width n) (head n) := by
  intro rest
  have digits := (gives_takeNat fits).map head
  rw [wide, List.cons_append, read]
  exact digits rest

/-- The heads of a single byte. -/
inductive Short : Nat → Head → Prop
  | unsigned {n : Nat} (small : n < 0x80) : Short n (.unsigned n)
  | map {n : Nat} (small : n < 16) : Short (0x80 + n) (.map n)
  | array {n : Nat} (small : n < 16) : Short (0x90 + n) (.array n)
  | text {n : Nat} (small : n < 32) : Short (0xa0 + n) (.text n)
  | signed {n : Nat} (low : 0xe0 ≤ n) (high : n < 0x100) : Short n (.signed ((n : Int) - 0x100))

theorem gives_short {k : Nat} {head : Head} (short : Short k head) :
    Gives readHead [UInt8.ofNat k] head := by
  intro rest
  have byte : (UInt8.ofNat k).toNat = k := by
    rw [UInt8.toNat_ofNat']
    cases short <;> omega
  change (if (UInt8.ofNat k).toNat < 0x80 then pure (.unsigned (UInt8.ofNat k).toNat)
    else if (UInt8.ofNat k).toNat < 0x90 then pure (.map ((UInt8.ofNat k).toNat - 0x80))
    else if (UInt8.ofNat k).toNat < 0xa0 then pure (.array ((UInt8.ofNat k).toNat - 0x90))
    else if (UInt8.ofNat k).toNat < 0xc0 then pure (.text ((UInt8.ofNat k).toNat - 0xa0))
    else if 0xe0 ≤ (UInt8.ofNat k).toNat then
      pure (.signed (((UInt8.ofNat k).toNat : Int) - 0x100))
    else _ : Decode Head) rest = _
  rw [byte]
  cases short with
  | unsigned small =>
    rw [if_pos small]
    rfl
  | map small =>
    rw [if_neg (by omega), if_pos (by omega), Nat.add_sub_cancel_left]
    rfl
  | array small =>
    rw [if_neg (by omega), if_neg (by omega), if_pos (by omega), Nat.add_sub_cancel_left]
    rfl
  | text small =>
    rw [if_neg (by omega), if_neg (by omega), if_neg (by omega), if_pos (by omega),
      Nat.add_sub_cancel_left]
    rfl
  | signed low high =>
    rw [if_neg (by omega), if_neg (by omega), if_neg (by omega), if_neg (by omega), if_pos low]
    rfl

theorem gives_natHead {n : Nat} (fits : n < 2 ^ 64) : Gives readHead (natHead n) (.unsigned n) := by
  unfold natHead
  split
  · exact gives_short (.unsigned (by assumption))
  · split
    · exact gives_wide .unsigned (by simpa [Bytes.limit]) fun _ => rfl
    · split
      · exact gives_wide .unsigned (by simpa [Bytes.limit]) fun _ => rfl
      · split
        · exact gives_wide .unsigned (by simpa [Bytes.limit]) fun _ => rfl
        · exact gives_wide .unsigned (by simpa [Bytes.limit]) fun _ => rfl

theorem gives_textHead {n : Nat} (fits : n < 2 ^ 32) : Gives readHead (textHead n) (.text n) := by
  unfold textHead
  split
  · exact gives_short (.text (by assumption))
  · split
    · exact gives_wide .text (by simpa [Bytes.limit]) fun _ => rfl
    · split
      · exact gives_wide .text (by simpa [Bytes.limit]) fun _ => rfl
      · exact gives_wide .text (by simpa [Bytes.limit]) fun _ => rfl

theorem gives_countHead {short n : Nat} {form form' : UInt8} {head : Nat → Head} (fits : n < 2 ^ 32)
    (single : n < 16 → Short (short + n) (head n))
    (read : ∀ rest, readHead (form :: rest) = (takeNat 2 >>= fun n => pure (head n)) rest)
    (read' : ∀ rest, readHead (form' :: rest) = (takeNat 4 >>= fun n => pure (head n)) rest) :
    Gives readHead (countHead short form form' n) (head n) := by
  unfold countHead
  split
  · exact gives_short (single (by assumption))
  · split
    · exact gives_wide head (by simpa [Bytes.limit]) read
    · exact gives_wide head (by simpa [Bytes.limit]) read'

theorem gives_arrayHead {n : Nat} (fits : n < 2 ^ 32) : Gives readHead (arrayHead n) (.array n) :=
  gives_countHead fits .array (fun _ => rfl) fun _ => rfl

theorem gives_mapHead {n : Nat} (fits : n < 2 ^ 32) : Gives readHead (mapHead n) (.map n) :=
  gives_countHead fits .map (fun _ => rfl) fun _ => rfl

/-- The complement of a negative number stands for it. -/
theorem asSigned_complement {width : Nat} {i : Int} (negative : i < 0)
    (low : -(Bytes.limit width : Int) ≤ 2 * i) :
    asSigned width (i + Bytes.limit width).toNat = i := by
  have high : ¬ 2 * (i + Bytes.limit width).toNat < Bytes.limit width := by omega
  rw [asSigned, if_neg high]
  omega

theorem gives_wideNegative {form : UInt8} {width : Nat} {i : Int} (negative : i < 0)
    (low : -(Bytes.limit width : Int) ≤ 2 * i)
    (read : ∀ rest, readHead (form :: rest) =
      (takeNat width >>= fun n => pure (.signed (asSigned width n))) rest) :
    Gives readHead (wideNegative form width i) (.signed i) := by
  have fits : (i + Bytes.limit width).toNat < Bytes.limit width := by omega
  have head : Gives readHead (wideNegative form width i) _ :=
    gives_wide (fun n => .signed (asSigned width n)) fits read
  rwa [asSigned_complement negative low] at head

theorem gives_negativeHead {i : Int} (negative : i < 0) (low : -2 ^ 63 ≤ i) :
    Gives readHead (intHead i) (.signed i) := by
  unfold intHead
  rw [if_neg (by omega)]
  split
  · have head := gives_short (k := (i + 0x100).toNat) (.signed (by omega) (by omega))
    rw [Int.toNat_of_nonneg (by omega), Int.add_sub_cancel] at head
    exact head
  · split
    · exact gives_wideNegative negative (by simp only [Bytes.limit]; omega) fun _ => rfl
    · split
      · exact gives_wideNegative negative (by simp only [Bytes.limit]; omega) fun _ => rfl
      · split
        · exact gives_wideNegative negative (by simp only [Bytes.limit]; omega) fun _ => rfl
        · exact gives_wideNegative negative (by simp only [Bytes.limit]; omega) fun _ => rfl

end Heads

namespace Codec

/-- What is written whole is read back where `depth` arrays may be entered, whatever follows. -/
def Lossless (c : Codec α) (layout : Layout) (depth : Nat) : Prop :=
  ∀ a, (c.encode layout a).fault? = none → Gives (c.decode depth) (c.encode layout a).bytes a

/-- What is written whole, and is no longer than the payload of an entry, is read back. -/
def RestoresShort (c : Codec α) (layout : Layout) : Prop :=
  ∀ a, (c.encode layout a).fault? = none → (c.encode layout a).bytes.length < maxLengthField →
    c.decodeAll (c.encode layout a).bytes = .ok a

theorem Restores.short {c : Codec α} {layout : Layout} (h : c.Restores layout) :
    c.RestoresShort layout := fun a whole _ => h a whole

theorem decodeAll_of_gives {c : Codec α} {bytes : Bytes} {a : α}
    (h : Gives (c.decode maxDepth) bytes a) : c.decodeAll bytes = .ok a := by
  have front := h []
  rw [List.append_nil] at front
  rw [decodeAll, decodeFront, StateT.run, front]

theorem Lossless.restores {c : Codec α} {layout : Layout} (h : c.Lossless layout maxDepth) :
    c.Restores layout := fun a whole => decodeAll_of_gives (h a whole)

/-- The bytes that are read back as a whole are all that is read. -/
theorem decodeFront_of_decodeAll {c : Codec α} {bytes : Bytes} {a : α}
    (h : c.decodeAll bytes = .ok a) : c.decodeFront bytes = .ok (a, []) := by
  unfold decodeAll at h
  cases front : c.decodeFront bytes with
  | error fault =>
    rw [front] at h
    cases h
  | ok found =>
    rw [front] at h
    obtain ⟨value, rest⟩ := found
    cases rest with
    | nil =>
      cases h
      rfl
    | cons b rest => cases h

theorem bytes_unsigned {toNat : α → Nat} (of : Int → Option α) (zero : α) (layout : Layout) (a : α) :
    ((integer (fun a => (toNat a : Int)) of zero).encode layout a).bytes = natHead (toNat a) := by
  change intHead (toNat a : Int) = _
  rw [intHead, if_pos (Int.natCast_nonneg _), Int.toNat_natCast]

theorem gives_readInt {i : Int} (low : -2 ^ 63 ≤ i) (high : i < 2 ^ 64) :
    Gives readInt (intHead i) i := by
  rw [← List.append_nil (intHead i)]
  by_cases negative : i < 0
  · exact (gives_negativeHead negative low).bind (gives_pure i)
  · have head : Gives readHead (natHead i.toNat) (.unsigned i.toNat) := gives_natHead (by omega)
    have value : Gives readInt (natHead i.toNat ++ []) (i.toNat : Int) := head.bind (gives_pure _)
    rw [Int.toNat_of_nonneg (by omega)] at value
    rw [intHead, if_pos (by omega)]
    exact value

theorem gives_orMalformed {a? : Option α} {a : α} (there : a? = some a) :
    Gives (orMalformed a?) [] a := by
  rw [there]
  exact gives_pure a

/-- Whole numbers are read back at any depth. -/
theorem lossless_integer {toInt : α → Int} {ofInt? : Int → Option α} (zero : α)
    (fits : ∀ a, -2 ^ 63 ≤ toInt a ∧ toInt a < 2 ^ 64) (back : ∀ a, ofInt? (toInt a) = some a)
    (layout : Layout) (depth : Nat) : (integer toInt ofInt? zero).Lossless layout depth := by
  intro a _
  have number := gives_readInt (fits a).1 (fits a).2
  change Gives (readInt >>= fun i => orMalformed (ofInt? i)) (intHead (toInt a)) a
  rw [← List.append_nil (intHead (toInt a))]
  exact number.bind (gives_orMalformed (back a))

theorem unsignedOf_natCast {width n : Nat} (of : Nat → α) (fits : n < Bytes.limit width) :
    unsignedOf width of (n : Int) = some (of n) := by
  rw [unsignedOf, if_pos ⟨Int.natCast_nonneg _, Int.ofNat_lt.mpr fits⟩, Int.toNat_natCast]

/-- Whole numbers without a sign are read back at any depth. -/
theorem lossless_unsigned {width : Nat} {toNat : α → Nat} {of : Nat → α} (zero : α)
    (fits : ∀ a, toNat a < Bytes.limit width) (small : Bytes.limit width ≤ 2 ^ 64)
    (back : ∀ a, of (toNat a) = a) (layout : Layout) (depth : Nat) :
    (integer (fun a => (toNat a : Int)) (unsignedOf width of) zero).Lossless layout depth := by
  refine lossless_integer zero ?_ ?_ layout depth
  · intro a
    have high := Nat.lt_of_lt_of_le (fits a) small
    omega
  · intro a
    rw [unsignedOf_natCast of (fits a), back]

theorem lossless_uint64 (layout : Layout) (depth : Nat) : uint64.Lossless layout depth :=
  lossless_unsigned 0 (fun a => a.toNat_lt) (Nat.le_refl _) (fun _ => UInt64.ofNat_toNat) layout depth

theorem lossless_uint8 (layout : Layout) (depth : Nat) : uint8.Lossless layout depth :=
  lossless_unsigned 0 (fun a => a.toNat_lt) (by decide) (fun _ => UInt8.ofNat_toNat) layout depth

theorem uint8_ne_nil (layout : Layout) (a : UInt8) : (uint8.encode layout a).bytes ≠ [] := by
  rw [uint8, bytes_unsigned, natHead]
  split
  · exact List.cons_ne_nil _ _
  · rw [if_pos a.toNat_lt]
    exact List.cons_ne_nil _ _

end Codec

/-- What an encoder has written that has finished, and the next one behind it. -/
theorem andThen_whole {first : Encoded} (h : first.fault? = none) (second : Encoded) :
    first.andThen second = { bytes := first.bytes ++ second.bytes, fault? := second.fault? } := by
  rw [Encoded.andThen, h]

theorem concat_finishes {parts : List Encoded} (h : ∀ p ∈ parts, p.fault? = none) :
    (Encoded.concat parts).fault? = none := by
  induction parts with
  | nil => rfl
  | cons p parts ih =>
    change (p.andThen (Encoded.concat parts)).fault? = none
    rw [andThen_whole (h p List.mem_cons_self)]
    exact ih fun q mem => h q (List.mem_cons_of_mem p mem)

/-- What several encoders have written, all of which have finished. -/
theorem concat_whole {parts : List Encoded} (h : (Encoded.concat parts).fault? = none) :
    (∀ p ∈ parts, p.fault? = none) ∧ (Encoded.concat parts).bytes = parts.flatMap (·.bytes) := by
  induction parts with
  | nil => exact ⟨fun p hp => (List.not_mem_nil hp).elim, rfl⟩
  | cons p parts ih =>
    change (p.andThen (Encoded.concat parts)).fault? = none at h
    change _ ∧ (p.andThen (Encoded.concat parts)).bytes = _
    unfold Encoded.andThen at h ⊢
    cases fault : p.fault? with
    | some fault =>
      rw [fault] at h
      rw [fault] at h
      cases h
    | none =>
      rw [fault] at h
      obtain ⟨whole, bytes⟩ := ih h
      constructor
      · intro q hq
        rcases List.mem_cons.mp hq with rfl | hq
        · exact fault
        · exact whole q hq
      · rw [List.flatMap_cons, ← bytes]

theorem gives_times {read : Decode α} {written : α → Bytes} {xs : List α}
    (each : ∀ x ∈ xs, Gives read (written x) x) :
    Gives (times read xs.length) (xs.flatMap written) xs := by
  induction xs with
  | nil => exact gives_pure []
  | cons x xs ih =>
    have rest := ih fun y hy => each y (List.mem_cons_of_mem _ hy)
    exact (each x List.mem_cons_self).bind (rest.map (x :: ·))

namespace Codec

theorem list_whole {c : Codec α} {layout : Layout} {xs : List α}
    (whole : ((list c).encode layout xs).fault? = none) :
    (∀ x ∈ xs, (c.encode layout x).fault? = none) ∧
      ((list c).encode layout xs).bytes =
        arrayHead xs.length ++ xs.flatMap fun x => (c.encode layout x).bytes := by
  have parts : (Encoded.concat (xs.map (c.encode layout))).fault? = none := whole
  obtain ⟨finished, bytes⟩ := concat_whole parts
  refine ⟨fun x hx => finished _ (List.mem_map_of_mem hx), ?_⟩
  rw [List.flatMap_map] at bytes
  rw [← bytes]
  rfl

/-- A list is read back if its items are, and if its head has room for its length. -/
theorem gives_list {c : Codec α} {layout : Layout} {depth : Nat} {xs : List α}
    (whole : ((list c).encode layout xs).fault? = none) (short : xs.length < 2 ^ 32)
    (each : ∀ x ∈ xs, Gives (c.decode depth) (c.encode layout x).bytes x) :
    Gives ((list c).decode (depth + 1)) ((list c).encode layout xs).bytes xs := by
  rw [(list_whole whole).2]
  exact (gives_arrayHead short).bind (gives_times each)

theorem length_le_flatMap {written : α → Bytes} (nonempty : ∀ a, written a ≠ []) (xs : List α) :
    xs.length ≤ (xs.flatMap written).length := by
  induction xs with
  | nil => exact Nat.le_refl _
  | cons x xs ih =>
    have here := List.length_pos_iff.mpr (nonempty x)
    rw [List.flatMap_cons, List.length_append, List.length_cons]
    omega

/-- A list in the payload of an entry is read back, if no item is written as nothing. -/
theorem restoresShort_list {c : Codec α} {layout : Layout} (items : c.Lossless layout (maxDepth - 1))
    (nonempty : ∀ a, (c.encode layout a).bytes ≠ []) : (list c).RestoresShort layout := by
  intro xs whole short
  have count := length_le_flatMap nonempty xs
  obtain ⟨finished, written⟩ := list_whole whole
  rw [written, List.length_append] at short
  simp only [maxLengthField] at short
  exact decodeAll_of_gives (gives_list whole (by omega) fun x hx => items x (finished x hx))

end Codec

end GraphJournal.MessagePack
