import GraphJournal.Entry.Payload
import GraphJournal.Proofs.RoundTrip
import GraphJournal.Values

/-!
# Values of every type, written and read

A value of any type that can be written at all is read back exactly, by whoever reads and wherever it
stands, if its lengths fit in 32 bits and if it does not nest too deep. The readers do not look at the
layout, so nothing depends on it. Forms in which no value is written are NOT treated, nor what becomes
of values that nest deeper.
-/
namespace GraphJournal

set_option autoImplicit false

open MessagePack

namespace OrderedMap

variable {α β : Type} [Ord α] [Std.TransOrd α]

theorem place_last {k : α} (v : β) {entries : List (α × β)}
    (below : ∀ e ∈ entries, compare e.1 k = .lt) : place k v entries = entries ++ [(k, v)] := by
  induction entries with
  | nil => rfl
  | cons e entries ih =>
    have after := Std.OrientedCmp.gt_of_lt (below e List.mem_cons_self)
    have rest := ih fun x mem => below x (List.mem_cons_of_mem e mem)
    simp only [place, after, rest, List.cons_append]

/-- Entries that come in the order of their keys stay as they are. -/
theorem entries_foldl_insert (entries : List (α × β)) (m : OrderedMap α β)
    (ordered : (m.entries ++ entries).Pairwise fun a b => compare a.1 b.1 = .lt) :
    (entries.foldl (fun m e => m.insert e.1 e.2) m).entries = m.entries ++ entries := by
  induction entries generalizing m with
  | nil => rw [List.foldl_nil, List.append_nil]
  | cons e entries ih =>
    have below : ∀ x ∈ m.entries, compare x.1 e.1 = .lt := fun x mem =>
      (List.pairwise_append.mp ordered).2.2 x mem e List.mem_cons_self
    have placed : (m.insert e.1 e.2).entries = m.entries ++ [e] := place_last e.2 below
    have same : (m.insert e.1 e.2).entries ++ entries = m.entries ++ e :: entries := by
      rw [placed, List.append_assoc, List.singleton_append]
    rw [List.foldl_cons, ih _ (same ▸ ordered), same]

theorem ofList_entries (m : OrderedMap α β) : ofList m.entries = m :=
  ext (entries_foldl_insert m.entries empty m.increasing)

end OrderedMap

namespace MessagePack.Codec

variable {α β : Type}

/-- Every value is written whole, and it is read back wherever there is room for it: `room` tells
which values there are if so many arrays and maps may be entered. -/
structure Faithful (c : Codec α) (room : Nat → α → Prop) : Prop where
  whole : ∀ layout a, (c.encode layout a).fault? = none
  back : ∀ layout {depth : Nat} {a : α}, room depth a →
    Gives (c.decode depth) (c.encode layout a).bytes a

theorem Faithful.mono {c : Codec α} {room less : Nat → α → Prop} (h : c.Faithful room)
    (within : ∀ {depth a}, less depth a → room depth a) : c.Faithful less :=
  ⟨h.whole, fun layout _ _ there => h.back layout (within there)⟩

/-- Room at any depth. -/
def anywhere (P : α → Prop) : Nat → α → Prop := fun _ a => P a

section Scalars

theorem faithful_integer {toInt : α → Int} {ofInt? : Int → Option α} (zero : α)
    (fits : ∀ a, -2 ^ 63 ≤ toInt a ∧ toInt a < 2 ^ 64) (back : ∀ a, ofInt? (toInt a) = some a) :
    (integer toInt ofInt? zero).Faithful (anywhere fun _ => True) :=
  ⟨fun _ _ => rfl, fun layout depth a _ => lossless_integer zero fits back layout depth a rfl⟩

theorem faithful_unsigned {width : Nat} {toNat : α → Nat} {of : Nat → α} (zero : α)
    (fits : ∀ a, toNat a < Bytes.limit width) (small : Bytes.limit width ≤ 2 ^ 64)
    (back : ∀ a, of (toNat a) = a) :
    (integer (fun a => (toNat a : Int)) (unsignedOf width of) zero).Faithful
      (anywhere fun _ => True) :=
  ⟨fun _ _ => rfl,
    fun layout depth a _ => lossless_unsigned zero fits small back layout depth a rfl⟩

theorem faithful_signed {width : Nat} {half : Int} {toInt : α → Int} {of : Int → α} (zero : α)
    (limit : (Bytes.limit width : Int) = 2 * half ∧ half ≤ 2 ^ 63)
    (fits : ∀ a, -half ≤ toInt a ∧ toInt a < half) (back : ∀ a, of (toInt a) = a) :
    (integer toInt (signedOf width of) zero).Faithful (anywhere fun _ => True) := by
  refine faithful_integer zero ?_ ?_
  · intro a
    have within := fits a
    omega
  · intro a
    have within := fits a
    rw [signedOf, if_pos (by omega), back]

theorem faithful_uint8 : uint8.Faithful (anywhere fun _ => True) :=
  faithful_unsigned 0 (fun a => a.toNat_lt) (by decide) fun _ => UInt8.ofNat_toNat

theorem faithful_uint16 : uint16.Faithful (anywhere fun _ => True) :=
  faithful_unsigned 0 (fun a => a.toNat_lt) (by decide) fun _ => UInt16.ofNat_toNat

theorem faithful_uint32 : uint32.Faithful (anywhere fun _ => True) :=
  faithful_unsigned 0 (fun a => a.toNat_lt) (by decide) fun _ => UInt32.ofNat_toNat

theorem faithful_uint64 : uint64.Faithful (anywhere fun _ => True) :=
  faithful_unsigned 0 (fun a => a.toNat_lt) (by decide) fun _ => UInt64.ofNat_toNat

theorem faithful_int8 : int8.Faithful (anywhere fun _ => True) :=
  faithful_signed 0 (by decide) (fun a => ⟨a.le_toInt, a.toInt_lt⟩) Int8.ofInt_toInt

theorem faithful_int16 : int16.Faithful (anywhere fun _ => True) :=
  faithful_signed 0 (by decide) (fun a => ⟨a.le_toInt, a.toInt_lt⟩) Int16.ofInt_toInt

theorem faithful_int32 : int32.Faithful (anywhere fun _ => True) :=
  faithful_signed 0 (by decide) (fun a => ⟨a.le_toInt, a.toInt_lt⟩) Int32.ofInt_toInt

theorem faithful_int64 : int64.Faithful (anywhere fun _ => True) :=
  faithful_signed 0 (by decide) (fun a => ⟨a.le_toInt, a.toInt_lt⟩) Int64.ofInt_toInt

theorem faithful_bool : bool.Faithful (anywhere fun _ => True) := by
  refine ⟨fun _ _ => rfl, fun layout depth b _ => ?_⟩
  cases b <;> exact fun _ => rfl

theorem faithful_unit : unit.Faithful (anywhere fun _ => True) :=
  ⟨fun _ _ => rfl, fun _ _ _ _ _ => rfl⟩

theorem faithful_binary64 : binary64.Faithful (anywhere fun _ => True) := by
  refine ⟨fun _ _ => rfl, fun layout depth x _ => ?_⟩
  have head : Gives readHead (wide 0xcb 8 x.bits.toNat) (.double (UInt64.ofNat x.bits.toNat)) :=
    gives_wide (fun n => .double (UInt64.ofNat n)) x.bits.toNat_lt fun _ => rfl
  rw [UInt64.ofNat_toNat] at head
  change Gives (binary64.decode depth) (wide 0xcb 8 x.bits.toNat) x
  rw [← List.append_nil (wide 0xcb 8 x.bits.toNat)]
  exact head.bind (gives_pure x)

/-- The length of a text fits in 32 bits. -/
def ShortText (s : String) : Prop := (textBytes s).length < 2 ^ 32

instance (s : String) : Decidable (ShortText s) :=
  inferInstanceAs (Decidable ((textBytes s).length < 2 ^ 32))

theorem textOfBytes?_textBytes (s : String) : textOfBytes? (textBytes s) = some s := by
  have same : (textBytes s).toByteArray = s.toByteArray := by
    apply ByteArray.ext
    rw [List.data_toByteArray, textBytes, String.toUTF8_eq_toByteArray, Array.toArray_toList]
  rw [textOfBytes?, same, String.fromUTF8?, dif_pos s.isValidUTF8]
  rfl

theorem gives_text {s : String} (short : ShortText s) (depth : Nat) :
    Gives (text.decode depth) (encodeText s) s := by
  have found : Gives (takeBytes (textBytes s).length >>= fun bytes => orMalformed (textOfBytes? bytes))
      (textBytes s ++ []) s :=
    (gives_takeBytes (textBytes s)).bind (gives_orMalformed (textOfBytes?_textBytes s))
  rw [List.append_nil] at found
  exact (gives_textHead short).bind found

theorem faithful_text : text.Faithful (anywhere ShortText) :=
  ⟨fun _ _ => rfl, fun _ depth _ short => gives_text short depth⟩

theorem faithful_nodeId : nodeId.Faithful (anywhere fun _ => True) := by
  refine ⟨fun _ _ => rfl, fun layout depth id _ => ?_⟩
  exact (lossless_uint64 layout depth id.raw rfl).map NodeId.mk

/-- A name is read back if it stands for one member only. -/
theorem faithful_choice {name : α → String} {all : List α} (default : α)
    (short : ∀ a, ShortText (name a))
    (found : ∀ a, (all.find? fun b => textBytes (name b) = textBytes (name a)) = some a) :
    (choice name all default).Faithful (anywhere fun _ => True) := by
  refine ⟨fun _ _ => rfl, fun layout depth a _ rest => ?_⟩
  have head := gives_textHead (short a) (textBytes (name a) ++ rest)
  have named : Gives (takeBytes (textBytes (name a)).length >>= fun bytes =>
      orMalformed (all.find? fun b => textBytes (name b) = bytes)) (textBytes (name a) ++ []) a :=
    (gives_takeBytes (textBytes (name a))).bind (gives_orMalformed (found a))
  rw [List.append_nil] at named
  have read : Gives (readName name all) (encodeText (name a)) a :=
    (gives_textHead (short a)).bind named
  rw [← List.append_assoc] at head
  change (choice name all default).decode depth (encodeText (name a) ++ rest) = _
  simp only [choice, StateT.run]
  rw [encodeText, head]
  exact read rest

theorem faithful_entryKind : entryKind.Faithful (anywhere fun _ => True) := by
  refine faithful_choice _ ?_ ?_
  · intro kind
    cases kind <;> decide
  · intro kind
    cases kind <;> rfl

theorem faithful_marker : marker.Faithful (anywhere fun _ => True) := by
  refine faithful_choice _ ?_ ?_
  · intro m
    cases m <;> decide
  · intro m
    cases m <;> rfl

end Scalars

section Compounds
variable {c : Codec α} {room : Nat → α → Prop}

/-- An option is read back if nothing but the absence of a value starts as that does. -/
theorem faithful_option (h : c.Faithful room)
    (apart : ∀ layout a, ∃ b rest, (c.encode layout a).bytes = b :: rest ∧ b ≠ 0xc0) :
    (option c).Faithful fun depth a? => ∀ a ∈ a?, room depth a := by
  refine ⟨?_, ?_⟩
  · intro layout a?
    cases a? with
    | none => rfl
    | some a => exact h.whole layout a
  · intro layout depth a? there
    cases a? with
    | none => exact fun _ => rfl
    | some a =>
      intro rest
      obtain ⟨b, tail, bytes, other⟩ := apart layout a
      have read := (h.back layout (there a rfl)).map some rest
      change (option c).decode depth ((c.encode layout a).bytes ++ rest) = _
      rw [bytes, List.cons_append] at read ⊢
      simp only [option]
      split
      · rename_i same
        exact absurd (List.cons.inj same).1 other
      · exact read

theorem faithful_list (h : c.Faithful room) :
    (list c).Faithful fun depth xs =>
      ∃ inner, depth = inner + 1 ∧ xs.length < 2 ^ 32 ∧ ∀ x ∈ xs, room inner x := by
  have whole : ∀ layout xs, ((list c).encode layout xs).fault? = none := by
    intro layout xs
    refine concat_finishes ?_
    intro part mem
    obtain ⟨x, -, rfl⟩ := List.mem_map.mp mem
    exact h.whole layout x
  refine ⟨whole, ?_⟩
  rintro layout depth xs ⟨inner, rfl, short, each⟩
  exact gives_list (whole layout xs) short fun x mem => h.back layout (each x mem)

theorem gives_both {first : Decode α} {second : Decode β} {xs ys : Bytes} {a : α} {b : β}
    (h : Gives first xs a) (h' : Gives second ys b) :
    Gives (do return (← first, ← second)) (xs ++ ys) (a, b) :=
  h.bind (h'.map (Prod.mk a))

theorem faithful_pair {d : Codec β} {room' : Nat → β → Prop} (h : c.Faithful room)
    (h' : d.Faithful room') :
    (pair c d).Faithful fun depth p =>
      ∃ inner, depth = inner + 1 ∧ room inner p.1 ∧ room' inner p.2 := by
  have written (layout : Layout) (p : α × β) : (pair c d).encode layout p =
      .ok (arrayHead 2 ++ ((c.encode layout p.1).bytes ++ (d.encode layout p.2).bytes)) := by
    change (Encoded.ok (arrayHead 2)).andThen _ = _
    rw [andThen_whole rfl, andThen_whole (h.whole layout p.1), h'.whole layout p.2]
    rfl
  refine ⟨fun layout p => by rw [written]; rfl, ?_⟩
  rintro layout depth p ⟨inner, rfl, first, second⟩
  rw [written]
  exact (gives_arrayHead (by decide)).bind (gives_both (h.back layout first) (h'.back layout second))

theorem encode_textMap (whole : ∀ layout a, (c.encode layout a).fault? = none) (layout : Layout)
    (m : OrderedMap String α) : (textMap c).encode layout m =
      .ok (mapHead m.entries.length ++
        m.entries.flatMap fun e => encodeText e.1 ++ (c.encode layout e.2).bytes) := by
  have part (e : String × α) : (Encoded.ok (encodeText e.1)).andThen (c.encode layout e.2) =
      .ok (encodeText e.1 ++ (c.encode layout e.2).bytes) := by
    rw [andThen_whole rfl, whole layout e.2]
    rfl
  have finished : (Encoded.concat (m.entries.map fun e =>
      .ok (encodeText e.1 ++ (c.encode layout e.2).bytes))).fault? = none := by
    refine concat_finishes ?_
    intro encoded mem
    obtain ⟨e, -, rfl⟩ := List.mem_map.mp mem
    rfl
  change (Encoded.ok (mapHead m.entries.length)).andThen (.concat (m.entries.map fun e =>
    (Encoded.ok (encodeText e.1)).andThen (c.encode layout e.2))) = _
  simp only [part]
  rw [andThen_whole rfl, finished, (concat_whole finished).2, List.flatMap_map]
  rfl

theorem faithful_textMap (h : c.Faithful room) :
    (textMap c).Faithful fun depth m => ∃ inner, depth = inner + 1 ∧
      m.entries.length < 2 ^ 32 ∧ ∀ e ∈ m.entries, ShortText e.1 ∧ room inner e.2 := by
  refine ⟨fun layout m => by rw [encode_textMap h.whole]; rfl, ?_⟩
  rintro layout depth m ⟨inner, rfl, short, each⟩
  rw [encode_textMap h.whole]
  have entries := gives_times fun e mem =>
    gives_both (gives_text (each e mem).1 inner) (h.back layout (each e mem).2)
  have read := entries.map OrderedMap.ofList
  rw [OrderedMap.ofList_entries] at read
  exact (gives_mapHead short).bind read

end Compounds

section Structures

theorem bytes_uint32 (layout : Layout) (a : UInt32) :
    (uint32.encode layout a).bytes = natHead a.toNat := bytes_unsigned _ _ layout a

/-- No number starts as an absent value does. -/
theorem uint32_apart (layout : Layout) (a : UInt32) :
    ∃ b rest, (uint32.encode layout a).bytes = b :: rest ∧ b ≠ 0xc0 := by
  rw [bytes_uint32, natHead]
  split
  · rename_i small
    refine ⟨_, [], rfl, ?_⟩
    intro same
    have value := congrArg UInt8.toNat same
    rw [UInt8.toNat_ofNat', Nat.mod_eq_of_lt (by omega)] at value
    simp at value
    omega
  · split
    · exact ⟨0xcc, _, rfl, by decide⟩
    · split
      · exact ⟨0xcd, _, rfl, by decide⟩
      · split
        · exact ⟨0xce, _, rfl, by decide⟩
        · exact ⟨0xcf, _, rfl, by decide⟩

theorem gives_uint32 (a : UInt32) (depth : Nat) : Gives (uint32.decode depth) (natHead a.toNat) a := by
  have read : Gives (uint32.decode depth) (uint32.encode .compact a).bytes a :=
    faithful_uint32.back .compact trivial
  rwa [bytes_uint32] at read

theorem gives_bodyField {field : BodyField} (known : field ≠ .unknown) :
    Gives BodyField.read (encodeText field.name) field := by
  have short : ShortText field.name := by
    cases field <;> decide
  have named : BodyField.ofName (textBytes field.name) = field := by
    cases field with
    | unknown => exact absurd rfl known
    | _ => rfl
  have found := (gives_takeBytes (textBytes field.name)).map BodyField.ofName
  rw [named] at found
  exact (gives_textHead short).bind found

/-- A field that is not there yet is read into a body. -/
theorem gives_readBodyField_text {b : PartialBody} (missing : b.text? = none) {s : String}
    (short : ShortText s) (depth : Nat) :
    Gives (readBodyField depth b) (encodeText BodyField.text.name ++ encodeText s)
      { b with text? := some s } := by
  refine (gives_bodyField (by decide)).bind ?_
  dsimp only
  rw [missing]
  exact (gives_text short depth).map fun s => { b with text? := some s }

theorem gives_readBodyField_revision {b : PartialBody} (missing : b.revision? = none) (n : UInt32)
    (depth : Nat) :
    Gives (readBodyField depth b) (encodeText BodyField.revision.name ++ natHead n.toNat)
      { b with revision? := some n } := by
  refine (gives_bodyField (by decide)).bind ?_
  dsimp only
  rw [missing]
  exact (gives_uint32 n depth).map fun n => { b with revision? := some n }

theorem faithful_body : body.Faithful fun depth b => ∃ inner, depth = inner + 1 ∧ ShortText b.text := by
  refine ⟨fun layout b => by cases layout <;> rfl, ?_⟩
  rintro layout depth b ⟨inner, rfl, short⟩
  cases layout with
  | compact =>
    change Gives _ (arrayHead 2 ++ encodeText b.text ++ natHead b.revision.toNat) b
    rw [List.append_assoc]
    refine (gives_arrayHead (by decide)).bind ?_
    exact (gives_text short inner).bind ((gives_uint32 b.revision inner).map (Body.mk b.text))
  | named =>
    change Gives _ (mapHead 2 ++ encodeText BodyField.text.name ++ encodeText b.text ++
      encodeText BodyField.revision.name ++ natHead b.revision.toNat) b
    have second : Gives (readBodyFields inner 1 { text? := some b.text })
        (encodeText BodyField.revision.name ++ natHead b.revision.toNat)
        { text? := some b.text, revision? := some b.revision } :=
      (gives_readBodyField_revision rfl b.revision inner).map id
    have fields : Gives (readBodyFields inner 2 {}) _ _ :=
      (gives_readBodyField_text rfl short inner).bind second
    rw [List.append_assoc, List.append_assoc, List.append_assoc,
      ← List.append_assoc (encodeText BodyField.text.name),
      ← List.append_nil (_ ++ (encodeText BodyField.revision.name ++ _))]
    refine (gives_mapHead (by decide)).bind ?_
    exact fields.bind (gives_pure b)

end Structures

end MessagePack.Codec

namespace Nested

def items : Nested → List Nested
  | empty => []
  | cons first rest => first :: rest.items

/-- The number of arrays that lie one inside the other. -/
def depth : Nested → Nat
  | empty => 1
  | cons first rest => max (first.depth + 1) rest.depth

/-- The length of every array fits in 32 bits. -/
def Fits : Nested → Prop
  | empty => True
  | cons first rest => rest.length + 1 < 2 ^ 32 ∧ first.Fits ∧ rest.Fits

theorem length_items (v : Nested) : v.items.length = v.length := by
  induction v with
  | empty => rfl
  | cons first rest _ ih => rw [items, List.length_cons, ih, length]

theorem ofList_items (v : Nested) : ofList v.items = v := by
  induction v with
  | empty => rfl
  | cons first rest _ ih => rw [items, ofList, ih]

theorem items_ofList (vs : List Nested) : (ofList vs).items = vs := by
  induction vs with
  | nil => rfl
  | cons v vs ih => rw [ofList, items, ih]

theorem fits_iff (v : Nested) : v.Fits ↔ v.items.length < 2 ^ 32 ∧ ∀ x ∈ v.items, x.Fits := by
  induction v with
  | empty => simp [Fits, items]
  | cons first rest _ ih =>
    rw [length_items] at ih ⊢
    simp only [Fits, ih, items, length, List.forall_mem_cons]
    constructor
    · rintro ⟨short, head, -, each⟩
      exact ⟨short, head, each⟩
    · rintro ⟨short, head, each⟩
      exact ⟨short, head, by omega, each⟩

theorem depth_pos (v : Nested) : 0 < v.depth := by
  induction v with
  | empty => exact Nat.zero_lt_one
  | cons first rest _ ih => exact Nat.lt_of_lt_of_le ih (Nat.le_max_right _ _)

theorem depth_le_iff (v : Nested) (d : Nat) : v.depth ≤ d + 1 ↔ ∀ x ∈ v.items, x.depth ≤ d := by
  induction v with
  | empty => simp [depth, items]
  | cons first rest _ ih =>
    rw [depth, items, Nat.max_le, Nat.add_le_add_iff_right, ih, List.forall_mem_cons]

theorem depth_tower (n : Nat) : (tower n).depth = n + 1 := by
  induction n with
  | zero => rfl
  | succ n ih => simp [tower, depth, ih]

theorem fits_tower (n : Nat) : (tower n).Fits := by
  induction n with
  | zero => trivial
  | succ n ih => exact ⟨by decide, ih, trivial⟩

theorem writeItems_eq (v : Nested) (tail : Bytes) :
    writeItems v tail = v.items.flatMap encode ++ tail := by
  induction v generalizing tail with
  | empty => rfl
  | cons first rest ihFirst ihRest =>
    rw [writeItems, ihRest, ihFirst, items, List.flatMap_cons, encode, ihFirst, List.append_nil]
    simp only [List.append_assoc]

theorem encode_eq (v : Nested) :
    v.encode = arrayHead v.items.length ++ v.items.flatMap encode := by
  rw [encode, writeItems_eq, List.append_nil, length_items]

theorem gives_nested (depth : Nat) {v : Nested} (fits : v.Fits) (shallow : v.depth ≤ depth) :
    Gives (decode depth) v.encode v := by
  -- Each array takes one of those that may be entered, and leaves the others to its items.
  induction depth generalizing v with
  | zero => exact absurd (depth_pos v) (by omega)
  | succ depth ih =>
    obtain ⟨short, each⟩ := v.fits_iff.mp fits
    have within := (v.depth_le_iff depth).mp shallow
    have read := (gives_times fun x mem => ih (each x mem) (within x mem)).map ofList
    rw [ofList_items] at read
    rw [encode_eq, decode]
    exact (gives_arrayHead short).bind read

theorem faithful_nested :
    Codec.nested.Faithful fun depth v => v.Fits ∧ v.depth ≤ depth :=
  ⟨fun _ _ => rfl, fun _ depth _ ⟨fits, shallow⟩ => gives_nested depth fits shallow⟩

end Nested

theorem Read.value_of_gives {α : Type} {c : Codec α} {bytes : Bytes} {a : α}
    (h : Gives (c.decode maxDepth) bytes a) {r : Reader} {rest : Bytes}
    (unread : r.unread = bytes ++ rest) :
    value c r = .ok a { r with unread := rest, position := r.position + bytes.length } := by
  have front : c.decodeFront (bytes ++ rest) = .ok (a, rest) := h rest
  have consumed : (bytes ++ rest).length - rest.length = bytes.length := by
    rw [List.length_append, Nat.add_sub_cancel]
  rw [value, unread, front]
  simp only [consumed, Reader.skip, unread, List.drop_left]

namespace ValueType

open Codec

/-- The lengths of a value and of its parts fit in 32 bits. -/
def Fits : (t : ValueType) → t.Carrier → Prop
  | string, s => ShortText s
  | vecU32, xs => xs.length < 2 ^ 32
  | vecString, xs => xs.length < 2 ^ 32 ∧ ∀ s ∈ xs, ShortText s
  | pair, p => ShortText p.2
  | map, m => m.entries.length < 2 ^ 32 ∧ ∀ e ∈ m.entries, ShortText e.1
  | body, b => ShortText b.text
  | nested, v => v.Fits
  | _, _ => True

/-- The number of arrays and maps of a value that lie one inside the other. -/
def nesting : (t : ValueType) → t.Carrier → Nat
  | vecU32, _ | vecString, _ | pair, _ | map, _ | body, _ => 1
  | nested, v => v.depth
  | _, _ => 0

theorem faithful_codec {t : ValueType} (writable : t ≠ .fail) :
    t.codec.Faithful fun depth v => t.Fits v ∧ t.nesting v ≤ depth := by
  have entered {depth : Nat} (one : 1 ≤ depth) : ∃ inner, depth = inner + 1 :=
    ⟨depth - 1, by omega⟩
  cases t with
  | u8 => exact faithful_uint8.mono fun _ => trivial
  | u16 => exact faithful_uint16.mono fun _ => trivial
  | u32 => exact faithful_uint32.mono fun _ => trivial
  | u64 => exact faithful_uint64.mono fun _ => trivial
  | i8 => exact faithful_int8.mono fun _ => trivial
  | i16 => exact faithful_int16.mono fun _ => trivial
  | i32 => exact faithful_int32.mono fun _ => trivial
  | i64 => exact faithful_int64.mono fun _ => trivial
  | bool => exact faithful_bool.mono fun _ => trivial
  | f64 => exact faithful_binary64.mono fun _ => trivial
  | string => exact faithful_text.mono And.left
  | unit => exact faithful_unit.mono fun _ => trivial
  | optU32 => exact (faithful_option faithful_uint32 uint32_apart).mono fun _ _ _ => trivial
  | vecU32 =>
    refine (faithful_list faithful_uint32).mono ?_
    rintro depth xs ⟨short, one⟩
    obtain ⟨inner, rfl⟩ := entered one
    exact ⟨inner, rfl, short, fun _ _ => trivial⟩
  | vecString =>
    refine (faithful_list faithful_text).mono ?_
    rintro depth xs ⟨⟨short, each⟩, one⟩
    obtain ⟨inner, rfl⟩ := entered one
    exact ⟨inner, rfl, short, each⟩
  | pair =>
    refine (faithful_pair faithful_uint32 faithful_text).mono ?_
    rintro depth p ⟨short, one⟩
    obtain ⟨inner, rfl⟩ := entered one
    exact ⟨inner, rfl, trivial, short⟩
  | map =>
    refine (faithful_textMap faithful_uint64).mono ?_
    rintro depth m ⟨⟨short, each⟩, one⟩
    obtain ⟨inner, rfl⟩ := entered one
    exact ⟨inner, rfl, short, fun e mem => ⟨each e mem, trivial⟩⟩
  | body =>
    refine faithful_body.mono ?_
    rintro depth b ⟨short, one⟩
    obtain ⟨inner, rfl⟩ := entered one
    exact ⟨inner, rfl, short⟩
  | nested => exact Nested.faithful_nested
  | fail => exact absurd rfl writable
  | entryKind => exact faithful_entryKind.mono fun _ => trivial
  | marker => exact faithful_marker.mono fun _ => trivial
  | nodeId => exact faithful_nodeId.mono fun _ => trivial

/-- Whatever the writer holds already and whatever stands behind the value: writing it only appends, and
reading it back takes just what has been appended. Readers of both layouts are the same one. -/
theorem value_round_trip {t : ValueType} (writable : t ≠ .fail) {v : t.Carrier} (fits : t.Fits v)
    (shallow : t.nesting v ≤ maxDepth) (layout : Layout) :
    (∀ w : Writer, Writer.value t.codec layout v w =
        .ok () (w.append (t.codec.encode layout v).bytes)) ∧
      ∀ (r : Reader) (rest : Bytes), r.unread = (t.codec.encode layout v).bytes ++ rest →
        Read.value t.codec r = .ok v
          { r with
            unread := rest
            position := r.position + (t.codec.encode layout v).bytes.length } := by
  have faithful := faithful_codec writable
  constructor
  · intro w
    rw [Writer.value, Writer.encoded, faithful.whole layout v]
  · intro r rest unread
    exact Read.value_of_gives (faithful.back layout ⟨fits, shallow⟩) unread

/-- As many arrays as can be read, one inside the other. -/
theorem tower_round_trip :
    ValueType.nested ≠ .fail ∧ ValueType.nested.Fits (Nested.tower 1022) ∧
      ValueType.nested.nesting (Nested.tower 1022) = maxDepth ∧
      ∀ (r : Reader) (rest : Bytes), r.unread = (Nested.tower 1022).encode ++ rest →
        Read.value Codec.nested r = .ok (Nested.tower 1022)
          { r with
            unread := rest
            position := r.position + (Nested.tower 1022).encode.length } := by
  have writable : ValueType.nested ≠ .fail := by decide
  have fits : ValueType.nested.Fits (Nested.tower 1022) := Nested.fits_tower 1022
  have levels : ValueType.nested.nesting (Nested.tower 1022) = maxDepth := Nested.depth_tower 1022
  have trip := value_round_trip writable fits (Nat.le_of_eq levels) .named
  exact ⟨writable, fits, levels, trip.2⟩

end ValueType

end GraphJournal
