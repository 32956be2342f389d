import GraphJournal.Proofs.Consumption
import GraphJournal.Proofs.WireValues

/-!
# Bodies written as maps

A document body is read from any map that has each of its two fields once, whatever the order, and
whatever other fields lie between them: their values are passed over to the byte. Nothing is read from
a map that lacks a field or has it twice. Only the nesting of the other values can stand in the way,
and for that an extension counts as much as an array.

Bodies written as arrays are NOT treated here.
-/
namespace GraphJournal.MessagePack.Codec

set_option autoImplicit false

/-- The forms of a key, with the field that it stands for: by name, by place, or no field of a body. -/
inductive Key : Bytes → BodyField → Prop
  | text {h : Bytes} (spelled : SpellsText h (textBytes "text").length) :
    Key (h ++ textBytes "text") .text
  | revision {h : Bytes} (spelled : SpellsText h (textBytes "revision").length) :
    Key (h ++ textBytes "revision") .revision
  | otherName {h name : Bytes} (spelled : SpellsText h name.length)
    (notText : name ≠ textBytes "text") (notRevision : name ≠ textBytes "revision") :
    Key (h ++ name) .unknown
  | first {h : Bytes} (spelled : Spells h (.unsigned 0)) : Key h .text
  | second {h : Bytes} (spelled : Spells h (.unsigned 1)) : Key h .revision
  | otherPlace {h : Bytes} {n : Nat} (spelled : Spells h (.unsigned n)) (other : 2 ≤ n) :
    Key h .unknown

/-- An entry of a map whose key could be that of a field. -/
structure MapEntry where
  field : BodyField
  key : Bytes
  stands : Key key field
  value : Wire 1

/-- A map of such entries. -/
structure FieldMap where
  head : Bytes
  entries : List MapEntry
  spelled : Spells head (.map entries.length)

def MapEntry.bytes (e : MapEntry) : Bytes := e.key ++ e.value.bytes

/-- How many of the entries are of the field. -/
def occurrences (field : BodyField) (entries : List MapEntry) : Nat :=
  entries.countP fun e => e.field = field

/-- The value is this text, written as text or as a byte string. -/
def IsText (s : String) : Wire 1 → Prop
  | .text _ content _ _ => content = textBytes s
  | _ => False

/-- The value is this number, in one of the unsigned or signed forms. -/
def IsNumber (i : Int) : Wire 1 → Prop
  | .plain _ (.unsigned n) _ _ _ => i = n
  | .plain _ (.signed j) _ _ _ => i = j
  | _ => False

namespace FieldMap

def bytes (m : FieldMap) : Bytes := m.head ++ m.entries.flatMap MapEntry.bytes

/-- The number of levels of the whole map, where an extension counts as one. -/
def levels (m : FieldMap) : Nat := m.entries.foldr (fun e n => max e.value.levels n) 0 + 1

/-- The number of arrays and maps that lie one inside the other. -/
def containers (m : FieldMap) : Nat := m.entries.foldr (fun e n => max e.value.containers n) 0 + 1

/-- The map has each field of the body once, with the body's value. -/
structure Holds (m : FieldMap) (b : Body) : Prop where
  text_once : occurrences .text m.entries = 1
  revision_once : occurrences .revision m.entries = 1
  text : ∀ e ∈ m.entries, e.field = .text → IsText b.text e.value
  revision : ∀ e ∈ m.entries, e.field = .revision → IsNumber b.revision.toNat e.value

end FieldMap

section Values

theorem reads_of_append_nil {α : Type} {act : Decode α} {xs : Bytes} {P : α → Prop}
    (h : Reads act (xs ++ []) P) : Reads act xs P := by
  rwa [List.append_nil] at h

theorem reads_orMalformed {α : Type} (a? : Option α) : Reads (orMalformed a?) [] (a? = some ·) := by
  cases a? with
  | none => exact reads_malformed_of nofun
  | some a => exact (gives_pure a).reads.congr fun b => Option.some_inj.trans eq_comm

theorem textOfBytes?_eq_some_iff {bytes : Bytes} {s : String} :
    textOfBytes? bytes = some s ↔ bytes = textBytes s := by
  constructor
  · exact fun found => (textBytes_of_textOfBytes? found).symm
  · rintro rfl
    exact textOfBytes?_textBytes s

theorem unsignedOf_eq_some_iff {i : Int} {k : UInt32} :
    unsignedOf 4 UInt32.ofNat i = some k ↔ i = k.toNat := by
  have small := k.toNat_lt
  rw [unsignedOf, show Bytes.limit 4 = 2 ^ 32 from rfl]
  constructor
  · intro found
    split at found
    · cases found
      rw [UInt32.toNat_ofNat', Nat.mod_eq_of_lt (by omega)]
      omega
    · cases found
  · rintro rfl
    rw [if_pos (by omega), Int.toNat_natCast, UInt32.ofNat_toNat]

theorem reads_text (w : Wire 1) (depth : Nat) :
    Reads (text.decode depth) w.bytes fun s => IsText s w := by
  cases w with
  | plain head h spelled whole rest =>
    cases rest
    refine (gives_spells spelled).bind_reads ?_
    cases h <;> first | exact reads_malformed | cases whole
  | text head content spelled rest =>
    cases rest
    have found : Reads (takeBytes content.length >>= fun bytes => orMalformed (textOfBytes? bytes))
        (content ++ []) fun s => content = textBytes s :=
      (gives_takeBytes content).bind_reads
        ((reads_orMalformed _).congr fun s => textOfBytes?_eq_some_iff.symm)
    rcases spelled with spelled | spelled
    · exact (gives_spells spelled).bind_reads found
    · exact (gives_spells spelled).bind_reads found
  | extension head type content spelled rest =>
    exact (gives_spells spelled).bind_reads reads_malformed
  | array head spelled items rest => exact (gives_spells spelled).bind_reads reads_malformed
  | map head spelled entries rest => exact (gives_spells spelled).bind_reads reads_malformed

theorem reads_readInt (w : Wire 1) : Reads readInt w.bytes fun i => IsNumber i w := by
  cases w with
  | plain head h spelled whole rest =>
    cases rest
    refine (gives_spells spelled).bind_reads ?_
    cases h <;> first | exact (gives_pure _).reads | exact reads_malformed
  | text head content spelled rest =>
    rcases spelled with spelled | spelled <;> exact (gives_spells spelled).bind_reads reads_malformed
  | extension head type content spelled rest =>
    exact (gives_spells spelled).bind_reads reads_malformed
  | array head spelled items rest => exact (gives_spells spelled).bind_reads reads_malformed
  | map head spelled entries rest => exact (gives_spells spelled).bind_reads reads_malformed

theorem reads_number (w : Wire 1) (depth : Nat) :
    Reads (uint32.decode depth) w.bytes fun k => IsNumber k.toNat w := by
  have found : Reads (readInt >>= fun i => orMalformed (unsignedOf 4 UInt32.ofNat i)) (w.bytes ++ [])
      fun k => ∃ i, IsNumber i w ∧ i = k.toNat :=
    (reads_readInt w).bind fun i _ =>
      (reads_orMalformed _).congr fun k => unsignedOf_eq_some_iff.symm
  refine reads_of_append_nil (found.congr fun k => ?_)
  exact ⟨fun there => ⟨_, there, rfl⟩, fun ⟨_, there, same⟩ => same ▸ there⟩

theorem levels_of_isText {s : String} {w : Wire 1} (h : IsText s w) : w.levels = 0 := by
  cases w with
  | text head content spelled rest =>
    cases rest
    rfl
  | _ => cases h

theorem levels_of_isNumber {i : Int} {w : Wire 1} (h : IsNumber i w) : w.levels = 0 := by
  cases w with
  | plain head h spelled whole rest =>
    cases rest
    rfl
  | _ => cases h

end Values

section Entries

theorem ofName_of_other {name : Bytes} (notText : name ≠ textBytes "text")
    (notRevision : name ≠ textBytes "revision") : BodyField.ofName name = .unknown :=
  (if_neg notText).trans (if_neg notRevision)

theorem ofIndex_of_two_le {n : Nat} (other : 2 ≤ n) : BodyField.ofIndex n = .unknown := by
  obtain ⟨k, rfl⟩ := Nat.exists_eq_add_of_le' other
  rfl

theorem gives_name {head name : Bytes} (spelled : SpellsText head name.length) :
    Gives BodyField.read (head ++ name) (BodyField.ofName name) := by
  have found := (gives_takeBytes name).map BodyField.ofName
  rcases spelled with spelled | spelled
  · exact (gives_spells spelled).bind found
  · exact (gives_spells spelled).bind found

theorem gives_place {head : Bytes} {n : Nat} (spelled : Spells head (.unsigned n)) :
    Gives BodyField.read head (BodyField.ofIndex n) := by
  rw [← List.append_nil head]
  exact (gives_spells spelled).bind (gives_pure _)

theorem gives_key {key : Bytes} {field : BodyField} (stands : Key key field) :
    Gives BodyField.read key field := by
  cases stands with
  | text spelled => exact gives_name spelled
  | revision spelled => exact gives_name spelled
  | otherName spelled notText notRevision =>
    exact ofName_of_other notText notRevision ▸ gives_name spelled
  | first spelled => exact gives_place spelled
  | second spelled => exact gives_place spelled
  | otherPlace spelled other => exact ofIndex_of_two_le other ▸ gives_place spelled

/-- What one entry makes of the fields that have been read. -/
def MapEntry.Adds (depth : Nat) (e : MapEntry) (b b' : PartialBody) : Prop :=
  match e.field with
  | .text => b.text? = none ∧ ∃ s, IsText s e.value ∧ b' = { b with text? := some s }
  | .revision =>
    b.revision? = none ∧ ∃ k : UInt32, IsNumber k.toNat e.value ∧ b' = { b with revision? := some k }
  | .unknown => e.value.levels ≤ depth ∧ b' = b

/-- A field is read by its decoder if it is not there yet. -/
theorem reads_once {α : Type} {held : Option α} {read : Decode α} {bytes : Bytes} {P : α → Prop}
    (h : Reads read bytes P) (put : α → PartialBody) :
    Reads (if held.isSome then malformed else read >>= fun a => pure (put a)) bytes fun b' =>
      held = none ∧ ∃ a, P a ∧ b' = put a := by
  cases held with
  | some a => exact reads_malformed_of nofun
  | none =>
    refine reads_of_append_nil ((h.bind fun a _ => (gives_pure (put a)).reads).congr fun b' => ?_)
    exact and_iff_right rfl

theorem reads_entry (depth : Nat) (e : MapEntry) (b : PartialBody) :
    Reads (readBodyField depth b) e.bytes (e.Adds depth b) := by
  refine (gives_key e.stands).bind_reads ?_
  unfold MapEntry.Adds
  cases e.field with
  | text => exact reads_once (reads_text e.value depth) fun s => { b with text? := some s }
  | revision => exact reads_once (reads_number e.value depth) fun k => { b with revision? := some k }
  | unknown =>
    refine reads_of_append_nil (((reads_skip e.value depth).bind fun _ _ =>
      (gives_pure b).reads).congr fun b' => ?_)
    exact ⟨fun there => ⟨(), there⟩, fun ⟨_, there⟩ => there⟩

/-- What entries make of the fields that have been read, one after the other. -/
def AddAll (depth : Nat) : List MapEntry → PartialBody → PartialBody → Prop
  | [], b, b' => b' = b
  | e :: entries, b, b' => ∃ next, e.Adds depth b next ∧ AddAll depth entries next b'

theorem reads_entries (depth : Nat) (entries : List MapEntry) (b : PartialBody) :
    Reads (readBodyFields depth entries.length b) (entries.flatMap MapEntry.bytes)
      (AddAll depth entries b) := by
  induction entries generalizing b with
  | nil => exact (gives_pure b).reads
  | cons e entries ih => exact (reads_entry depth e b).bind fun next _ => ih next

end Entries

section Once
variable {α : Type} {field : BodyField} {IsValue : α → Wire 1 → Prop} {a : α} {e : MapEntry}
  {entries : List MapEntry}

/-- With what is held already, the field is there once, and it is `a`. -/
structure Once (field : BodyField) (IsValue : α → Wire 1 → Prop) (a : α) (held : Option α)
    (entries : List MapEntry) : Prop where
  once : occurrences field entries + held.toList.length = 1
  held : ∀ x ∈ held, x = a
  each : ∀ e ∈ entries, e.field = field → IsValue a e.value

theorem once_nil {held : Option α} : Once field IsValue a held [] ↔ held = some a := by
  constructor
  · intro h
    cases held with
    | none => cases h.once
    | some x => exact congrArg some (h.held x rfl)
  · rintro rfl
    exact ⟨rfl, fun x same => (Option.some.inj same).symm, fun _ none => nomatch none⟩

theorem once_cons_of_ne {held : Option α} (other : e.field ≠ field) :
    Once field IsValue a held (e :: entries) ↔ Once field IsValue a held entries := by
  have same : occurrences field (e :: entries) = occurrences field entries :=
    List.countP_cons_of_neg (by simpa using other)
  constructor
  · intro h
    exact ⟨same ▸ h.once, h.held, fun x mem => h.each x (List.mem_cons_of_mem e mem)⟩
  · intro h
    refine ⟨same.symm ▸ h.once, h.held, List.forall_mem_cons.mpr ⟨?_, h.each⟩⟩
    exact fun here => absurd here other

theorem once_cons_of_eq {held : Option α} (here : e.field = field) :
    Once field IsValue a held (e :: entries) ↔
      held = none ∧ IsValue a e.value ∧ Once field IsValue a (some a) entries := by
  have more : occurrences field (e :: entries) = occurrences field entries + 1 :=
    List.countP_cons_of_pos (by simpa using here)
  constructor
  · intro h
    have once := h.once
    rw [more] at once
    cases held with
    | some x =>
      rw [Option.toList_some, List.length_singleton] at once
      omega
    | none =>
      refine ⟨rfl, h.each e List.mem_cons_self here, ?_, ?_, ?_⟩
      · exact once
      · exact fun x same => (Option.some.inj same).symm
      · exact fun x mem => h.each x (List.mem_cons_of_mem e mem)
  · rintro ⟨rfl, value, h⟩
    refine ⟨?_, nofun, List.forall_mem_cons.mpr ⟨fun _ => value, h.each⟩⟩
    rw [more]
    exact h.once

end Once

section AddAll

theorem MapEntry.adds_text {e : MapEntry} (here : e.field = .text) {depth : Nat} {b b' : PartialBody} :
    e.Adds depth b b' ↔
      b.text? = none ∧ ∃ s, IsText s e.value ∧ b' = { b with text? := some s } := by
  rw [Adds, here]

theorem MapEntry.adds_revision {e : MapEntry} (here : e.field = .revision) {depth : Nat}
    {b b' : PartialBody} :
    e.Adds depth b b' ↔ b.revision? = none ∧
      ∃ k : UInt32, IsNumber k.toNat e.value ∧ b' = { b with revision? := some k } := by
  rw [Adds, here]

theorem MapEntry.adds_unknown {e : MapEntry} (here : e.field = .unknown) {depth : Nat}
    {b b' : PartialBody} : e.Adds depth b b' ↔ e.value.levels ≤ depth ∧ b' = b := by
  rw [Adds, here]

/-- The entries whose keys are not those of a field can be passed over. -/
def Passable (depth : Nat) (entries : List MapEntry) : Prop :=
  ∀ e ∈ entries, e.field = .unknown → e.value.levels ≤ depth

theorem passable_cons_of_ne {e : MapEntry} (known : e.field ≠ .unknown) {depth : Nat}
    {entries : List MapEntry} : Passable depth (e :: entries) ↔ Passable depth entries := by
  rw [Passable, List.forall_mem_cons]
  exact and_iff_right fun unknown => absurd unknown known

theorem passable_cons_of_eq {e : MapEntry} (unknown : e.field = .unknown) {depth : Nat}
    {entries : List MapEntry} :
    Passable depth (e :: entries) ↔ e.value.levels ≤ depth ∧ Passable depth entries := by
  rw [Passable, List.forall_mem_cons]
  exact and_congr_left fun _ => ⟨fun fits => fits unknown, fun fits _ => fits⟩

/-- The entries make a whole body of what is held of one. -/
theorem addAll_iff (depth : Nat) (entries : List MapEntry) (held : PartialBody) (b : Body) :
    AddAll depth entries held ⟨some b.text, some b.revision⟩ ↔
      Once .text IsText b.text held.text? entries ∧
        Once .revision (fun k => IsNumber (UInt32.toNat k)) b.revision held.revision? entries ∧
        Passable depth entries := by
  -- What is held counts as one more entry of its field, so that an entry may pass from one side to
  -- the other.
  induction entries generalizing held with
  | nil =>
    rw [AddAll, once_nil, once_nil]
    constructor
    · rintro rfl
      exact ⟨rfl, rfl, fun e none => nomatch none⟩
    · rintro ⟨text, revision, -⟩
      rw [← text, ← revision]
  | cons e entries ih =>
    cases field : e.field with
    | text =>
      have known : e.field ≠ .unknown := by simp [field]
      have other : e.field ≠ .revision := by simp [field]
      rw [once_cons_of_eq field, once_cons_of_ne other, passable_cons_of_ne known]
      constructor
      · rintro ⟨next, adds, rest⟩
        obtain ⟨free, s, isText, rfl⟩ := (MapEntry.adds_text field).mp adds
        obtain ⟨text, revision, passable⟩ := (ih _).mp rest
        obtain rfl := text.held s rfl
        exact ⟨⟨free, isText, text⟩, revision, passable⟩
      · rintro ⟨⟨free, isText, text⟩, revision, passable⟩
        refine ⟨_, (MapEntry.adds_text field).mpr ⟨free, b.text, isText, rfl⟩, ?_⟩
        exact (ih _).mpr ⟨text, revision, passable⟩
    | revision =>
      have known : e.field ≠ .unknown := by simp [field]
      have other : e.field ≠ .text := by simp [field]
      rw [once_cons_of_ne other, once_cons_of_eq field, passable_cons_of_ne known]
      constructor
      · rintro ⟨next, adds, rest⟩
        obtain ⟨free, k, isNumber, rfl⟩ := (MapEntry.adds_revision field).mp adds
        obtain ⟨text, revision, passable⟩ := (ih _).mp rest
        obtain rfl := revision.held k rfl
        exact ⟨text, ⟨free, isNumber, revision⟩, passable⟩
      · rintro ⟨text, ⟨free, isNumber, revision⟩, passable⟩
        refine ⟨_, (MapEntry.adds_revision field).mpr ⟨free, b.revision, isNumber, rfl⟩, ?_⟩
        exact (ih _).mpr ⟨text, revision, passable⟩
    | unknown =>
      have notText : e.field ≠ .text := by simp [field]
      have notRevision : e.field ≠ .revision := by simp [field]
      rw [once_cons_of_ne notText, once_cons_of_ne notRevision, passable_cons_of_eq field]
      constructor
      · rintro ⟨next, adds, rest⟩
        obtain ⟨fits, rfl⟩ := (MapEntry.adds_unknown field).mp adds
        obtain ⟨text, revision, passable⟩ := (ih _).mp rest
        exact ⟨text, revision, fits, passable⟩
      · rintro ⟨text, revision, fits, passable⟩
        refine ⟨held, (MapEntry.adds_unknown field).mpr ⟨fits, rfl⟩, ?_⟩
        exact (ih held).mpr ⟨text, revision, passable⟩

end AddAll

namespace FieldMap
variable {m : FieldMap} {b : Body}

theorem levels_le_succ_iff (m : FieldMap) (depth : Nat) :
    m.levels ≤ depth + 1 ↔ ∀ e ∈ m.entries, e.value.levels ≤ depth := by
  rw [levels, Nat.add_le_add_iff_right]
  induction m.entries with
  | nil => simp
  | cons e entries ih => rw [List.foldr_cons, Nat.max_le, ih, List.forall_mem_cons]

theorem once_iff_holds (m : FieldMap) (b : Body) :
    (Once .text IsText b.text none m.entries ∧
      Once .revision (fun k => IsNumber (UInt32.toNat k)) b.revision none m.entries) ↔ m.Holds b :=
  ⟨fun ⟨text, revision⟩ => ⟨text.once, revision.once, text.each, revision.each⟩,
    fun h => ⟨⟨h.text_once, nofun, h.text⟩, ⟨h.revision_once, nofun, h.revision⟩⟩⟩

/-- The values of the two fields do not nest at all. -/
theorem passable_iff (holds : m.Holds b) (depth : Nat) :
    Passable depth m.entries ↔ m.levels ≤ depth + 1 := by
  rw [levels_le_succ_iff]
  constructor
  · intro passable e mem
    cases field : e.field with
    | text => exact levels_of_isText (holds.text e mem field) ▸ Nat.zero_le depth
    | revision => exact levels_of_isNumber (holds.revision e mem field) ▸ Nat.zero_le depth
    | unknown => exact passable e mem field
  · exact fun shallow e mem _ => shallow e mem

theorem reads_whole (p : PartialBody) :
    Reads (match p with
      | ⟨some text, some revision⟩ => pure ⟨text, revision⟩
      | _ => malformed) [] fun b : Body => p = ⟨some b.text, some b.revision⟩ := by
  obtain ⟨text?, revision?⟩ := p
  cases text? with
  | none => exact reads_malformed_of nofun
  | some text =>
    cases revision? with
    | none => exact reads_malformed_of nofun
    | some revision =>
      refine (gives_pure _).reads.congr fun b => ?_
      constructor
      · intro same
        cases same
        rfl
      · rintro rfl
        rfl

/-- A body is read from a map if and only if the map holds it and does not nest too deep. -/
theorem reads_body (m : FieldMap) (depth : Nat) :
    Reads (body.decode (depth + 1)) m.bytes fun b => m.Holds b ∧ m.levels ≤ depth + 1 := by
  refine (gives_spells m.spelled).bind_reads ?_
  refine reads_of_append_nil (((reads_entries depth m.entries {}).bind fun p _ =>
    reads_whole p).congr fun b => ?_)
  have made := addAll_iff depth m.entries {} b
  rw [← and_assoc, once_iff_holds] at made
  constructor
  · rintro ⟨holds, shallow⟩
    exact ⟨_, made.mpr ⟨holds, (passable_iff holds depth).mpr shallow⟩, rfl⟩
  · rintro ⟨p, added, rfl⟩
    obtain ⟨holds, passable⟩ := made.mp added
    exact ⟨holds, (passable_iff holds depth).mp passable⟩

end FieldMap

end GraphJournal.MessagePack.Codec

namespace GraphJournal

open MessagePack Codec

namespace Read
variable {α : Type} {c : Codec α} {bytes rest : Bytes} {P : α → Prop} {r : Reader}

theorem value_eq_ok_iff (h : Reads (c.decode maxDepth) bytes P) (unread : r.unread = bytes ++ rest)
    (a : α) (r' : Reader) : value c r = .ok a r' ↔ P a ∧ r' = r.skip bytes.length := by
  have front := h rest
  rw [← unread] at front
  have length : r.unread.length - rest.length = bytes.length := by
    rw [unread, List.length_append, Nat.add_sub_cancel]
  constructor
  · intro read
    cases run : c.decodeFront r.unread with
    | error fault =>
      rw [value, run] at read
      cases read
    | ok found =>
      obtain ⟨there, same⟩ := (front found.1 found.2).mp run
      rw [value, run] at read
      cases read
      exact ⟨there, by rw [same, length]⟩
  · rintro ⟨there, rfl⟩
    have run : c.decodeFront r.unread = .ok (a, rest) := (front a rest).mpr ⟨there, rfl⟩
    rw [value, run, ← length]

theorem value_refused (h : Reads (c.decode maxDepth) bytes P) (unread : r.unread = bytes ++ rest)
    (none : ∀ a, ¬ P a) : ∃ fault, value c r = .error (.serialization fault) r := by
  cases run : c.decodeFront r.unread with
  | error fault => exact ⟨fault, by rw [value, run]⟩
  | ok found =>
    have read : value c r = .ok found.1 (r.skip (r.unread.length - found.2.length)) := by
      rw [value, run]
    exact absurd ((value_eq_ok_iff h unread _ _).mp read).1 (none found.1)

end Read

namespace MessagePack.Codec.FieldMap
variable {r : Reader} {rest : Bytes}

/-- Fields are found by their keys, wherever they are, and whatever else there is. -/
theorem named_fields (m : FieldMap) (layout : Layout) (unread : r.unread = m.bytes ++ rest) :
    (∀ b, m.Holds b → m.levels ≤ maxDepth →
      Read.formatted layout body r = .ok b (r.skip m.bytes.length)) ∧
    (occurrences .text m.entries ≠ 1 ∨ occurrences .revision m.entries ≠ 1 →
      ∃ fault, Read.formatted layout body r = .error (.serialization fault) r) ∧
    ∀ b r', Read.formatted layout body r = .ok b r' →
      m.Holds b ∧ m.levels ≤ maxDepth ∧ r' = r.skip m.bytes.length := by
  have reads := m.reads_body 1022
  rw [Read.formatted_eq]
  refine ⟨?_, ?_, ?_⟩
  · intro b holds shallow
    exact (Read.value_eq_ok_iff reads unread b _).mpr ⟨⟨holds, shallow⟩, rfl⟩
  · intro wrong
    refine Read.value_refused reads unread ?_
    rintro b ⟨holds, -⟩
    exact wrong.elim (· holds.text_once) (· holds.revision_once)
  · intro b r' read
    obtain ⟨⟨holds, shallow⟩, skipped⟩ := (Read.value_eq_ok_iff reads unread b r').mp read
    exact ⟨holds, shallow, skipped⟩

/-- The name of the revision as it is written. -/
theorem key_revision : Key [0xa8, 0x72, 0x65, 0x76, 0x69, 0x73, 0x69, 0x6f, 0x6e] .revision :=
  .revision (h := [0xa8]) (.inl (.short (k := 0xa8) (.text (n := 8) (by decide))))

/-- A field that no body has, the number in more bytes than it needs, and the text by its place. -/
def scattered : FieldMap where
  head := [0x83]
  entries :=
    [{ field := .unknown
       key := [5]
       stands := .otherPlace (.short (k := 5) (.unsigned (by decide))) (by decide)
       value :=
        .array [0x91] spells_unary (.extension [0xd4] 9 [0xff] (.single .extension1) .done) .done },
     { field := .revision
       key := _
       stands := key_revision
       value := .plain [0xcd, 0, 7] (.unsigned 7) (.wide (n := 7) .unsigned16 (by decide)) trivial
        .done },
     { field := .text
       key := [0]
       stands := .first (.short (k := 0) (.unsigned (by decide)))
       value := .text [0xc4, 1] [0x61] (.inr (.wide (n := 1) .binary8 (by decide))) .done }]
  spelled := .short (k := 0x83) (.map (n := 3) (by decide))

/-- The text by its name and by its place as well. -/
def repeated : FieldMap where
  head := [0x83]
  entries := [scattered.entries[2], scattered.entries[1],
    { field := .text
      key := [0xa4, 0x74, 0x65, 0x78, 0x74]
      stands := .text (h := [0xa4]) (.inl (.short (k := 0xa4) (.text (n := 4) (by decide))))
      value := .text [0xa1] [0x61] (.inl (.short (k := 0xa1) (.text (n := 1) (by decide)))) .done }]
  spelled := .short (k := 0x83) (.map (n := 3) (by decide))

theorem scattered_holds : scattered.Holds ⟨"a", 7⟩ := by
  have text : IsText "a" scattered.entries[2].value := rfl
  have revision : IsNumber 7 scattered.entries[1].value := rfl
  exact ⟨rfl, rfl, by simpa [scattered] using text, by simpa [scattered] using revision⟩

theorem scattered_fields_read :
    (Reader.ofBytes (scattered.bytes ++ [0xc1]) 0).unread = scattered.bytes ++ [0xc1] ∧
      scattered.Holds ⟨"a", 7⟩ ∧ scattered.levels ≤ maxDepth ∧
      Read.formatted .compact body (.ofBytes (scattered.bytes ++ [0xc1]) 0) =
        .ok ⟨"a", 7⟩ ((Reader.ofBytes (scattered.bytes ++ [0xc1]) 0).skip scattered.bytes.length) ∧
      (Reader.ofBytes repeated.bytes 0).unread = repeated.bytes ++ [] ∧
      occurrences .text repeated.entries ≠ 1 ∧
      ∃ fault, Read.formatted .named body (.ofBytes repeated.bytes 0) =
        .error (.serialization fault) (.ofBytes repeated.bytes 0) := by
  have shallow : scattered.levels ≤ maxDepth := by decide
  have twice : occurrences .text repeated.entries ≠ 1 := by decide
  have whole : (Reader.ofBytes repeated.bytes 0).unread = repeated.bytes ++ [] := by
    rw [List.append_nil]
    rfl
  have read := (scattered.named_fields .compact (r := .ofBytes (scattered.bytes ++ [0xc1]) 0)
    rfl).1 ⟨"a", 7⟩ scattered_holds shallow
  have refused := (repeated.named_fields .named whole).2.1 (.inl twice)
  exact ⟨rfl, scattered_holds, shallow, read, whole, twice, refused⟩

/-- An extension inside as many arrays and maps as can be entered. -/
def deepExtension : FieldMap where
  head := [0x83]
  entries := [repeated.entries[2],
    { field := .unknown
      key := [2]
      stands := .otherPlace (.short (k := 2) (.unsigned (by decide))) (by decide)
      value := .inArrays (.extension [0xd4] 0 [0] (.single .extension1) .done) 1022 },
    { field := .revision
      key := _
      stands := key_revision
      value := .plain [5] (.unsigned 5) (.short (k := 5) (.unsigned (by decide))) trivial .done }]
  spelled := .short (k := 0x83) (.map (n := 3) (by decide))

/-- Arrays and maps alone do not tell whether a map is read. -/
theorem deep_extension_refused :
    deepExtension.Holds ⟨"a", 5⟩ ∧ deepExtension.containers = maxDepth ∧
      ∃ fault, Read.formatted .named body (.ofBytes deepExtension.bytes 0) =
        .error (.serialization fault) (.ofBytes deepExtension.bytes 0) := by
  have holds : deepExtension.Holds ⟨"a", 5⟩ := by
    have text : IsText "a" deepExtension.entries[0].value := rfl
    have revision : IsNumber 5 deepExtension.entries[2].value := rfl
    refine ⟨rfl, rfl, ?_, ?_⟩
    · simpa [deepExtension, repeated] using text
    · simpa [deepExtension, repeated] using revision
  have levels : deepExtension.levels = 1024 := by
    simp only [levels, deepExtension, List.foldr_cons, Wire.levels_inArrays]
    rfl
  have containers : deepExtension.containers = maxDepth := by
    simp only [containers, deepExtension, List.foldr_cons, Wire.containers_inArrays]
    rfl
  have whole : (Reader.ofBytes deepExtension.bytes 0).unread = deepExtension.bytes ++ [] := by
    rw [List.append_nil]
    rfl
  refine ⟨holds, containers, Read.value_refused (deepExtension.reads_body 1022) whole ?_⟩
  rintro b ⟨-, shallow⟩
  omega

end MessagePack.Codec.FieldMap

end GraphJournal
