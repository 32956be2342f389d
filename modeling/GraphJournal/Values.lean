import GraphJournal.MessagePack.Structure

/-!
The values that the leaves of a graph hold. A graph can hold values of many types at once; a `Values`
names the types by kinds, so that a leaf says by its kind what it holds and how that is written.

`ValueType` is the kinds that this library comes with.
-/
namespace GraphJournal

open MessagePack

/-- The types that leaves can hold, named by the members of `κ`. -/
class Values (κ : Type) where
  Carrier : κ → Type
  codec : (k : κ) → Codec (Carrier k)

/-- A value for a leaf of whatever kind. -/
abbrev Item (κ : Type) [Values κ] := (k : κ) → Values.Carrier k

/-- A list for a leaf of whatever kind. -/
abbrev Items (κ : Type) [Values κ] := (k : κ) → List (Values.Carrier k)

/-- A change of the value of a leaf of whatever kind. -/
abbrev Change (κ : Type) [Values κ] := (k : κ) → Values.Carrier k → Values.Carrier k

/-- The kinds of values that this library comes with. -/
inductive ValueType
  | u8 | u16 | u32 | u64
  | i8 | i16 | i32 | i64
  | bool | f64 | string | unit
  | optU32 | vecU32 | vecString | pair | map
  | body | nested | fail
  | entryKind | marker | nodeId
  deriving DecidableEq, Repr

namespace ValueType

@[reducible] def Carrier : ValueType → Type
  | u8 => UInt8
  | u16 => UInt16
  | u32 => UInt32
  | u64 => UInt64
  | i8 => Int8
  | i16 => Int16
  | i32 => Int32
  | i64 => Int64
  | bool => Bool
  | f64 => Binary64
  | string => String
  | unit => Unit
  | optU32 => Option UInt32
  | vecU32 => List UInt32
  | vecString => List String
  | pair => UInt32 × String
  | map => OrderedMap String UInt64
  | body => Body
  | nested => Nested
  | fail => Refusing
  | entryKind => EntryKind
  | marker => Marker
  | nodeId => NodeId

def codec : (t : ValueType) → Codec t.Carrier
  | u8 => .uint8
  | u16 => .uint16
  | u32 => .uint32
  | u64 => .uint64
  | i8 => .int8
  | i16 => .int16
  | i32 => .int32
  | i64 => .int64
  | bool => .bool
  | f64 => .binary64
  | string => .text
  | unit => .unit
  | optU32 => .option .uint32
  | vecU32 => .list .uint32
  | vecString => .list .text
  | pair => .pair .uint32 .text
  | map => .textMap .uint64
  | body => .body
  | nested => .nested
  | fail => .refusing
  | entryKind => .entryKind
  | marker => .marker
  | nodeId => .nodeId

instance : Values ValueType := ⟨Carrier, codec⟩

def name : ValueType → String
  | u8 => "u8"
  | u16 => "u16"
  | u32 => "u32"
  | u64 => "u64"
  | i8 => "i8"
  | i16 => "i16"
  | i32 => "i32"
  | i64 => "i64"
  | bool => "bool"
  | f64 => "f64"
  | string => "string"
  | unit => "unit"
  | optU32 => "opt_u32"
  | vecU32 => "vec_u32"
  | vecString => "vec_string"
  | pair => "pair"
  | map => "map"
  | body => "body"
  | nested => "nested"
  | fail => "fail"
  | entryKind => "journal_type"
  | marker => "journal_record"
  | nodeId => "node_id"

def all : List ValueType :=
  [u8, u16, u32, u64, i8, i16, i32, i64, bool, f64, string, unit, optU32, vecU32, vecString, pair,
    map, body, nested, fail, entryKind, marker, nodeId]

def ofName? (name : String) : Option ValueType := all.find? (·.name = name)

/-- A value combined with another one: numbers add up and wrap around, truth values differ or not,
texts, lists and maps are joined, and anything else is replaced. -/
def combine : (t : ValueType) → t.Carrier → t.Carrier → t.Carrier
  | u8, a, b => a + b
  | u16, a, b => a + b
  | u32, a, b => a + b
  | u64, a, b => a + b
  | i8, a, b => a + b
  | i16, a, b => a + b
  | i32, a, b => a + b
  | i64, a, b => a + b
  | bool, a, b => a ^^ b
  | string, a, b => a ++ b
  | vecU32, a, b => a ++ b
  | vecString, a, b => a ++ b
  | map, a, b => b.entries.foldl (fun m e => m.insert e.1 e.2) a
  | body, a, b => { text := a.text ++ b.text, revision := a.revision + b.revision }
  | f64, _, b => b
  | unit, _, b => b
  | optU32, _, b => b
  | pair, _, b => b
  | nested, _, b => b
  | fail, _, b => b
  | entryKind, _, b => b
  | marker, _, b => b
  | nodeId, _, b => b

end ValueType

end GraphJournal
