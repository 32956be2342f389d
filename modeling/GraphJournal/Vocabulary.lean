import GraphJournal.Error

/-!
The small closed vocabularies of the journal: kinds of entries, markers inside a record, the ways
to save a node, and node identities.
-/
namespace GraphJournal

/-- The kind of a framed entry. -/
inductive EntryKind
  /-- The start of a journal segment. -/
  | startingPoint
  /-- A checkpoint between records. -/
  | waypoint
  /-- A change at an address, for a node to apply. -/
  | record
  deriving DecidableEq, Repr

namespace EntryKind

def byte : EntryKind → UInt8
  | startingPoint => 0
  | waypoint => 1
  | record => 2

def ofByte? : UInt8 → Option EntryKind
  | 0 => some startingPoint
  | 1 => some waypoint
  | 2 => some record
  | _ => none

def ofByte (b : UInt8) : Except Error EntryKind :=
  match ofByte? b with
  | some kind => .ok kind
  | none => .error (.unknownEntryKind b)

def name : EntryKind → String
  | startingPoint => "StartingPoint"
  | waypoint => "Waypoint"
  | record => "Record"

/-- Whether replay hands entries of this kind to a node. -/
def isDispatched : EntryKind → Bool
  | record => true
  | _ => false

def all : List EntryKind := [startingPoint, waypoint, record]

@[simp] theorem ofByte?_byte (kind : EntryKind) : ofByte? kind.byte = some kind := by
  cases kind <;> rfl

end EntryKind

/-- The marker that starts each part of a record. -/
inductive Marker
  /-- Descend to the child with the address that follows. -/
  | locator
  /-- Descend to the child with the key that follows. -/
  | key
  | value
  | delete
  | addItem
  | deleteItem
  /-- Stands for a marker that could not be read; never part of a record. -/
  | invalid
  deriving DecidableEq, Repr

namespace Marker

def byte : Marker → UInt8
  | locator => 0
  | key => 1
  | value => 2
  | delete => 3
  | addItem => 4
  | deleteItem => 5
  | invalid => 255

def ofByte? : UInt8 → Option Marker
  | 0 => some locator
  | 1 => some key
  | 2 => some value
  | 3 => some delete
  | 4 => some addItem
  | 5 => some deleteItem
  | 255 => some invalid
  | _ => none

def ofByte (b : UInt8) : Except Error Marker :=
  match ofByte? b with
  | some marker => .ok marker
  | none => .error (.unknownMarker b)

def name : Marker → String
  | locator => "Locator"
  | key => "Key"
  | value => "Value"
  | delete => "Delete"
  | addItem => "AddItem"
  | deleteItem => "DeleteItem"
  | invalid => "Invalid"

/-- Whether the marker ends the address and says what happens there. -/
def isTerminal : Marker → Bool
  | value | delete | addItem | deleteItem => true
  | _ => false

/-- Whether the marker starts one step of the address. -/
def isSegment : Marker → Bool
  | locator | key => true
  | _ => false

def all : List Marker := [locator, key, value, delete, addItem, deleteItem, invalid]

@[simp] theorem ofByte?_byte (marker : Marker) : ofByte? marker.byte = some marker := by
  cases marker <;> rfl

end Marker

/-- What a save does with the data in memory. -/
inductive SaveMode
  /-- Write to the store and keep the data in memory. -/
  | storeOnly
  /-- Write to the store and release the data, unless it is in use. -/
  | tryRelease
  /-- Write to the store and release the data, waiting for those who use it. -/
  | forceRelease
  deriving DecidableEq, Repr

namespace SaveMode

def name : SaveMode → String
  | storeOnly => "StoreOnly"
  | tryRelease => "TryRelease"
  | forceRelease => "ForceRelease"

def id : SaveMode → String
  | storeOnly => "store_only"
  | tryRelease => "try_release"
  | forceRelease => "force_release"

def all : List SaveMode := [storeOnly, tryRelease, forceRelease]

def ofId? (id : String) : Option SaveMode := all.find? (·.id = id)

/-- Whether a save in this mode ends with the data released. -/
def releases : SaveMode → Bool
  | storeOnly => false
  | _ => true

/-- Whether a save in this mode waits for exclusive use of the node. -/
def blocks : SaveMode → Bool
  | forceRelease => true
  | _ => false

end SaveMode

/-- What a save did. -/
inductive SaveOutcome
  /-- Written to the store; the data is still in memory. -/
  | stored
  /-- Written to the store and released. -/
  | released
  /-- Left alone because the node is in use. -/
  | skipped
  /-- Declined by the store; the data is still in memory. -/
  | rejected
  deriving DecidableEq, Repr

namespace SaveOutcome

def name : SaveOutcome → String
  | stored => "Stored"
  | released => "Released"
  | skipped => "Skipped"
  | rejected => "Rejected"

/-- Whether the store now holds the node's current data. -/
def isPersisted : SaveOutcome → Bool
  | stored | released => true
  | _ => false

end SaveOutcome

/-- The identity of a node's data in a store and in a save queue. -/
structure NodeId where
  raw : UInt64
  deriving DecidableEq, Repr

namespace NodeId

def text (id : NodeId) : String :=
  Bytes.toHex (Bytes.bigEndian 8 id.raw.toNat)

instance : Ord NodeId := ⟨fun a b => compare a.raw b.raw⟩

end NodeId

end GraphJournal
