import GraphJournal.MessagePack.Head
import GraphJournal.Reader

/-!
Codecs: how the values of one type are written as MessagePack and read back.

An encoder may give up on a value after it has written part of it; both are told. A decoder is given
the number of arrays and maps that it may still enter, one inside the other, so that no input can
nest without end.
-/
namespace GraphJournal.MessagePack

/-- How a structure is written. -/
inductive Layout
  /-- As an array of its fields. -/
  | compact
  /-- As a map from the names of its fields. -/
  | named
  deriving DecidableEq, Repr

namespace Layout

def id : Layout → String
  | compact => "msgpack"
  | named => "msgpack-named"

def name : Layout → String
  | compact => "MessagePack"
  | named => "NamedMessagePack"

def ofId (id : String) : Except Error Layout :=
  if id = compact.id then .ok compact
  else if id = named.id then .ok named
  else .error (.config (.unknownFormatter id))

end Layout

/-- What an encoder has written, and why it stopped if it did not finish. -/
structure Encoded where
  bytes : Bytes
  fault? : Option SerializationFault := none
  deriving DecidableEq, Repr

namespace Encoded

def ok (bytes : Bytes) : Encoded := { bytes }

/-- What is written by one encoder and then by another, which starts only if the first finishes. -/
def andThen (first second : Encoded) : Encoded :=
  match first.fault? with
  | some _ => first
  | none => { bytes := first.bytes ++ second.bytes, fault? := second.fault? }

/-- What is written by several encoders in turn, up to the first that does not finish. -/
def concat (parts : List Encoded) : Encoded :=
  parts.foldr andThen (ok [])

/-- The bytes of an encoder that finished. -/
def toExcept (e : Encoded) : Except Error Bytes :=
  match e.fault? with
  | some fault => .error (.serialization fault)
  | none => .ok e.bytes

end Encoded

/-- How the values of a type are written and read. -/
structure Codec (α : Type) where
  encode : Layout → α → Encoded
  /-- Reads a value, given the number of arrays and maps that may still be entered. -/
  decode : Nat → Decode α
  /-- The value that a single byte stands for where a byte string is read as a list. -/
  ofByte : UInt8 → Except SerializationFault α
  /-- The value before any other is known. -/
  default : α

/-- The number of arrays and maps that may lie one inside the other. -/
def maxDepth : Nat := 1023

namespace Codec

variable {α : Type}

/-- The value at the front of `bytes`, and the bytes after it. -/
def decodeFront (c : Codec α) (bytes : Bytes) : Except SerializationFault (α × Bytes) :=
  (c.decode maxDepth).run bytes

/-- The value that takes up all of `bytes`. -/
def decodeAll (c : Codec α) (bytes : Bytes) : Except Error α :=
  match c.decodeFront bytes with
  | .error fault => .error (.serialization fault)
  | .ok (value, []) => .ok value
  | .ok (_, rest) => .error (.serialization (.trailingBytes rest.length))

end Codec

end GraphJournal.MessagePack

namespace GraphJournal.Read

open MessagePack

/-- A value. Nothing is consumed if the bytes do not start with one. -/
def value {α : Type} (c : Codec α) : Read α := fun r =>
  match c.decodeFront r.unread with
  | .error fault => .error (.serialization fault) r
  | .ok (value, rest) => .ok value (r.skip (r.unread.length - rest.length))

/-- A value as the formatter of a layout reads it. Each reads what either of them writes. -/
def formatted {α : Type} (layout : Layout) (c : Codec α) : Read α :=
  match layout with
  | .compact => value c
  | .named => value c

end GraphJournal.Read

namespace GraphJournal.MessagePack.Codec

/-- The value that takes up all of `bytes`, by a reader of their own and what is left in it. -/
def fromBytes {α : Type} (layout : Layout) (c : Codec α) (bytes : Bytes) : Except Error α :=
  match Read.formatted layout c (.ofBytes bytes 0) with
  | .error e _ => .error e
  | .ok a r =>
    if r.isEmpty then .ok a else .error (.serialization (.trailingBytes r.remaining))

end GraphJournal.MessagePack.Codec
