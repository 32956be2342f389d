import GraphJournal.MessagePack.Skip
import GraphJournal.Vocabulary

/-!
Codecs of particular types: a document body, arrays nested to any depth, the journal's own
vocabularies, and values that refuse to be written or read.
-/
namespace GraphJournal

/-- The body of a document. -/
structure Body where
  text : String := ""
  revision : UInt32 := 0
  deriving DecidableEq, Repr

/-- Arrays of arrays of arrays: an array without items, or a first item before the others. -/
inductive Nested
  | empty
  | cons (first rest : Nested)
  deriving DecidableEq, Repr

namespace Nested

def length : Nested → Nat
  | empty => 0
  | cons _ rest => rest.length + 1

/-- The number of arrays inside the outermost one that are met by following first items. -/
def levels : Nested → Nat
  | empty => 0
  | cons first _ => first.levels + 1

/-- An array inside `n` arrays that hold nothing else. -/
def tower : Nat → Nested
  | 0 => empty
  | n + 1 => cons (tower n) empty

def ofList : List Nested → Nested
  | [] => empty
  | first :: rest => cons first (ofList rest)

/-- Writes the items of an array in front of `tail`. -/
def writeItems : Nested → Bytes → Bytes
  | empty, tail => tail
  | cons first rest, tail =>
    MessagePack.arrayHead first.length ++ writeItems first (writeItems rest tail)

def encode (v : Nested) : Bytes := MessagePack.arrayHead v.length ++ writeItems v []

open MessagePack in
/-- Reads an array of arrays; `depth` arrays may be entered. -/
def decode (depth : Nat) : Decode Nested := do
  match ← readHead with
  | .array n =>
    match depth with
    | 0 => malformed
    | depth + 1 => ofList <$> times (decode depth) n
  | .binary 0 => return empty
  | _ => malformed

end Nested

/-- A value that refuses to be written or read. -/
inductive Refusing
  | refusing
  deriving DecidableEq, Repr

namespace MessagePack.Codec

/-- A field of a document body. -/
inductive BodyField
  | text
  | revision
  /-- A field of some other version of the type. -/
  | unknown
  deriving DecidableEq, Repr

namespace BodyField

def name : BodyField → String
  | text => "text"
  | revision => "revision"
  | unknown => ""

def ofName (bytes : Bytes) : BodyField :=
  if bytes = textBytes text.name then text
  else if bytes = textBytes revision.name then revision
  else unknown

def ofIndex : Nat → BodyField
  | 0 => text
  | 1 => revision
  | _ => unknown

def read : Decode BodyField := do
  match ← readHead with
  | .text n | .binary n => return ofName (← takeBytes n)
  | .unsigned n => return ofIndex n
  | _ => malformed

end BodyField

/-- The fields of a body that have been read. -/
structure PartialBody where
  text? : Option String := none
  revision? : Option UInt32 := none

/-- Reads one field into a body; a field that is there already is refused. -/
def readBodyField (depth : Nat) (b : PartialBody) : Decode PartialBody := do
  match ← BodyField.read with
  | .text =>
    if b.text?.isSome then malformed
    else return { b with text? := some (← text.decode depth) }
  | .revision =>
    if b.revision?.isSome then malformed
    else return { b with revision? := some (← uint32.decode depth) }
  | .unknown =>
    skip depth
    return b

def readBodyFields (depth : Nat) : Nat → PartialBody → Decode PartialBody
  | 0, b => pure b
  | n + 1, b => do readBodyFields depth n (← readBodyField depth b)

/-- A document body. It is read as an array of its two fields, or as a map that holds each of them
once, in any order and among any fields it does not know. -/
def body : Codec Body where
  encode layout b :=
    match layout with
    | .compact => .ok (arrayHead 2 ++ encodeText b.text ++ natHead b.revision.toNat)
    | .named =>
      .ok (mapHead 2 ++ encodeText BodyField.text.name ++ encodeText b.text ++
        encodeText BodyField.revision.name ++ natHead b.revision.toNat)
  decode depth := do
    match ← readHead, depth with
    | .array 2, depth + 1 => return ⟨← text.decode depth, ← uint32.decode depth⟩
    | .map n, depth + 1 =>
      match ← readBodyFields depth n {} with
      | ⟨some text, some revision⟩ => return ⟨text, revision⟩
      | _ => malformed
    | _, _ => malformed
  ofByte := noByte
  default := {}

def nested : Codec Nested where
  encode _ v := .ok v.encode
  decode := Nested.decode
  ofByte := noByte
  default := .empty

/-- A value that refuses: writing it fails after the head and one item of an array of two. -/
def refusing : Codec Refusing where
  encode _ _ := { bytes := arrayHead 2 ++ natHead 1, fault? := some .refused }
  decode _ := fun _ => .error .refused
  ofByte _ := .error .refused
  default := .refusing

def entryKind : Codec EntryKind := choice EntryKind.name EntryKind.all .startingPoint

def marker : Codec Marker := choice Marker.name Marker.all .invalid

def nodeId : Codec NodeId where
  encode layout id := uint64.encode layout id.raw
  decode depth := NodeId.mk <$> uint64.decode depth
  ofByte := noByte
  default := ⟨0⟩

end MessagePack.Codec

end GraphJournal
