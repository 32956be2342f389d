import GraphJournal.MessagePack.Scalar
import GraphJournal.OrderedMap

/-!
Codecs of values made of others: options, lists, pairs, maps from text, and names of a closed list.
-/
namespace GraphJournal.MessagePack

/-- Reads `n` times in turn. -/
def times {α : Type} (read : Decode α) : Nat → Decode (List α)
  | 0 => pure []
  | n + 1 => do
    let a ← read
    let rest ← times read n
    return a :: rest

namespace Codec

variable {α β : Type}

/-- Reads a list whose head says how many items there are, each read by `item` with one array less
to enter. A byte string is read as the list of its bytes. -/
def readList (item : Nat → Decode α) (ofByte : UInt8 → Except SerializationFault α) (depth : Nat) :
    Decode (List α) := do
  match ← readHead with
  | .array n =>
    match depth with
    | 0 => malformed
    | depth + 1 => times (item depth) n
  | .binary n =>
    let bytes ← takeBytes n
    StateT.lift (bytes.mapM ofByte)
  | _ => malformed

def list (c : Codec α) : Codec (List α) where
  encode layout xs :=
    (Encoded.ok (arrayHead xs.length)).andThen (.concat (xs.map (c.encode layout)))
  decode := readList c.decode c.ofByte
  ofByte := noByte
  default := []

def option (c : Codec α) : Codec (Option α) where
  encode layout
    | none => .ok [0xc0]
    | some a => c.encode layout a
  decode depth
    | 0xc0 :: rest => .ok (none, rest)
    | bytes => (some <$> c.decode depth) bytes
  ofByte := noByte
  default := none

def pair (c : Codec α) (d : Codec β) : Codec (α × β) where
  encode layout p :=
    (Encoded.ok (arrayHead 2)).andThen ((c.encode layout p.1).andThen (d.encode layout p.2))
  decode depth := do
    match ← readHead, depth with
    | .array 2, depth + 1 => return (← c.decode depth, ← d.decode depth)
    | _, _ => malformed
  ofByte := noByte
  default := (c.default, d.default)

/-- A map from text. It is written in the order of its keys; when it is read, the last entry for a
key counts. -/
def textMap (c : Codec α) : Codec (OrderedMap String α) where
  encode layout m :=
    (Encoded.ok (mapHead m.entries.length)).andThen
      (.concat (m.entries.map fun e => (Encoded.ok (encodeText e.1)).andThen (c.encode layout e.2)))
  decode depth := do
    match ← readHead, depth with
    | .map n, depth + 1 => return .ofList (← times (return (← text.decode depth, ← c.decode depth)) n)
    | _, _ => malformed
  ofByte := noByte
  default := .empty

/-- The member of `all` that a name or a place in the list stands for, and the bytes after it. -/
def readName (name : α → String) (all : List α) : Decode α := do
  match ← readHead with
  | .text n | .binary n =>
    let bytes ← takeBytes n
    orMalformed (all.find? fun a => textBytes (name a) = bytes)
  | .unsigned n => orMalformed all[n]?
  | _ => malformed

/-- A member of a closed list. It is written by its name; its place in the list is read as well, and
so is a map from one of these to nothing. -/
def choice (name : α → String) (all : List α) (default : α) : Codec α where
  encode _ a := .ok (encodeText (name a))
  decode _ bytes :=
    match readHead.run bytes with
    | .ok (.map 1, rest) => (do
        let a ← readName name all
        match ← readHead with
        | .nil => return a
        | _ => malformed) rest
    | _ => readName name all bytes
  ofByte := noByte
  default := default

end Codec

end GraphJournal.MessagePack
