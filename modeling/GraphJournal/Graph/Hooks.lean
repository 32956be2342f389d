import GraphJournal.Entry.Payload
import GraphJournal.Graph.Location

/-!
Hooks: what nodes write into records by code of their own. Besides keys and markers a record holds
what each level without a key writes as its step of the address, and what the node puts ahead of the
marker. Such code is handed the draft where its part of the record belongs, and may fail after it has
written some of it.

The branches of this library are one choice of hooks: they write bytes that they were given.
-/
namespace GraphJournal

/-- What nodes write into records by code of their own. -/
structure Hooks where
  /-- The step of an address that leads to a node without a key. -/
  locator : NodeRef → DraftM Unit
  /-- What a node writes ahead of the marker. -/
  ahead : NodeRef → DraftM Unit

/-- The steps of an address with their keys, from the top down. -/
def Location.steps (l : Location) (n : NodeRef) (withOwn : Bool) : List (NodeRef × Int32) :=
  l.ancestors ++ if withOwn then [(n, l.key)] else []

/-- Writes given bytes, or fails as given. -/
def Draft.given : Except Error Bytes → DraftM Unit
  | .ok bytes => modify (append · bytes)
  | .error e => throw e

namespace Hooks

variable (h : Hooks)

/-- Writes the keys in `pending`, the last one first, and the steps after them. An address is keys for
the most part, so those that follow each other are written together. -/
def segmentsAfter (pending : List Bytes) : List (NodeRef × Int32) → DraftM Unit
  | [] => modify (·.append pending.reverse.flatten)
  | step :: steps =>
    if 0 ≤ step.2 then segmentsAfter (Draft.keySegment step.2.toUInt32 :: pending) steps
    else do
      modify (·.append pending.reverse.flatten)
      h.locator step.1
      segmentsAfter [] steps

def segments (steps : List (NodeRef × Int32)) : DraftM Unit := h.segmentsAfter [] steps

def fieldKey : Option UInt32 → DraftM Unit
  | some field => modify (·.key field)
  | none => pure ()

/-- Writes what stands before the marker in a record about `n`. -/
def front (steps : List (NodeRef × Int32)) (n : NodeRef) (field : Option UInt32) : DraftM Unit := do
  h.segments steps
  fieldKey field
  h.ahead n

/-- Writes a record about `n` from its address to what its marker needs. -/
def write (steps : List (NodeRef × Int32)) (n : NodeRef) (field : Option UInt32) (op : Marker)
    (payload : DraftM Unit) : DraftM Unit := do
  h.front steps n field
  modify (·.marker op)
  payload

end Hooks

namespace Graph

variable {κ : Type} [Values κ]

/-- What a node of this library writes ahead of the marker in its records. -/
def recordPrefix (g : Graph κ) (n : NodeRef) : Except Error Bytes :=
  match g.content? n with
  | some (.branch b) =>
    if b.prefixFails then .error (.serialization (.unavailable "prefix")) else .ok b.recordPrefix
  | _ => .ok []

/-- The hooks that the branches of a graph have chosen. -/
def ownHooks (g : Graph κ) : Hooks where
  locator n := Draft.given (g.ownAddress n)
  ahead n := Draft.given (g.recordPrefix n)

end Graph

end GraphJournal
