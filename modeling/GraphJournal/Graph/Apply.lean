import GraphJournal.Graph.Leaf
import GraphJournal.Graph.Ownership
import GraphJournal.Segment

/-!
Applying a record to a node of another copy of the graph.

A branch reads one step of the address and hands the rest to the child there; the node at the end
reads the marker and what it needs. A node that refuses a record keeps the value it has.
-/
namespace GraphJournal

open MessagePack

/-- What a node did with a record. -/
inductive Verdict
  | applied
  | rejected (e : Error)
  /-- It broke off without an answer. -/
  | brokenOff
  deriving DecidableEq, Repr

namespace Verdict

def isApplied : Verdict → Bool
  | applied => true
  | _ => false

end Verdict

/-- Passes over what a branch writes ahead of its markers, if it is there. -/
def Branch.passPrefix (b : Branch) (r : Reader) : Reader :=
  if b.recordPrefix.isPrefixOf r.unread then r.skip b.recordPrefix.length else r

theorem Branch.unread_passPrefix_le (b : Branch) (r : Reader) :
    (b.passPrefix r).unread.length ≤ r.unread.length := by
  unfold passPrefix
  split <;> simp [Reader.skip]

/-- What a branch hands down is shorter than what it was handed. -/
theorem Branch.unread_lt_of_segment {b : Branch} {r rest : Reader} {part : Segment}
    (h : Read.segment (b.passPrefix r) = .ok part rest) : rest.unread.length < r.unread.length :=
  Nat.lt_of_lt_of_le (Read.unread_lt_of_segment h) (b.unread_passPrefix_le r)

namespace Graph

variable {κ : Type} [Values κ]

/-- Hands what a reader reads to `use`, or refuses the record. -/
def reading {α : Type} (read : Read α) (r : Reader) (g : Graph κ)
    (use : α → Verdict × Graph κ) : Verdict × Graph κ :=
  match read r with
  | .ok a _ => use a
  | .error e _ => (.rejected e, g)

/-- Refuses a marker that a node does not know. -/
def unexpected (expected : String) (part : Segment) : Error :=
  .unexpectedMarker expected part.marker.byte

def applyNumber (n : NodeRef) (b : Branch) (r : Reader) (g : Graph κ) : Verdict × Graph κ :=
  reading (Read.value Codec.uint64) r g fun value =>
    if b.breaksAt = some value then (.brokenOff, g)
    else (.applied, g.setContent n (.branch { b with value }))

def applyValue (n : NodeRef) (kind : κ) (r : Reader) (g : Graph κ) : Verdict × Graph κ :=
  reading (Read.replacement (Values.codec kind)) r g fun value =>
    (.applied, g.setContent n (.value kind value))

def applyPersistent (n : NodeRef) (kind : κ) (cell : Cell (Values.Carrier kind)) (s : StoreRef)
    (r : Reader) (g : Graph κ) : Verdict × Graph κ :=
  reading (Read.replacement (Values.codec kind)) r g fun value =>
    match withCell n kind cell s (Cell.write (Values.codec kind) value) g with
    | .ok _ g => (.applied, g)
    | .error e g => (.rejected e, g)

def applyRemoval (n : NodeRef) (kind : κ) (items : List (Values.Carrier kind)) (g : Graph κ)
    (index : UInt64) : Verdict × Graph κ :=
  if index.toNat < items.length then
    (.applied, g.setContent n (.list kind (items.eraseIdx index.toNat)))
  else (.rejected (.invalidKey (indexKey index)), g)

def applyList (n : NodeRef) (kind : κ) (items : List (Values.Carrier kind)) (r : Reader)
    (g : Graph κ) : Verdict × Graph κ :=
  match Read.segment r with
  | .error e _ => (.rejected e, g)
  | .ok (.terminal .addItem) r =>
    reading (Read.value (Values.codec kind)) r g fun item =>
      (.applied, g.setContent n (.list kind (items ++ [item])))
  | .ok (.terminal .deleteItem) r =>
    reading (Read.value Codec.uint64) r g (applyRemoval n kind items g)
  | .ok (.terminal .value) r =>
    reading (Read.value (Codec.list (Values.codec kind))) r g fun items =>
      (.applied, g.setContent n (.list kind items))
  | .ok part _ => (.rejected (unexpected "AddItem, DeleteItem or Value" part), g)

/-- Applies a record, of which the reader has read all that is for the nodes above. -/
def applyRecord (n : NodeRef) (r : Reader) (g : Graph κ) : Verdict × Graph κ :=
  match g.content? n with
  | none => (.brokenOff, g)
  | some (.value kind _) => applyValue n kind r g
  | some (.persistent kind cell s) => applyPersistent n kind cell s r g
  | some (.list kind items) => applyList n kind items r g
  | some (.branch b) =>
    match h : Read.segment (b.passPrefix r) with
    | .error e _ => (.rejected e, g)
    | .ok part rest =>
      have := Branch.unread_lt_of_segment h
      match part with
      | .key key =>
        match b.keyed.get? key with
        | none => (.rejected (.invalidKey key), g)
        | some child =>
          if rest.peek? = some Marker.delete.byte then (.applied, (g.removeKeyed n key).2)
          else applyRecord child rest g
      | .locator address =>
        match b.named.get? address with
        | none => (.rejected (.invalidLocator (Bytes.toHex address)), g)
        | some child => applyRecord child rest g
      | .terminal .value => applyNumber n b rest g
      | part => (.rejected (unexpected "Key, Locator or Value" part), g)
termination_by r.unread.length
decreasing_by all_goals assumption

end Graph

end GraphJournal
