import GraphJournal.Graph.Hooks

/-!
Recording a change of a node in the journal of its graph.

A record is the node's address, then the key of a field if the change is about one field only, then
what the node writes ahead of every marker, the marker, and what the marker needs. It reaches the
journal as a whole or not at all. What keeps it from there is an outcome of the operation, and an
error only if the root is strict.
-/
namespace GraphJournal

open MessagePack

inductive RecordOutcome
  /-- It is in the journal, where `sequence` counts all bytes committed so far. -/
  | committed (sequence : Nat)
  /-- The node is in no graph with a live root, so there is no journal for it. -/
  | unattached
  /-- It does not fit before the journal is drained. -/
  | noRoom (needed remaining : Nat)
  /-- It is larger than the journal allows. -/
  | tooLarge (size max : Nat)
  | dropped
  deriving DecidableEq, Repr

namespace RecordOutcome

def isCommitted : RecordOutcome → Bool
  | committed _ => true
  | _ => false

def sequence? : RecordOutcome → Option Nat
  | committed sequence => some sequence
  | _ => none

/-- How a strict root tells what became of a record. -/
def ofStrict : Except Error Commit → Except Error RecordOutcome
  | .ok (.appended sequence) => .ok (.committed sequence)
  | .ok (.noRoom needed remaining) => .error (.bufferFull needed remaining)
  | .error e => .error e

/-- How a root that does its best tells what became of a record. -/
def ofBestEffort : Except Error Commit → RecordOutcome
  | .ok (.appended sequence) => .committed sequence
  | .ok (.noRoom needed remaining) => .noRoom needed remaining
  | .error (.entryTooLarge size max) => .tooLarge size max
  | .error _ => .dropped

/-- How a root tells what became of a record. -/
def ofCommit (strict : Bool) (commit : Except Error Commit) : Except Error RecordOutcome :=
  if strict then ofStrict commit else .ok (ofBestEffort commit)

end RecordOutcome

namespace Graph

variable {κ : Type} [Values κ]

/-- A record about a node of this library, up to and including its marker. -/
def openRecord (g : Graph κ) (n : NodeRef) (location : Location) (op : Marker) (withOwn : Bool)
    (field : Option UInt32) : Except Error Draft :=
  match g.ownHooks.front (location.steps n withOwn) n field (.begin .record) with
  | .ok () draft => .ok (draft.marker op)
  | .error e _ => .error e

/-- The place of a node together with its root. -/
def locateRoot? (g : Graph κ) (n : NodeRef) : Option (Location × Root) := do
  let location ← g.locate? n
  return (location, ← g.root? location.root)

/-- Ends an operation with what became of its record. -/
def settle (strict : Bool) (commit : Except Error Commit) : GraphM κ RecordOutcome := fun g =>
  match RecordOutcome.ofCommit strict commit with
  | .ok outcome => .ok outcome g
  | .error e => .error e g

/-- Journals a record for a node with what these hooks write. `payload` writes what the marker needs,
with values in the layout that the root wants. -/
def journalWith (h : Hooks) (n : NodeRef) (op : Marker) (withOwn : Bool) (field : Option UInt32)
    (payload : Layout → DraftM Unit) : GraphM κ RecordOutcome := fun g =>
  match g.locateRoot? n with
  | none => .ok .unattached g
  | some (location, root) =>
    match h.write (location.steps n withOwn) n field op (payload root.layout) (.begin .record) with
    | .error e _ => settle root.isStrict (.error e) g
    | .ok () draft =>
      match root.commit draft with
      | .ok commit after => settle root.isStrict (.ok commit) (g.setRoot location.root after)
      | .error e after => settle root.isStrict (.error e) (g.setRoot location.root after)

/-- Journals a record for a node with what the nodes of the present graph write. -/
def journalBy (hooks : Graph κ → Hooks) (n : NodeRef) (op : Marker) (withOwn : Bool)
    (field : Option UInt32) (payload : Layout → DraftM Unit) : GraphM κ RecordOutcome := fun g =>
  journalWith (hooks g) n op withOwn field payload g

/-- Journals a record for a node of this library. -/
def journal (n : NodeRef) (op : Marker) (withOwn : Bool) (field : Option UInt32)
    (payload : Layout → DraftM Unit) : GraphM κ RecordOutcome :=
  journalBy ownHooks n op withOwn field payload

def journalValue {α : Type} (n : NodeRef) (c : Codec α) (a : α) : GraphM κ RecordOutcome :=
  journal n .value true none (Draft.value c · a)

/-- Journals a new value of one field of a node. -/
def journalField {α : Type} (n : NodeRef) (field : UInt32) (c : Codec α) (a : α) :
    GraphM κ RecordOutcome :=
  journal n .value true (some field) (Draft.value c · a)

def journalDelete (n : NodeRef) : GraphM κ RecordOutcome :=
  journal n .delete true none fun _ => pure ()

def journalAddItem {α : Type} (n : NodeRef) (c : Codec α) (a : α) : GraphM κ RecordOutcome :=
  journal n .addItem true none (Draft.value c · a)

/-- Journals an item removed from a list, by what tells it from the other items. -/
def journalDeleteItem {α : Type} (n : NodeRef) (c : Codec α) (a : α) : GraphM κ RecordOutcome :=
  journal n .deleteItem true none (Draft.value c · a)

end Graph

end GraphJournal
