import GraphJournal.Journal
import GraphJournal.SaveQueue

/-!
Roots own the journal of a graph. Besides a journal there are two simple roots: one that takes every
entry, and one that takes none.
-/
namespace GraphJournal

open MessagePack

/-- A handle on a node. Handles are never used twice, so the handle of a node that is gone stays
without one. -/
structure NodeRef where
  index : Nat
  deriving DecidableEq, Repr

structure RootRef where
  index : Nat
  deriving DecidableEq, Repr

structure StoreRef where
  index : Nat
  deriving DecidableEq, Repr

/-- The owner of a graph's journal. -/
inductive Root
  /-- A journal with a queue of nodes to save. -/
  | journal (journal : Journal) (queue : SaveQueue NodeRef)
  /-- Takes every entry; it has no queue. -/
  | unbounded (data : Bytes)
  /-- Takes no entry; it has no queue. -/
  | refusing

namespace Root

/-- Whether a record that cannot be written is an error of the operation. -/
def isStrict : Root → Bool
  | journal j _ => j.config.strict
  | unbounded _ | refusing => false

def layout : Root → Layout
  | journal j _ => j.config.layout
  | unbounded _ | refusing => .compact

def data : Root → Bytes
  | journal j _ => j.data
  | unbounded data => data
  | refusing => []

def queue? : Root → Option (SaveQueue NodeRef)
  | journal _ queue => some queue
  | unbounded _ | refusing => none

def setQueue (root : Root) (queue : SaveQueue NodeRef) : Root :=
  match root with
  | journal j _ => journal j queue
  | other => other

/-- Does something with the journal of a root that has one. -/
def onJournal {α : Type} (otherwise : α) (act : EStateM Error Journal α) : EStateM Error Root α
  | journal j queue =>
    match act j with
    | .ok a j => .ok a (journal j queue)
    | .error e j => .error e (journal j queue)
  | other => .ok otherwise other

def commit (draft : Draft) : EStateM Error Root Commit
  | journal j queue =>
    match Journal.commit draft j with
    | .ok c j => .ok c (journal j queue)
    | .error e j => .error e (journal j queue)
  | unbounded data =>
    match draft.frame with
    | .ok (entry, _) => .ok (.appended (data ++ entry).length) (unbounded (data ++ entry))
    | .error e => .error e (unbounded data)
  | refusing => .error (.config (.reported "root refused")) refusing

/-- The bytes of the entries that are there, which are taken away. -/
def drain : Root → Bytes × Root
  | journal j queue => (j.drain.1, journal j.drain.2 queue)
  | unbounded data => (data, unbounded [])
  | refusing => ([], refusing)

end Root

end GraphJournal
