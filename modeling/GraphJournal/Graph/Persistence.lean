import GraphJournal.Graph.Leaf

/-!
Saving the persistent nodes of a graph, at once or by way of the queue of their root.
-/
namespace GraphJournal.Graph

open MessagePack

variable {κ : Type} [Values κ]

/-- The identity under which a persistent node is kept. -/
def nodeId? (g : Graph κ) (n : NodeRef) : Option NodeId :=
  match g.content? n with
  | some (.persistent _ cell _) => some cell.id
  | _ => none

def isResident (g : Graph κ) (n : NodeRef) : Bool :=
  match g.content? n with
  | some (.persistent _ cell _) => cell.state.isResident
  | _ => false

def save (n : NodeRef) (mode : SaveMode) : GraphM κ SaveOutcome :=
  onCell n .skipped fun kind => Cell.save (Values.codec kind) mode

def erase (n : NodeRef) : GraphM κ Unit :=
  onCell n () fun kind => Cell.erase (Values.codec kind)

/-- Replaces the value of a persistent node without a record, and tells the old one. -/
def writeCell (n : NodeRef) (item : Item κ) : GraphM κ (Option (Datum κ)) :=
  onCell n none fun kind => do return some ⟨kind, ← Cell.write (Values.codec kind) (item kind)⟩

/-- As `writeCell`, but gives up at once if the node is in use. -/
def tryWriteCell (n : NodeRef) (item : Item κ) : GraphM κ (Option (Datum κ)) :=
  onCell n none fun kind => do
    return (← Cell.tryWrite (Values.codec kind) (item kind)).map (⟨kind, ·⟩)

/-- Brings the value of a persistent node to memory and keeps it there, for reading. -/
def holdRead (n : NodeRef) : GraphM κ (Option (Datum κ)) :=
  onCell n none fun kind => do return some ⟨kind, ← Cell.holdRead (Values.codec kind)⟩

/-- Brings the value of a persistent node to memory and keeps it there, for writing; it is replaced
if there is an item to replace it. -/
def holdWrite (n : NodeRef) (item : Option (Item κ)) : GraphM κ (Option (Datum κ)) :=
  onCell n none fun kind => do
    let value ← Cell.holdWrite (Values.codec kind)
    match item with
    | none => return some ⟨kind, value⟩
    | some item =>
      Cell.setState (.resident (item kind))
      return some ⟨kind, item kind⟩

def letGo (n : NodeRef) (change : LockState → LockState) : GraphM κ Unit :=
  onCell n () fun _ => Cell.setLock change

/-- Queues a persistent node with a root, if the root has a queue. `false` if it has none, or if the
identity is queued already. -/
def enqueue (g : Graph κ) (r : RootRef) (n : NodeRef) : Bool × Graph κ :=
  match g.root? r, g.nodeId? n with
  | some root, some id =>
    match root.queue? with
    | some queue =>
      let (fresh, queue) := queue.push id n
      (fresh, g.setRoot r (root.setQueue queue))
    | none => (false, g)
  | _, _ => (false, g)

/-- Queues a persistent node with the root that it was told. -/
def scheduleSave (g : Graph κ) (n : NodeRef) : Bool × Graph κ :=
  match (g.links n).root with
  | some r => g.enqueue r n
  | none => (false, g)

/-- The graph as the place where the nodes of a queue live. -/
def nodesOf : SaveQueue.Nodes NodeRef (Graph κ) where
  isAlive g n := (g.node? n).isSome
  save n mode s :=
    match save n mode s.1 with
    | .ok outcome g => (.ok outcome, (g, s.2))
    | .error e g => (.error e, (g, s.2))

/-- Does something with the nodes of the queue of a root, if it has one. -/
def onQueue {α : Type} (g : Graph κ) (r : RootRef)
    (act : Graph κ × SaveQueue NodeRef → α × (Graph κ × SaveQueue NodeRef)) : Option α × Graph κ :=
  match g.root? r with
  | none => (none, g)
  | some root =>
    match root.queue? with
    | none => (none, g)
    | some queue =>
      let (a, g, queue) := act (g, queue)
      (some a, g.setRoot r (root.setQueue queue))

def processSaves (g : Graph κ) (r : RootRef) (mode : SaveMode) : Option SaveReport × Graph κ :=
  g.onQueue r (SaveQueue.process nodesOf mode)

/-- The graph after a worker has been at the queue of a root, for as many rounds as given. -/
def workSaves (g : Graph κ) (r : RootRef) (mode : SaveMode) (rounds : Nat) : Graph κ :=
  (g.onQueue r fun s => ((), SaveQueue.work nodesOf mode rounds s)).2

end GraphJournal.Graph
