import GraphJournal.Vocabulary

/-!
The queue of nodes that wait to be saved. It holds handles that keep nothing alive, so a node that
is dropped falls out at the next pass. A node is queued once, however often it is pushed.

A pass takes all that is queued at its start and saves it in order. While it runs, nodes may be
pushed again, also by the saves themselves; what could not be saved is queued again behind them.
-/
namespace GraphJournal

/-- Nodes that wait to be saved, of which `ν` is the type of handles. -/
structure SaveQueue (ν : Type) where
  /-- The handles in the order of their saves. -/
  pending : List (NodeId × ν) := []
  queued : List NodeId := []

/-- What a pass did, counted by nodes. -/
structure SaveReport where
  /-- Written to the store and still in memory. -/
  stored : Nat := 0
  /-- Written to the store and released. -/
  released : Nat := 0
  /-- In use, and queued again. -/
  skipped : Nat := 0
  /-- Declined by the store, and queued again. -/
  rejected : Nat := 0
  /-- Failed, and queued again. -/
  failed : Nat := 0
  dropped : Nat := 0
  deriving DecidableEq, Repr

namespace SaveReport

/-- The number of nodes that were queued again. -/
def requeued (r : SaveReport) : Nat := r.skipped + r.rejected + r.failed

/-- The number of nodes whose data the store now holds. -/
def persisted (r : SaveReport) : Nat := r.stored + r.released

def count (r : SaveReport) : Except Error SaveOutcome → SaveReport
  | .ok .stored => { r with stored := r.stored + 1 }
  | .ok .released => { r with released := r.released + 1 }
  | .ok .skipped => { r with skipped := r.skipped + 1 }
  | .ok .rejected => { r with rejected := r.rejected + 1 }
  | .error _ => { r with failed := r.failed + 1 }

def countDropped (r : SaveReport) : SaveReport := { r with dropped := r.dropped + 1 }

end SaveReport

/-- Whether a node has to be queued again after a save. -/
def needsRetry : Except Error SaveOutcome → Bool
  | .ok outcome => !outcome.isPersisted
  | .error _ => true

namespace SaveQueue

variable {ν σ : Type}

def empty : SaveQueue ν := {}

def length (q : SaveQueue ν) : Nat := q.pending.length

def isEmpty (q : SaveQueue ν) : Bool := q.pending.isEmpty

/-- Queues a node, unless its identity is queued already. -/
def push (q : SaveQueue ν) (id : NodeId) (node : ν) : Bool × SaveQueue ν :=
  if id ∈ q.queued then (false, q)
  else (true, { pending := q.pending ++ [(id, node)], queued := id :: q.queued })

/-- Where a queue's nodes live: which of them are alive, and what it is to save one. A save may push
nodes onto the queue. -/
structure Nodes (ν σ : Type) where
  isAlive : σ → ν → Bool
  save : ν → SaveMode → σ × SaveQueue ν → Except Error SaveOutcome × (σ × SaveQueue ν)

/-- Saves the nodes of a batch in order. Gives the counts and, in order, those to be queued again. -/
def saveBatch (nodes : Nodes ν σ) (mode : SaveMode) :
    List (NodeId × ν) → SaveReport → σ × SaveQueue ν →
      SaveReport × List (NodeId × ν) × (σ × SaveQueue ν)
  | [], report, s => (report, [], s)
  | (id, node) :: batch, report, s =>
    if nodes.isAlive s.1 node then
      let (outcome, s) := nodes.save node mode s
      let (report, retry, s) := saveBatch nodes mode batch (report.count outcome) s
      (report, if needsRetry outcome then (id, node) :: retry else retry, s)
    else saveBatch nodes mode batch report.countDropped s

def pushAll (q : SaveQueue ν) (batch : List (NodeId × ν)) : SaveQueue ν :=
  batch.foldl (fun q entry => (q.push entry.1 entry.2).2) q

def process (nodes : Nodes ν σ) (mode : SaveMode) (s : σ × SaveQueue ν) :
    SaveReport × (σ × SaveQueue ν) :=
  let (report, retry, s) := saveBatch nodes mode s.2.pending {} (s.1, empty)
  (report, (s.1, s.2.pushAll retry))

/-- What a worker does that is stopped after its interval has run out `rounds` times: a pass each
time, and a last one, so that nothing queued before is left out. -/
def work (nodes : Nodes ν σ) (mode : SaveMode) : Nat → σ × SaveQueue ν → σ × SaveQueue ν
  | 0, s => (process nodes mode s).2
  | rounds + 1, s => work nodes mode rounds (process nodes mode s).2

end SaveQueue

end GraphJournal
