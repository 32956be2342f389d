import GraphJournal.Proofs.Skeleton

/-!
# Passes of a worker, step by step

A worker takes what is queued with a root, saves it node by node, and puts back what could not be
saved. Between any two of these steps others may change nodes and queue them. Where nobody does, the
steps make up the pass that the queue makes at once. What the saves do is no matter of this module.
-/
namespace GraphJournal

set_option autoImplicit false

variable {κ : Type} [Values κ]

/-- The rest of a pass that is under way. -/
structure Round where
  todo : List (NodeId × NodeRef)
  /-- What could not be saved, in the order of the saves. -/
  retry : List (NodeId × NodeRef) := []

/-- A graph and the worker at the queue of one of its roots. -/
structure Scene (κ : Type) [Values κ] where
  graph : Graph κ
  round : Option Round := none

/-- What happens in a graph that a worker is at. -/
inductive WorkEvent (κ : Type) [Values κ]
  | update (n : NodeRef) (change : Change κ)
  | schedule (n : NodeRef)
  /-- The worker takes its next step. -/
  | tick

def WorkEvent.isCall : WorkEvent κ → Bool
  | update _ _ | schedule _ => true
  | tick => false

namespace Root

@[simp] theorem queue?_setQueue (root : Root) (queue : SaveQueue NodeRef) :
    (root.setQueue queue).queue? = root.queue?.map fun _ => queue := by
  cases root <;> rfl

@[simp] theorem setQueue_setQueue (root : Root) (queue queue' : SaveQueue NodeRef) :
    (root.setQueue queue).setQueue queue' = root.setQueue queue' := by
  cases root <;> rfl

end Root

namespace Scene

variable (r : RootRef) (mode : SaveMode)

/-- The next step of the worker: it begins a pass, saves one node, or ends the pass. -/
def tick (s : Scene κ) : Scene κ :=
  match s.round with
  | none =>
    let (todo, g) := s.graph.onQueue r fun s => (s.2.pending, s.1, SaveQueue.empty)
    { graph := g, round := todo.map ({ todo := · }) }
  | some { todo := [], retry } =>
    { graph := (s.graph.onQueue r fun s => ((), s.1, s.2.pushAll retry)).2, round := none }
  | some { todo := (id, n) :: todo, retry } =>
    if (s.graph.node? n).isSome then
      let (outcome, g) := Run.answered (Graph.save n mode s.graph)
      let retry := if needsRetry outcome then retry ++ [(id, n)] else retry
      { graph := g, round := some { todo, retry } }
    else { s with round := some { todo, retry } }

/-- What is done by others and by the worker, in the order in which it happens. -/
def step (s : Scene κ) : WorkEvent κ → Scene κ
  | .update n change => { s with graph := (Run.answered (Graph.update n change s.graph)).2 }
  | .schedule n => { s with graph := (s.graph.scheduleSave n).2 }
  | .tick => s.tick r mode

def run (events : List (WorkEvent κ)) (s : Scene κ) : Scene κ := events.foldl (step r mode) s

/-- So many steps of the worker, with nobody else in between. -/
def ticks (s : Scene κ) : Nat → Scene κ
  | 0 => s
  | n + 1 => (s.tick r mode).ticks n

/-- The worker ends the pass that is under way, if there is one. -/
def finish (s : Scene κ) : Scene κ :=
  match s.round with
  | none => s
  | some round => s.ticks r mode (round.todo.length + 1)

/-- The graph when the worker has been stopped: it ends the pass and makes one more. -/
def stop (s : Scene κ) : Graph κ := ((s.finish r mode).graph.processSaves r mode).2

end Scene

namespace Graph

section Saves
variable (g : Graph κ) (r : RootRef) (root : Root)

theorem setRoot_eq : g.setRoot r root =
    { g with roots :=
        if (g.root? r).isSome then g.roots.setIfInBounds r.index (some root) else g.roots } := by
  unfold setRoot
  cases g.root? r <;> rfl

theorem putCell_roots (n : NodeRef) (kind : κ) (s : StoreRef)
    (now : Cell (Values.Carrier kind) × Store) (roots : Array (Option Root)) :
    ({ g with roots } : Graph κ).putCell n kind s now =
      { g.putCell n kind s now with roots } := by
  unfold putCell setContent modifyNode
  cases there : ({ g with stores := g.stores.setIfInBounds s.index now.2 } : Graph κ).node? n with
  | none =>
    have there' : ({ g with roots, stores := g.stores.setIfInBounds s.index now.2 } :
        Graph κ).node? n = none := there
    rw [there']
  | some node =>
    have there' : ({ g with roots, stores := g.stores.setIfInBounds s.index now.2 } :
        Graph κ).node? n = some node := there
    rw [there']

theorem save_roots (n : NodeRef) (mode : SaveMode) (roots : Array (Option Root)) :
    Run.answered (save n mode { g with roots }) =
      ((Run.answered (save n mode g)).1, { (Run.answered (save n mode g)).2 with roots }) := by
  have content : ({ g with roots } : Graph κ).content? n = g.content? n := rfl
  simp only [save, onCell, Run.bind_apply, Run.get_apply, content]
  rcases g.content? n with _ | b | ⟨kind, value⟩ | ⟨kind, items⟩ | ⟨kind, cell, s⟩
  · rfl
  · rfl
  · rfl
  · rfl
  · cases found : g.stores[s.index]? with
    | none => simp only [withCell, found, Run.answered_error]
    | some store =>
      have found' : ({ g with roots } : Graph κ).stores[s.index]? = some store := found
      dsimp only
      rw [withCell_eq g found, withCell_eq _ found']
      cases Cell.save (Values.codec kind) mode (cell, store) with
      | ok outcome now => simp only [Run.answered_ok, putCell_roots]
      | error e now => simp only [Run.answered_error, putCell_roots]

theorem roots_save (n : NodeRef) (mode : SaveMode) :
    (Run.answered (save n mode g)).2.roots = g.roots := by
  have same := congrArg (fun a => a.2.roots) (g.save_roots n mode g.roots)
  exact same

theorem save_setRoot (n : NodeRef) (mode : SaveMode) :
    Run.answered (save n mode (g.setRoot r root)) =
      ((Run.answered (save n mode g)).1, (Run.answered (save n mode g)).2.setRoot r root) := by
  have roots := g.roots_save n mode
  rw [setRoot_eq, save_roots, setRoot_eq, root?_of_roots roots, roots]

theorem setRoot_setRoot (root' : Root) : (g.setRoot r root).setRoot r root' = g.setRoot r root' := by
  rw [setRoot_eq (g.setRoot r root), root?_setRoot, if_pos rfl, setRoot_eq g r root,
    setRoot_eq g r root']
  cases g.root? r with
  | none => rfl
  | some old => simp

end Saves

section Batches
variable {r : RootRef} {mode : SaveMode}

theorem isAlive_setRoot (g : Graph κ) (r : RootRef) (root : Root) (n : NodeRef) :
    nodesOf.isAlive (g.setRoot r root) n = nodesOf.isAlive g n := by
  simp only [nodesOf, node?, nodes_setRoot]

theorem nodesOf_save (g : Graph κ) (q : SaveQueue NodeRef) (n : NodeRef) (mode : SaveMode) :
    nodesOf.save n mode (g, q) =
      ((Run.answered (save n mode g)).1, (Run.answered (save n mode g)).2, q) := by
  simp only [nodesOf]
  cases save n mode g <;> rfl

/-- A batch is saved alike whatever is queued meanwhile, and whatever the roots are. -/
theorem saveBatch_setRoot (g : Graph κ) (q q' : SaveQueue NodeRef) (root : Root)
    (todo : List (NodeId × NodeRef)) (report : SaveReport) :
    SaveQueue.saveBatch nodesOf mode todo report (g.setRoot r root, q') =
      let (report, retry, s) := SaveQueue.saveBatch nodesOf mode todo report (g, q)
      (report, retry, s.1.setRoot r root, q') := by
  induction todo generalizing g report with
  | nil => rfl
  | cons e todo ih =>
    obtain ⟨id, n⟩ := e
    simp only [SaveQueue.saveBatch, isAlive_setRoot]
    split
    · simp only [nodesOf_save, save_setRoot, ih]
    · exact ih g _

theorem roots_saveBatch (mode : SaveMode) (g : Graph κ) (q : SaveQueue NodeRef)
    (todo : List (NodeId × NodeRef)) (report : SaveReport) :
    (SaveQueue.saveBatch nodesOf mode todo report (g, q)).2.2.1.roots = g.roots ∧
      (SaveQueue.saveBatch nodesOf mode todo report (g, q)).2.2.2 = q := by
  induction todo generalizing g report with
  | nil => exact ⟨rfl, rfl⟩
  | cons e todo ih =>
    obtain ⟨id, n⟩ := e
    simp only [SaveQueue.saveBatch]
    split
    · simp only [nodesOf_save]
      obtain ⟨roots, queue⟩ := ih (Run.answered (save n mode g)).2 (report.count _)
      exact ⟨roots.trans (g.roots_save n mode), queue⟩
    · exact ih g _

end Batches

end Graph

namespace Scene

variable {r : RootRef} {mode : SaveMode}

theorem ticks_add (s : Scene κ) (n m : Nat) :
    s.ticks r mode (n + m) = (s.ticks r mode n).ticks r mode m := by
  induction n generalizing s with
  | zero => rw [Nat.zero_add, ticks]
  | succ n ih => rw [Nat.succ_add, ticks, ticks, ih]

/-- What is left of a pass is the rest of its batch, and then what is put back. -/
theorem ticks_round (g : Graph κ) (q : SaveQueue NodeRef) (todo retry : List (NodeId × NodeRef))
    (report : SaveReport) :
    ticks r mode { graph := g, round := some { todo, retry } } (todo.length + 1) =
      let (_, again, s) := SaveQueue.saveBatch Graph.nodesOf mode todo report (g, q)
      { graph := (s.1.onQueue r fun s => ((), s.1, s.2.pushAll (retry ++ again))).2 } := by
  induction todo generalizing g retry report with
  | nil => simp only [ticks, tick, List.length_nil, SaveQueue.saveBatch, List.append_nil]
  | cons e todo ih =>
    obtain ⟨id, n⟩ := e
    rw [List.length_cons, ticks]
    by_cases alive : (g.node? n).isSome
    · have alive' : Graph.nodesOf.isAlive g n = true := alive
      simp only [tick, alive, if_true, SaveQueue.saveBatch, alive', Graph.nodesOf_save]
      rw [ih (Run.answered (Graph.save n mode g)).2 _
        (report.count (Run.answered (Graph.save n mode g)).1)]
      by_cases again : needsRetry (Run.answered (Graph.save n mode g)).1 = true
      · simp only [again, if_true, List.append_assoc, List.singleton_append]
      · simp only [again]
        rfl
    · have dead : Graph.nodesOf.isAlive g n = false := Bool.eq_false_iff.mpr alive
      simp only [tick, alive, SaveQueue.saveBatch, dead]
      exact ih g _ _

/-- A pass that is made step by step, with nobody else in between, is a pass of the queue. -/
theorem finish_tick {g : Graph κ} {root : Root} {q : SaveQueue NodeRef}
    (live : g.root? r = some root) (queue : root.queue? = some q) :
    (({ graph := g } : Scene κ).tick r mode).finish r mode =
      { graph := (g.processSaves r mode).2 } := by
  have queue' : (root.setQueue SaveQueue.empty).queue? = some SaveQueue.empty := by
    rw [Root.queue?_setQueue, queue]
    rfl
  obtain ⟨roots, left⟩ := Graph.roots_saveBatch mode g SaveQueue.empty q.pending {}
  simp only [tick, Graph.onQueue, live, queue, Option.map_some, finish]
  rw [ticks_round _ SaveQueue.empty _ _ {}, Graph.saveBatch_setRoot g SaveQueue.empty]
  simp only [Graph.processSaves, Graph.onQueue, live, queue, SaveQueue.process]
  generalize SaveQueue.saveBatch Graph.nodesOf mode q.pending {} (g, SaveQueue.empty) = result
    at roots left ⊢
  obtain ⟨report, again, g', q'⟩ := result
  dsimp only at roots left ⊢
  have live' : (g'.setRoot r (root.setQueue SaveQueue.empty)).root? r =
      some (root.setQueue SaveQueue.empty) := by
    rw [Graph.root?_setRoot, if_pos rfl, Graph.root?_of_roots roots, live]
    rfl
  rw [live']
  dsimp only
  rw [queue']
  dsimp only
  rw [Graph.setRoot_setRoot, Root.setQueue_setQueue, left, List.nil_append]

end Scene

end GraphJournal
