import GraphJournal.Proofs.QueuedHandles
import GraphJournal.Proofs.Vaults
import GraphJournal.Proofs.WorkerPass

/-!
# The upkeep of queued nodes

Nodes are changed and queued by some calls, and a worker takes its steps anywhere between them. After
each step, a node that was queued and not changed since still waits, or its store has what is due of
it. Nodes that share an identity or are in use are NOT treated, nor writes that are refused.
-/
namespace GraphJournal

set_option autoImplicit false

open MessagePack

variable {κ : Type} [Values κ]

/-- The node is queued, and not changed after that. -/
def ScheduledLast (n : NodeRef) (calls : List (WorkEvent κ)) : Prop :=
  ∃ before after, calls = before ++ .schedule n :: after ∧
    ∀ change, WorkEvent.update n change ∉ after

/-- Whatever is changed is queued after its last change. -/
def Followed (calls : List (WorkEvent κ)) : Prop :=
  ∀ n change, WorkEvent.update n change ∈ calls → ScheduledLast n calls

section Calls
variable {n : NodeRef} {calls : List (WorkEvent κ)}

theorem ScheduledLast.snoc {e : WorkEvent κ} (last : ScheduledLast n (calls ++ [e])) :
    e = .schedule n ∨ (ScheduledLast n calls ∧ ∀ change, e ≠ .update n change) := by
  obtain ⟨before, after, split, unchanged⟩ := last
  rcases List.eq_nil_or_concat after with rfl | ⟨after, e', rfl⟩
  · left
    exact List.singleton_inj.mp (List.append_inj' split rfl).2
  · right
    rw [List.concat_eq_append] at split unchanged
    rw [← List.cons_append, ← List.append_assoc] at split
    obtain ⟨front, same⟩ := List.append_inj' split rfl
    cases List.singleton_inj.mp same
    refine ⟨⟨before, after, front, ?_⟩, ?_⟩
    · intro change mem
      exact unchanged change (List.mem_append_left _ mem)
    · rintro change rfl
      exact unchanged change (List.mem_append_right _ List.mem_cons_self)

theorem ScheduledLast.scheduled (last : ScheduledLast n calls) : WorkEvent.schedule n ∈ calls := by
  obtain ⟨before, after, rfl, -⟩ := last
  exact List.mem_append_right _ List.mem_cons_self

/-- What is queued at all is queued after its last change. -/
theorem Followed.scheduledLast (followed : Followed calls)
    (mem : WorkEvent.schedule n ∈ calls) : ScheduledLast n calls := by
  obtain ⟨before, after, split⟩ := List.append_of_mem mem
  by_cases changed : ∃ change, WorkEvent.update n change ∈ after
  · obtain ⟨change, again⟩ := changed
    refine followed n change ?_
    rw [split]
    exact List.mem_append_right _ (List.mem_cons_of_mem _ again)
  · exact ⟨before, after, split, fun change again => changed ⟨change, again⟩⟩

end Calls

/-- The call is about one of these nodes. -/
def WorkEvent.On (vaults : List (Vault κ)) : WorkEvent κ → Prop
  | update n _ | schedule n => ∃ vault ∈ vaults, vault.node = n
  | tick => True

/-- Nobody holds the node, it is told the root, its values are read back when they are written, and
its store accepts every write. -/
structure Vault.Idle (vault : Vault κ) (r : RootRef) (g : Graph κ) : Prop where
  shape : g.shape? vault.node =
    some (.persistent vault.kind vault.id vault.config vault.lock vault.store)
  free : vault.lock = {}
  told : (g.links vault.node).root = some vault.root
  root : vault.root = r
  undoes : (Values.codec vault.kind).Undoes vault.config.layout
  accepts : ∃ store, g.stores[vault.store.index]? = some store ∧ store.Accepts

/-- Such nodes, with identities of their own. -/
structure Bank (vaults : List (Vault κ)) (r : RootRef) (g : Graph κ) : Prop where
  distinct : (vaults.map Vault.id).Nodup
  idle : ∀ vault ∈ vaults, vault.Idle r g

namespace Vault

def entry (vault : Vault κ) : NodeId × NodeRef := (vault.id, vault.node)

/-- The store has what is due of the value, and where a save releases, only the store has it. -/
def Settled (vault : Vault κ) (mode : SaveMode) (s : Cell (Values.Carrier vault.kind) × Store) :
    Prop :=
  LawfulStore.kept s.2 vault.id = Cell.due (Values.codec vault.kind) s ∧
    (mode.releases = true → s.1.state = .released)

end Vault

namespace Bank

variable {vaults : List (Vault κ)} {r : RootRef} {g : Graph κ} (bank : Bank vaults r g)
  {vault other : Vault κ} (mem : vault ∈ vaults) (mem' : other ∈ vaults)
include bank mem mem'

theorem eq_of_id (same : other.id = vault.id) : other = vault :=
  List.inj_on_of_nodup_map bank.distinct mem' mem same

theorem eq_of_node (same : other.node = vault.node) : other = vault := by
  have shape := (bank.idle other mem').shape
  rw [same, (bank.idle vault mem).shape] at shape
  simp only [Option.some.injEq, Shape.persistent.injEq] at shape
  exact bank.eq_of_id mem mem' shape.2.1.symm

end Bank

namespace Scene

variable (r : RootRef)

def queue? (s : Scene κ) : Option (SaveQueue NodeRef) := (s.graph.root? r).bind Root.queue?

/-- What is still to be saved: the rest of the pass, and what is queued. -/
def waiting (s : Scene κ) : List (NodeId × NodeRef) :=
  (s.round.elim [] Round.todo) ++ (s.queue? r).elim [] SaveQueue.pending

end Scene

namespace Root

theorem queue?_requeued {g : Graph κ} {r : RootRef} {root : Root} {q : SaveQueue NodeRef}
    (live : g.root? r = some root) (queue : root.queue? = some q) (q' : SaveQueue NodeRef) :
    ((g.setRoot r (root.setQueue q')).root? r).bind Root.queue? = some q' := by
  rw [Graph.root?_setRoot, if_pos rfl, live, Option.map_some, Option.bind_some, queue?_setQueue,
    queue]
  rfl

end Root

/-- What is known of a node of the bank while the worker goes on. -/
structure Vault.Cared (vault : Vault κ) (r : RootRef) (mode : SaveMode) (g₀ : Graph κ)
    (calls : List (WorkEvent κ)) (s : Scene κ) (now : Cell (Values.Carrier vault.kind) × Store) :
    Prop where
  stands : vault.Stands s.graph now
  accepts : now.2.Accepts
  holds : (g₀.held? vault.node).isSome → (Cell.logical? (Values.codec vault.kind) now).isSome
  /-- The last request has been carried out, unless it still waits. -/
  settled : ScheduledLast vault.node calls → vault.entry ∉ s.waiting r → vault.Settled mode now

/-- What each step preserves, of the worker and of others. The calls are those made so far. -/
structure Upkeep (vaults : List (Vault κ)) (r : RootRef) (mode : SaveMode) (g₀ : Graph κ)
    (calls : List (WorkEvent κ)) (s : Scene κ) : Prop where
  skeleton : s.graph.skeleton = g₀.skeleton
  queue : ∃ q, s.queue? r = some q ∧ q.Tidy
  retry : ∀ round, s.round = some round → round.retry = []
  known : ∀ e ∈ s.waiting r, ∃ vault ∈ vaults, e = vault.entry ∧ .schedule vault.node ∈ calls
  cared : ∀ vault ∈ vaults, ∃ now, vault.Cared r mode g₀ calls s now

section Frames
variable {vaults : List (Vault κ)} {r : RootRef} {mode : SaveMode} {g₀ : Graph κ}
  {calls calls' : List (WorkEvent κ)} {s s' : Scene κ} {vault : Vault κ}

theorem Vault.Cared.leftAlone {now : Cell (Values.Carrier vault.kind) × Store}
    (cared : vault.Cared r mode g₀ calls s now) (alone : vault.LeftAlone s.graph s'.graph)
    (still : ScheduledLast vault.node calls' → vault.entry ∉ s'.waiting r →
      ScheduledLast vault.node calls ∧ vault.entry ∉ s.waiting r) :
    ∃ now', vault.Cared r mode g₀ calls' s' now' := by
  obtain ⟨store', stands, later, same⟩ := alone now cared.stands
  rw [← cared.stands.id] at same
  refine ⟨(now.1, store'), stands, cared.accepts.later later, ?_, ?_⟩
  · intro held
    rw [Cell.logical?_congr same]
    exact cared.holds held
  · intro last gone
    obtain ⟨before, gone⟩ := still last gone
    obtain ⟨kept, released⟩ := cared.settled before gone
    refine ⟨?_, released⟩
    rw [Cell.due_congr same, ← kept, ← cared.stands.id, same]

end Frames

section Steps
variable {vaults : List (Vault κ)} {r : RootRef} {mode : SaveMode} {g₀ : Graph κ}
  {calls : List (WorkEvent κ)} {s : Scene κ} {vault : Vault κ}

/-- The steps that a worker can take. -/
inductive Ticked (vaults : List (Vault κ)) (r : RootRef) (mode : SaveMode) (s : Scene κ) :
    Scene κ → Prop
  | begun {root : Root} {q : SaveQueue NodeRef} (idle : s.round = none)
      (live : s.graph.root? r = some root) (queue : root.queue? = some q) :
      Ticked vaults r mode s
        { graph := s.graph.setRoot r (root.setQueue .empty), round := some { todo := q.pending } }
  | saved {vault : Vault κ} {todo : List (NodeId × NodeRef)} (mem : vault ∈ vaults)
      (round : s.round = some { todo := vault.entry :: todo }) :
      Ticked vaults r mode s
        { graph := (Run.answered (Graph.save vault.node mode s.graph)).2, round := some { todo } }
  | ended {root : Root} {q : SaveQueue NodeRef} (finished : s.round = some { todo := [] })
      (live : s.graph.root? r = some root) (queue : root.queue? = some q) :
      Ticked vaults r mode s { graph := s.graph.setRoot r (root.setQueue q) }

theorem Upkeep.ticked (bank : Bank vaults r g₀) (upkeep : Upkeep vaults r mode g₀ calls s) :
    Ticked vaults r mode s (s.tick r mode) := by
  obtain ⟨q, there, -⟩ := upkeep.queue
  obtain ⟨root, live, queue⟩ := Option.bind_eq_some_iff.mp there
  obtain ⟨graph, round⟩ := s
  dsimp only at live
  rcases round with _ | ⟨_ | ⟨e, todo⟩, retry⟩
  · simp only [Scene.tick, Graph.onQueue, live, queue, Option.map_some]
    exact .begun rfl live queue
  · obtain rfl : retry = [] := upkeep.retry _ rfl
    simp only [Scene.tick, Graph.onQueue, live, queue]
    exact .ended rfl live queue
  · obtain rfl : retry = [] := upkeep.retry _ rfl
    obtain ⟨vault, mem, rfl, -⟩ := upkeep.known e List.mem_cons_self
    obtain ⟨now, cared⟩ := upkeep.cared vault mem
    obtain ⟨outcome, store', saved, persisted, -, -⟩ := Vault.save_tended cared.stands
      (bank.idle vault mem).undoes cared.accepts mode
    have alive : (graph.node? vault.node).isSome := by
      obtain ⟨node, found, -⟩ := Option.map_eq_some_iff.mp cared.stands.content
      rw [found]
      rfl
    have done : needsRetry (Run.answered (Graph.save vault.node mode graph)).1 = false := by
      rw [saved, needsRetry, persisted]
      rfl
    simp only [Scene.tick, Vault.entry, alive, if_true, done]
    exact .saved mem rfl

section Moves
variable (upkeep : Upkeep vaults r mode g₀ calls s) {calls' : List (WorkEvent κ)}
  {round : Option Round} (retry : ∀ next, round = some next → next.retry = [])
include upkeep retry

/-- What waits has been moved or has become more, and nothing else has been done. -/
theorem Upkeep.requeue {root : Root} {q q' : SaveQueue NodeRef}
    (live : s.graph.root? r = some root) (queue : root.queue? = some q) (tidy : q'.Tidy)
    (known : ∀ e ∈ round.elim [] Round.todo ++ q'.pending, ∃ vault ∈ vaults,
      e = vault.entry ∧ .schedule vault.node ∈ calls')
    (still : ∀ vault ∈ vaults, ScheduledLast vault.node calls' →
      vault.entry ∉ round.elim [] Round.todo ++ q'.pending →
        ScheduledLast vault.node calls ∧ vault.entry ∉ s.waiting r) :
    Upkeep vaults r mode g₀ calls' { graph := s.graph.setRoot r (root.setQueue q'), round } := by
  have there : Scene.queue? r { graph := s.graph.setRoot r (root.setQueue q'), round } = some q' :=
    Root.queue?_requeued live queue q'
  have waiting : Scene.waiting r { graph := s.graph.setRoot r (root.setQueue q'), round } =
      round.elim [] Round.todo ++ q'.pending := by
    rw [Scene.waiting, there, Option.elim_some]
  refine ⟨?_, ⟨q', there, tidy⟩, retry, ?_, ?_⟩
  · rw [Graph.skeleton_of_nodes (Graph.nodes_setRoot _ _ _), upkeep.skeleton]
  · rw [waiting]
    exact known
  · intro vault mem
    obtain ⟨now, cared⟩ := upkeep.cared vault mem
    refine cared.leftAlone (Vault.leftAlone_of_same (Graph.nodes_setRoot _ _ _)
      (Graph.stores_setRoot _ _ _)) ?_
    rw [waiting]
    exact still vault mem

theorem Upkeep.move {root : Root} {q q' : SaveQueue NodeRef}
    (live : s.graph.root? r = some root) (queue : root.queue? = some q) (tidy : q'.Tidy)
    (same : s.waiting r = round.elim [] Round.todo ++ q'.pending) :
    Upkeep vaults r mode g₀ calls { graph := s.graph.setRoot r (root.setQueue q'), round } := by
  refine upkeep.requeue retry live queue tidy ?_ ?_
  · rw [← same]
    exact upkeep.known
  · rw [← same]
    exact fun vault _ last gone => ⟨last, gone⟩

/-- One node has been tended, and the others have been left alone. -/
theorem Upkeep.tend (bank : Bank vaults r g₀) (mem : vault ∈ vaults) {g' : Graph κ}
    {before after : Cell (Values.Carrier vault.kind) × Store}
    (tended : vault.Tended s.graph g' before after)
    (queue : (g'.root? r).bind Root.queue? = s.queue? r)
    (known : ∀ e ∈ Scene.waiting r { graph := g', round }, ∃ vault ∈ vaults,
      e = vault.entry ∧ .schedule vault.node ∈ calls')
    (still : ∀ other ∈ vaults, other ≠ vault → ScheduledLast other.node calls' →
      ScheduledLast other.node calls ∧
        (other.entry ∈ s.waiting r → other.entry ∈ Scene.waiting r { graph := g', round }))
    (cared : vault.Cared r mode g₀ calls' { graph := g', round } after) :
    Upkeep vaults r mode g₀ calls' { graph := g', round } := by
  obtain ⟨q, there, tidy⟩ := upkeep.queue
  refine ⟨tended.skeleton.trans upkeep.skeleton, ⟨q, queue.trans there, tidy⟩, retry, known, ?_⟩
  intro other mem'
  by_cases same : other = vault
  · subst same
    exact ⟨after, cared⟩
  · obtain ⟨now, cared'⟩ := upkeep.cared other mem'
    refine cared'.leftAlone (tended.leftAlone (mt (bank.eq_of_id mem mem') same)) ?_
    intro last gone
    obtain ⟨before, waits⟩ := still other mem' same last
    exact ⟨before, mt waits gone⟩

end Moves

theorem Upkeep.save (bank : Bank vaults r g₀) (upkeep : Upkeep vaults r mode g₀ calls s)
    (mem : vault ∈ vaults) {todo : List (NodeId × NodeRef)}
    (round : s.round = some { todo := vault.entry :: todo }) :
    Upkeep vaults r mode g₀ calls
      { graph := (Run.answered (Graph.save vault.node mode s.graph)).2, round := some { todo } } := by
  obtain ⟨now, cared⟩ := upkeep.cared vault mem
  have undoes := (bank.idle vault mem).undoes
  obtain ⟨outcome, store', -, -, tended, kept, due⟩ :=
    Vault.save_tended cared.stands undoes cared.accepts mode
  have queue := congrArg (·.bind Root.queue?)
    (Graph.root?_of_roots (s.graph.roots_save vault.node mode) r)
  generalize (Run.answered (Graph.save vault.node mode s.graph)).2 = g' at tended queue ⊢
  have fewer : s.waiting r =
      vault.entry :: Scene.waiting r { graph := g', round := some { todo } } := by
    rw [Scene.waiting, Scene.waiting, round, Scene.queue?, Scene.queue?, queue]
    rfl
  refine upkeep.tend ?_ bank mem tended queue ?_ ?_ ⟨tended.now, ?_, ?_, fun _ _ => ⟨?_, ?_⟩⟩
  · rintro _ ⟨⟩
    rfl
  · intro e there
    apply upkeep.known
    rw [fewer]
    exact List.mem_cons_of_mem _ there
  · intro other mem' apart last
    refine ⟨last, ?_⟩
    rw [fewer]
    intro there
    rcases List.mem_cons.mp there with same | there
    · exact absurd (bank.eq_of_id mem mem' (congrArg Prod.fst same)) apart
    · exact there
  · exact cared.accepts.later tended.later
  · intro held
    rw [← cared.stands.config] at undoes
    rw [Cell.logical?_of_due undoes due rfl]
    exact cared.holds held
  · rw [due, ← kept]
  · intro releases
    exact if_pos releases

theorem Upkeep.tick (bank : Bank vaults r g₀) (upkeep : Upkeep vaults r mode g₀ calls s) :
    Upkeep vaults r mode g₀ calls (s.tick r mode) := by
  have ticked := upkeep.ticked bank
  generalize s.tick r mode = s' at ticked
  cases ticked with
  | @begun root q idle live queue =>
    refine upkeep.move ?_ live queue SaveQueue.tidy_empty ?_
    · rintro _ ⟨⟩
      rfl
    · rw [Scene.waiting, idle, Scene.queue?, live, Option.bind_some, queue]
      exact (List.append_nil _).symm
  | saved mem round => exact upkeep.save bank mem round
  | @ended root q finished live queue =>
    obtain ⟨q', there, tidy⟩ := upkeep.queue
    rw [Scene.queue?, live, Option.bind_some, queue] at there
    cases there
    refine upkeep.move ?_ live queue tidy ?_
    · rintro _ ⟨⟩
    · rw [Scene.waiting, finished, Scene.queue?, live, Option.bind_some, queue]
      rfl

theorem Upkeep.known_append (upkeep : Upkeep vaults r mode g₀ calls s)
    (more : List (WorkEvent κ)) {e : NodeId × NodeRef} (waits : e ∈ s.waiting r) :
    ∃ vault ∈ vaults, e = vault.entry ∧ .schedule vault.node ∈ calls ++ more := by
  obtain ⟨vault, mem, same, scheduled⟩ := upkeep.known e waits
  exact ⟨vault, mem, same, List.mem_append_left _ scheduled⟩

/-- A node has been changed: its value is where it was, and no request since has been carried out. -/
theorem Upkeep.update (bank : Bank vaults r g₀) (upkeep : Upkeep vaults r mode g₀ calls s)
    (mem : vault ∈ vaults) (change : Change κ) :
    Upkeep vaults r mode g₀ (calls ++ [.update vault.node change])
      (s.step r mode (.update vault.node change)) := by
  obtain ⟨now, cared⟩ := upkeep.cared vault mem
  obtain ⟨after, tended, same, queues, holds⟩ := (Vault.updated cared.stands change).tended
  simp only [Scene.step]
  generalize (Run.answered (Graph.update vault.node change s.graph)).2 = g' at tended queues ⊢
  have waiting : Scene.waiting r { graph := g', round := s.round } = s.waiting r := by
    rw [Scene.waiting, Scene.waiting, Scene.queue?, Scene.queue?, queues]
  refine upkeep.tend upkeep.retry bank mem tended (queues r) ?_ ?_ ⟨tended.now, ?_, ?_, ?_⟩
  · exact fun e there => upkeep.known_append _ (waiting ▸ there)
  · intro other _ _ last
    rcases last.snoc with same | ⟨before, -⟩
    · cases same
    · exact ⟨before, fun there => waiting.symm ▸ there⟩
  · exact cared.accepts.later tended.later
  · exact fun held => holds (cared.holds held)
  · intro last _
    rcases last.snoc with same | ⟨-, unchanged⟩
    · cases same
    · exact absurd rfl (unchanged change)

theorem Upkeep.schedule (bank : Bank vaults r g₀) (upkeep : Upkeep vaults r mode g₀ calls s)
    (mem : vault ∈ vaults) :
    Upkeep vaults r mode g₀ (calls ++ [.schedule vault.node])
      (s.step r mode (.schedule vault.node)) := by
  obtain ⟨now, cared⟩ := upkeep.cared vault mem
  obtain ⟨q, there, tidy⟩ := upkeep.queue
  obtain ⟨root, live, queue⟩ := Option.bind_eq_some_iff.mp there
  have told : (s.graph.links vault.node).root = some r := by
    rw [Graph.links_congr upkeep.skeleton, (bank.idle vault mem).told, (bank.idle vault mem).root]
  have waiting : s.waiting r = s.round.elim [] Round.todo ++ q.pending := by
    rw [Scene.waiting, there]
    rfl
  have more {e : NodeId × NodeRef} (waits : e ∈ s.waiting r) :
      e ∈ s.round.elim [] Round.todo ++ (q.push vault.id vault.node).2.pending := by
    rw [waiting] at waits
    rcases List.mem_append.mp waits with mem | mem
    · exact List.mem_append_left _ mem
    · exact List.mem_append_right _ (SaveQueue.mem_push mem _ _)
  simp only [Scene.step, Vault.scheduleSave_eq cared.stands told live queue]
  refine upkeep.requeue upkeep.retry live queue (tidy.push _ _) ?_ ?_
  · intro e mem'
    by_cases queued : vault.id ∈ q.queued
    · rw [SaveQueue.push_queued queued, ← waiting] at mem'
      exact upkeep.known_append _ mem'
    · rw [SaveQueue.push_fresh queued, ← List.append_assoc, ← waiting] at mem'
      rcases List.mem_append.mp mem' with waits | new
      · exact upkeep.known_append _ waits
      · exact ⟨vault, mem, List.mem_singleton.mp new,
          List.mem_append_right _ List.mem_cons_self⟩
  · intro other mem' last gone
    rcases last.snoc with same | ⟨before, -⟩
    · refine absurd ?_ gone
      injection same with same
      obtain rfl := bank.eq_of_node mem mem' same.symm
      by_cases queued : other.id ∈ q.queued
      · -- Whatever is queued by this identity is this node.
        obtain ⟨e, listed, id⟩ := List.mem_map.mp ((tidy.marked other.id).mp queued)
        have waits : e ∈ s.waiting r := waiting ▸ List.mem_append_right _ listed
        obtain ⟨vault, mem'', rfl, -⟩ := upkeep.known e waits
        obtain rfl := bank.eq_of_id mem mem'' id
        exact more waits
      · rw [SaveQueue.push_fresh queued, ← List.append_assoc]
        exact List.mem_append_right _ List.mem_cons_self
    · exact ⟨before, mt more gone⟩

theorem Upkeep.run (bank : Bank vaults r g₀) {events : List (WorkEvent κ)}
    (on : ∀ e ∈ events, e.On vaults) (upkeep : Upkeep vaults r mode g₀ calls s) :
    Upkeep vaults r mode g₀ (calls ++ events.filter WorkEvent.isCall) (s.run r mode events) := by
  -- What has been called so far grows along the run, so it is not fixed.
  induction events generalizing calls s with
  | nil =>
    rw [List.filter_nil, List.append_nil]
    exact upkeep
  | cons e events ih =>
    have on' : ∀ e ∈ events, e.On vaults := fun e mem => on e (List.mem_cons_of_mem _ mem)
    cases e with
    | update n change =>
      obtain ⟨vault, mem, rfl⟩ := on _ List.mem_cons_self
      have next := ih on' (upkeep.update bank mem change)
      rwa [List.append_assoc] at next
    | schedule n =>
      obtain ⟨vault, mem, rfl⟩ := on _ List.mem_cons_self
      have next := ih on' (upkeep.schedule bank mem)
      rwa [List.append_assoc] at next
    | tick => exact ih on' (upkeep.tick bank)

theorem Upkeep.ticks (bank : Bank vaults r g₀) (upkeep : Upkeep vaults r mode g₀ calls s) (n : Nat) :
    Upkeep vaults r mode g₀ calls (s.ticks r mode n) := by
  induction n generalizing s with
  | zero => exact upkeep
  | succ n ih => exact ih (upkeep.tick bank)

/-- When the worker has ended a pass, the queue is what it was, as all saves have gone well. -/
theorem Upkeep.ticks_round (bank : Bank vaults r g₀) {todo : List (NodeId × NodeRef)}
    (upkeep : Upkeep vaults r mode g₀ calls s) (round : s.round = some { todo }) :
    (s.ticks r mode (todo.length + 1)).round = none ∧
      (s.ticks r mode (todo.length + 1)).queue? r = s.queue? r := by
  induction todo generalizing s with
  | nil =>
    have ticked := upkeep.ticked bank
    simp only [List.length_nil, Scene.ticks]
    generalize s.tick r mode = s' at ticked
    cases ticked with
    | begun idle => cases idle.symm.trans round
    | saved mem round' => cases round'.symm.trans round
    | ended finished live queue =>
      refine ⟨rfl, ?_⟩
      rw [Scene.queue?, Scene.queue?, Root.queue?_requeued live queue, live, Option.bind_some, queue]
  | cons e todo ih =>
    have upkeep' := upkeep.tick bank
    have ticked := upkeep.ticked bank
    rw [List.length_cons, Scene.ticks]
    generalize s.tick r mode = s' at ticked upkeep'
    cases ticked with
    | begun idle => cases idle.symm.trans round
    | saved mem round' =>
      cases round'.symm.trans round
      obtain ⟨finished, queue⟩ := ih upkeep' rfl
      refine ⟨finished, queue.trans ?_⟩
      rw [Scene.queue?, Scene.queue?, Graph.root?_of_roots (s.graph.roots_save _ mode)]
    | ended finished => cases finished.symm.trans round

theorem Upkeep.finish (bank : Bank vaults r g₀) (upkeep : Upkeep vaults r mode g₀ calls s) :
    ∃ n, s.finish r mode = s.ticks r mode n ∧ (s.finish r mode).round = none ∧
      (s.finish r mode).queue? r = s.queue? r := by
  unfold Scene.finish
  cases round : s.round with
  | none => exact ⟨0, rfl, round, rfl⟩
  | some next =>
    have retry := upkeep.retry next round
    obtain ⟨todo, _⟩ := next
    cases retry
    exact ⟨_, rfl, upkeep.ticks_round bank round⟩

/-- The stopped worker has taken some steps, after which nothing waits. -/
theorem Upkeep.stop (bank : Bank vaults r g₀) (upkeep : Upkeep vaults r mode g₀ calls s) :
    ∃ n, (s.ticks r mode n).graph = s.stop r mode ∧
      (s.ticks r mode n).queue? r = some .empty ∧ (s.ticks r mode n).waiting r = [] := by
  obtain ⟨n, first, idle, queue⟩ := upkeep.finish bank
  have upkeep₁ := upkeep.ticks bank n
  rw [← first] at upkeep₁
  -- The last pass takes what is queued, and leaves nothing.
  have upkeep₂ := upkeep₁.tick bank
  obtain ⟨m, second, finished, queue₂⟩ := upkeep₂.finish bank
  have whole : s.ticks r mode (n + 1 + m) =
      ((s.finish r mode).tick r mode).finish r mode := by
    rw [second, Scene.ticks_add, Scene.ticks_add, ← first]
    rfl
  obtain ⟨q, there, -⟩ := upkeep₁.queue
  obtain ⟨root, live, queued⟩ := Option.bind_eq_some_iff.mp there
  have empty : ((s.finish r mode).tick r mode).queue? r = some .empty := by
    have ticked := upkeep₁.ticked bank
    generalize (s.finish r mode).tick r mode = s' at ticked
    cases ticked with
    | begun _ live queue => exact Root.queue?_requeued live queue _
    | saved _ round => cases idle.symm.trans round
    | ended round => cases idle.symm.trans round
  refine ⟨n + 1 + m, ?_, ?_, ?_⟩
  · have same : s.finish r mode = { graph := (s.finish r mode).graph } := by
      rw [← idle]
    rw [whole, same, Scene.finish_tick live queued]
    rfl
  · rw [whole, queue₂, empty]
  · rw [whole, Scene.waiting, finished, queue₂, empty]
    rfl

end Steps

end GraphJournal
