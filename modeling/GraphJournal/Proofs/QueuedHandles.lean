import Mathlib.Data.List.Nodup
import GraphJournal.Proofs.QueueRun

/-!
# Handles that wait in a save queue

A queue tells nodes apart by their identities, and a handle stays queued when its node is gone. So a
live node that is pushed waits to be saved, by its own handle or by that of another live node with
its identity, unless a dead one with that identity is still queued. Then it is NOT queued.
-/
namespace GraphJournal

set_option autoImplicit false

namespace SaveQueue

variable {ν σ : Type}

def HoldsLive (nodes : Nodes ν σ) (id : NodeId) (s : σ × SaveQueue ν) : Prop :=
  ∃ e ∈ s.2.pending, e.1 = id ∧ nodes.isAlive s.1 e.2 = true

/-- What is queued for the identity is the handle of a dead node. -/
def Blocked (nodes : Nodes ν σ) (id : NodeId) (s : σ × SaveQueue ν) : Prop :=
  ∃ e ∈ s.2.pending, e.1 = id ∧ nodes.isAlive s.1 e.2 = false

def Call.isPass : Call ν σ → Bool
  | process _ => true
  | push _ _ | meanwhile _ => false

/-- A pass comes to a node with this identity that was alive at its start, and saves it unless it
has died by then. -/
def Serves (nodes : Nodes ν σ) (pushes : Pushes ν σ) (mode : SaveMode) (id : NodeId)
    (s : σ × SaveQueue ν) (turns : List (Turn ν)) : Prop :=
  ∃ front turn back now, turns = front ++ turn :: back ∧ turn.entry.1 = id ∧
    nodes.isAlive s.1 turn.entry.2 = true ∧ Course nodes pushes mode (s.1, empty) front now ∧
    turn.fate = if nodes.isAlive now.1 turn.entry.2 then
      .ofAnswer (nodes.save turn.entry.2 mode now).1 else .dropped

theorem Tidy.eq_of_id {q : SaveQueue ν} (tidy : q.Tidy) {e e' : NodeId × ν} (mem : e ∈ q.pending)
    (mem' : e' ∈ q.pending) (same : e.1 = e'.1) : e = e' :=
  List.inj_on_of_nodup_map tidy.distinct mem mem' same

theorem push_queued {q : SaveQueue ν} {id : NodeId} (queued : id ∈ q.queued) (node : ν) :
    q.push id node = (false, q) :=
  if_pos queued

theorem push_fresh {q : SaveQueue ν} {id : NodeId} (fresh : id ∉ q.queued) (node : ν) :
    q.push id node =
      (true, { pending := q.pending ++ [(id, node)], queued := id :: q.queued }) :=
  if_neg fresh

theorem mem_push {q : SaveQueue ν} {e : NodeId × ν} (mem : e ∈ q.pending) (id : NodeId) (node : ν) :
    e ∈ (q.push id node).2.pending := by
  by_cases queued : id ∈ q.queued
  · rw [push_queued queued]
    exact mem
  · rw [push_fresh queued]
    exact List.mem_append_left _ mem

section Pushing
variable {nodes : Nodes ν σ} {id : NodeId} {node : ν} {s : σ × SaveQueue ν} (tidy : s.2.Tidy)
include tidy

theorem queued_of_blocked (blocked : Blocked nodes id s) : id ∈ s.2.queued := by
  obtain ⟨e, mem, rfl, -⟩ := blocked
  exact (tidy.marked e.1).mpr (List.mem_map_of_mem mem)

/-- The identity is queued once, so the handle that is there decides. -/
theorem holdsLive_push_iff (id : NodeId) (alive : nodes.isAlive s.1 node = true) :
    HoldsLive nodes id (s.1, (s.2.push id node).2) ↔ ¬ Blocked nodes id s := by
  by_cases queued : id ∈ s.2.queued
  · obtain ⟨e, mem, same⟩ := List.mem_map.mp ((tidy.marked id).mp queued)
    rw [push_queued queued]
    constructor
    · rintro ⟨e₁, mem₁, same₁, live⟩ ⟨e₂, mem₂, same₂, dead⟩
      have one := tidy.eq_of_id mem₁ mem₂ (same₁.trans same₂.symm)
      rw [one, dead] at live
      cases live
    · intro free
      cases live : nodes.isAlive s.1 e.2 with
      | true => exact ⟨e, mem, same, live⟩
      | false => exact absurd ⟨e, mem, same, live⟩ free
  · have free : ¬ Blocked nodes id s := fun blocked => queued (queued_of_blocked tidy blocked)
    rw [push_fresh queued]
    refine iff_of_true ⟨(id, node), ?_, rfl, alive⟩ free
    exact List.mem_append_right _ List.mem_cons_self

end Pushing

section Waiting
variable {nodes : Nodes ν σ} {pushes : Pushes ν σ} {mode : SaveMode} {s s' : σ × SaveQueue ν}

theorem mem_run {calls : List (Call ν σ)} (noPass : ∀ c ∈ calls, c.isPass = false)
    {e : NodeId × ν} (mem : e ∈ s.2.pending) : e ∈ (run nodes calls s).2.pending := by
  induction calls generalizing s with
  | nil => exact mem
  | cons c calls ih =>
    have rest : ∀ c' ∈ calls, c'.isPass = false := fun c' mem' =>
      noPass c' (List.mem_cons_of_mem c mem')
    have next : e ∈ (call nodes c s).2.pending := by
      cases c with
      | push id node => exact mem_push mem id node
      | process mode => cases noPass (.process mode) List.mem_cons_self
      | meanwhile change => exact mem
    exact ih rest next

theorem course_split {front back : List (Turn ν)} {turn : Turn ν}
    (course : Course nodes pushes mode s (front ++ turn :: back) s') :
    ∃ now, Course nodes pushes mode s front now ∧
      turn.fate = if nodes.isAlive now.1 turn.entry.2 then
        .ofAnswer (nodes.save turn.entry.2 mode now).1 else .dropped := by
  induction front generalizing s with
  | nil =>
    cases course with
    | dropped dead course => exact ⟨s, .done s, by rw [dead]; rfl⟩
    | saved alive course => exact ⟨s, .done s, by rw [alive]; rfl⟩
  | cons first front ih =>
    cases course with
    | dropped dead course =>
      obtain ⟨now, before, fate⟩ := ih course
      exact ⟨now, .dropped dead before, fate⟩
    | saved alive course =>
      obtain ⟨now, before, fate⟩ := ih course
      exact ⟨now, .saved alive before, fate⟩

theorem serves_of_holdsLive {id : NodeId} {turns : List (Turn ν)}
    {result : SaveReport × (σ × SaveQueue ν)} (pass : Pass nodes pushes mode s turns result)
    (holds : HoldsLive nodes id s) : Serves nodes pushes mode id s turns := by
  obtain ⟨e, mem, same, alive⟩ := holds
  rw [← pass.drained] at mem
  obtain ⟨turn, among, rfl⟩ := List.mem_map.mp mem
  obtain ⟨front, back, rfl⟩ := List.append_of_mem among
  obtain ⟨q, course⟩ := pass.course
  obtain ⟨now, before, fate⟩ := course_split course
  exact ⟨front, turn, back, now, rfl, same, alive, before, fate⟩

end Waiting

/-- However a queue has come about: a live node that is pushed waits to be saved, and the next pass
comes to it if nobody has died before, unless a dead handle blocks its identity. -/
theorem push_keeps_unless_blocked {nodes : Nodes ν σ} {pushes : Pushes ν σ}
    (only : nodes.OnlyPush pushes) {calls : List (Call ν σ)} {world : σ} {s : σ × SaveQueue ν}
    (reached : run nodes calls (world, empty) = s) (id : NodeId) {node : ν}
    (alive : nodes.isAlive s.1 node = true) :
    (HoldsLive nodes id (call nodes (.push id node) s) ↔ ¬ Blocked nodes id s) ∧
      (Blocked nodes id s → s.2.push id node = (false, s.2)) ∧
      (¬ Blocked nodes id s → ∀ later mode s', (∀ c ∈ later, Call.isPass c = false) →
        run nodes later (call nodes (.push id node) s) = s' →
        (∀ other, nodes.isAlive s.1 other = true → nodes.isAlive s'.1 other = true) →
        ∃ turns, Pass nodes pushes mode s' turns (process nodes mode s') ∧
          Serves nodes pushes mode id s' turns) := by
  have tidy : s.2.Tidy := by
    rw [← reached]
    exact tidy_run only calls tidy_empty
  have waits := holdsLive_push_iff tidy id alive
  refine ⟨waits, fun blocked => push_queued (queued_of_blocked tidy blocked) node, ?_⟩
  rintro free later mode s' noPass rfl survive
  obtain ⟨e, mem, same, live⟩ := waits.mpr free
  have tidy' := tidy_run only later (tidy_call only (.push id node) tidy)
  obtain ⟨turns, pass⟩ := pass_process mode only tidy'
  exact ⟨turns, pass, serves_of_holdsLive pass ⟨e, mem_run noPass mem, same, survive e.2 live⟩⟩

end SaveQueue

namespace SaveStage

open SaveQueue

/-- Two nodes with one identity. -/
def doubles : SaveStage where
  nodes := #[{ id := ⟨1⟩, script? := some [] }, { id := ⟨1⟩, script? := some [] }]
  names := [("a", 0), ("b", 1)]

/-- While both live, the second is not queued, and the pass saves the first. -/
theorem doubles_kept :
    nodesOf.OnlyPush pushes ∧
      nodesOf.isAlive (run nodesOf [.push ⟨1⟩ 0] (doubles, empty)).1 1 = true ∧
      ¬ Blocked nodesOf ⟨1⟩ (run nodesOf [.push ⟨1⟩ 0] (doubles, empty)) ∧
      HoldsLive nodesOf ⟨1⟩
        (call nodesOf (.push ⟨1⟩ 1) (run nodesOf [.push ⟨1⟩ 0] (doubles, empty))) ∧
      ∃ turns, Serves nodesOf pushes .tryRelease ⟨1⟩
        (call nodesOf (.push ⟨1⟩ 1) (run nodesOf [.push ⟨1⟩ 0] (doubles, empty))) turns := by
  have alive : nodesOf.isAlive (run nodesOf [.push ⟨1⟩ 0] (doubles, empty)).1 1 = true := by
    decide +kernel
  have free : ¬ Blocked nodesOf ⟨1⟩ (run nodesOf [.push ⟨1⟩ 0] (doubles, empty)) := by
    unfold Blocked
    decide +kernel
  obtain ⟨waits, -, next⟩ := push_keeps_unless_blocked onlyPush rfl ⟨1⟩ alive
  obtain ⟨turns, -, serves⟩ := next free [] .tryRelease _ nofun rfl fun _ live => live
  exact ⟨onlyPush, alive, free, waits.mpr free, turns, serves⟩

/-- The first of the doubles is pushed and then dropped. -/
def doublesCalls : List (Call Nat SaveStage) :=
  [.push ⟨1⟩ 0, .meanwhile fun stage => (stage.drop "a").2]

/-- The second one is pushed in vain, and the next pass saves nothing. -/
theorem doubles_lost :
    nodesOf.isAlive (run nodesOf doublesCalls (doubles, empty)).1 1 = true ∧
      ((run nodesOf doublesCalls (doubles, empty)).2.push ⟨1⟩ 1).1 = false ∧
      ¬ HoldsLive nodesOf ⟨1⟩
        (call nodesOf (.push ⟨1⟩ 1) (run nodesOf doublesCalls (doubles, empty))) ∧
      (process nodesOf .storeOnly
        (call nodesOf (.push ⟨1⟩ 1) (run nodesOf doublesCalls (doubles, empty)))).2.1.saves = [] := by
  unfold HoldsLive
  decide +kernel

end SaveStage

end GraphJournal
