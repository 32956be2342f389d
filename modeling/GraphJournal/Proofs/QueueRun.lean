import GraphJournal.SaveQueue.Scripted

/-!
# Runs of a save queue

Pushes and passes in any order, of nodes whose saves answer as they like and push onto the queue
while a pass goes on. The course of a pass is told turn by turn, and the queue that it leaves is told
from its course. What the saves store is no matter of this module.
-/
namespace GraphJournal

set_option autoImplicit false

namespace SaveQueue

variable {ν σ : Type}

def ids (entries : List (NodeId × ν)) : List NodeId := entries.map Prod.fst

/-- Every identity is listed once, and the marked identities are those that are listed. -/
structure Tidy (q : SaveQueue ν) : Prop where
  distinct : (ids q.pending).Nodup
  marked : ∀ id, id ∈ q.queued ↔ id ∈ ids q.pending

/-- For each identity that is not in `seen`, the first entry that has it. -/
def firsts (seen : List NodeId) : List (NodeId × ν) → List (NodeId × ν)
  | [] => []
  | e :: es => if e.1 ∈ seen then firsts seen es else e :: firsts (seen ++ [e.1]) es

section Firsts

@[simp] theorem ids_append (es es' : List (NodeId × ν)) : ids (es ++ es') = ids es ++ ids es' :=
  List.map_append

theorem mem_ids_firsts (seen : List NodeId) (es : List (NodeId × ν)) (id : NodeId) :
    id ∈ seen ++ ids (firsts seen es) ↔ id ∈ seen ++ ids es := by
  induction es generalizing seen with
  | nil => rfl
  | cons e es ih =>
    by_cases old : e.1 ∈ seen
    · have here : id = e.1 → id ∈ seen := fun same => same ▸ old
      rw [firsts, if_pos old, ih]
      simp only [ids, List.map_cons, List.mem_append, List.mem_cons]
      constructor
      · rintro (mem | mem)
        · exact Or.inl mem
        · exact Or.inr (Or.inr mem)
      · rintro (mem | mem | mem)
        · exact Or.inl mem
        · exact Or.inl (here mem)
        · exact Or.inr mem
    · have rest := ih (seen ++ [e.1])
      rw [firsts, if_neg old]
      simpa only [ids, List.map_cons, List.append_assoc, List.cons_append, List.nil_append] using rest

theorem mem_ids_firsts_nil (es : List (NodeId × ν)) (id : NodeId) :
    id ∈ ids (firsts [] es) ↔ id ∈ ids es :=
  mem_ids_firsts [] es id

theorem firsts_eq_filter {seen : List NodeId} {es : List (NodeId × ν)} (distinct : (ids es).Nodup) :
    firsts seen es = es.filter fun e => e.1 ∉ seen := by
  induction es generalizing seen with
  | nil => rfl
  | cons e es ih =>
    obtain ⟨unlike, distinct⟩ := List.nodup_cons.mp distinct
    by_cases old : e.1 ∈ seen
    · rw [firsts, if_pos old, ih distinct, List.filter_cons_of_neg (by simpa using old)]
    · rw [firsts, if_neg old, ih distinct, List.filter_cons_of_pos (by simpa using old)]
      congr 1
      apply List.filter_congr
      intro e' mem
      have apart : e'.1 ≠ e.1 := fun same => unlike (same ▸ List.mem_map_of_mem mem)
      simp [apart]

end Firsts

section Pushes

theorem pushAll_append (q : SaveQueue ν) (es es' : List (NodeId × ν)) :
    q.pushAll (es ++ es') = (q.pushAll es).pushAll es' :=
  List.foldl_append

theorem tidy_empty : (empty : SaveQueue ν).Tidy :=
  ⟨List.nodup_nil, fun _ => Iff.rfl⟩

theorem Tidy.push {q : SaveQueue ν} (tidy : q.Tidy) (id : NodeId) (node : ν) :
    (q.push id node).2.Tidy := by
  unfold SaveQueue.push
  split
  · exact tidy
  · rename_i fresh
    have unlisted : id ∉ ids q.pending := fun mem => fresh ((tidy.marked id).mpr mem)
    constructor
    · rw [ids_append, List.nodup_append]
      refine ⟨tidy.distinct, List.pairwise_singleton _ _, ?_⟩
      intro a ha b hb same
      have here : b = id := List.mem_singleton.mp hb
      exact unlisted (here ▸ same ▸ ha)
    · intro other
      simp only [ids_append, List.mem_cons, List.mem_append, tidy.marked other]
      rw [or_comm]
      exact or_congr_right List.mem_singleton.symm

theorem Tidy.pushAll {q : SaveQueue ν} (tidy : q.Tidy) (es : List (NodeId × ν)) :
    (q.pushAll es).Tidy := by
  induction es generalizing q with
  | nil => exact tidy
  | cons e es ih => exact ih (tidy.push e.1 e.2)

theorem pending_pushAll {q : SaveQueue ν} (tidy : q.Tidy) (es : List (NodeId × ν)) :
    (q.pushAll es).pending = q.pending ++ firsts (ids q.pending) es := by
  induction es generalizing q with
  | nil => exact (List.append_nil _).symm
  | cons e es ih =>
    have next : (q.pushAll (e :: es)).pending = ((q.push e.1 e.2).2.pushAll es).pending := rfl
    rw [next, ih (tidy.push e.1 e.2), firsts]
    by_cases old : e.1 ∈ ids q.pending
    · have there : e.1 ∈ q.queued := (tidy.marked e.1).mpr old
      simp only [SaveQueue.push, if_pos there, if_pos old]
    · have fresh : e.1 ∉ q.queued := fun mem => old ((tidy.marked e.1).mp mem)
      simp only [SaveQueue.push, if_neg fresh, if_neg old, ids_append, List.append_assoc]
      rfl

end Pushes

inductive Fate
  | stored
  | released
  | skipped
  | rejected
  | failed
  | dropped
  deriving DecidableEq

namespace Fate

def ofAnswer : Except Error SaveOutcome → Fate
  | .ok .stored => stored
  | .ok .released => released
  | .ok .skipped => skipped
  | .ok .rejected => rejected
  | .error _ => failed

def isRetried : Fate → Bool
  | skipped | rejected | failed => true
  | stored | released | dropped => false

theorem isRetried_ofAnswer (answer : Except Error SaveOutcome) :
    (ofAnswer answer).isRetried = needsRetry answer := by
  rcases answer with e | outcome
  · rfl
  · cases outcome <;> rfl

end Fate

/-- One entry's turn in a pass: what became of it, and what was pushed while it was saved. -/
structure Turn (ν : Type) where
  entry : NodeId × ν
  fate : Fate
  pushed : List (NodeId × ν) := []

/-- What each save pushes, in the order of the pushes. -/
abbrev Pushes (ν σ : Type) := ν → SaveMode → σ × SaveQueue ν → List (NodeId × ν)

/-- The saves push what `pushes` says, and touch the queue by that alone. -/
def Nodes.OnlyPush (nodes : Nodes ν σ) (pushes : Pushes ν σ) : Prop :=
  ∀ node mode s, (nodes.save node mode s).2.2 = s.2.pushAll (pushes node mode s)

/-- The turns of a pass, one after the other, from one state to another. An entry whose node is dead
when its turn comes is passed over; any other is saved, once. -/
inductive Course (nodes : Nodes ν σ) (pushes : Pushes ν σ) (mode : SaveMode) :
    σ × SaveQueue ν → List (Turn ν) → σ × SaveQueue ν → Prop
  | done (s : σ × SaveQueue ν) : Course nodes pushes mode s [] s
  | dropped {s s' : σ × SaveQueue ν} {turns : List (Turn ν)} {entry : NodeId × ν} :
      nodes.isAlive s.1 entry.2 = false → Course nodes pushes mode s turns s' →
      Course nodes pushes mode s ({ entry, fate := .dropped } :: turns) s'
  | saved {s s' : σ × SaveQueue ν} {turns : List (Turn ν)} {entry : NodeId × ν} :
      nodes.isAlive s.1 entry.2 = true →
      Course nodes pushes mode (nodes.save entry.2 mode s).2 turns s' →
      Course nodes pushes mode s
        ({ entry, fate := .ofAnswer (nodes.save entry.2 mode s).1
           pushed := pushes entry.2 mode s } :: turns) s'

def pushedIn (turns : List (Turn ν)) : List (NodeId × ν) := turns.flatMap (·.pushed)

def retriedIn (turns : List (Turn ν)) : List (NodeId × ν) :=
  (turns.filter fun t => t.fate.isRetried).map (·.entry)

def countOf (fate : Fate) (turns : List (Turn ν)) : Nat := turns.countP fun t => t.fate = fate

def reportOf (turns : List (Turn ν)) : SaveReport where
  stored := countOf .stored turns
  released := countOf .released turns
  skipped := countOf .skipped turns
  rejected := countOf .rejected turns
  failed := countOf .failed turns
  dropped := countOf .dropped turns

/-- A pass over the queue that `s` has, told by its turns. -/
structure Pass (nodes : Nodes ν σ) (pushes : Pushes ν σ) (mode : SaveMode) (s : σ × SaveQueue ν)
    (turns : List (Turn ν)) (result : SaveReport × (σ × SaveQueue ν)) : Prop where
  drained : turns.map (·.entry) = s.2.pending
  course : ∃ q, Course nodes pushes mode (s.1, empty) turns (result.2.1, q)
  report : result.1 = reportOf turns
  total : result.1.stored + result.1.released + result.1.skipped + result.1.rejected +
    result.1.failed + result.1.dropped = s.2.pending.length
  /-- First what was pushed meanwhile, then what has to be tried again and was not pushed. -/
  pending : result.2.2.pending = firsts [] (pushedIn turns) ++
    (retriedIn turns).filter fun e => e.1 ∉ ids (pushedIn turns)
  tidy : result.2.2.Tidy
  within : ∀ front back s', turns = front ++ back → Course nodes pushes mode (s.1, empty) front s' →
    s'.2.Tidy
  kept : ∀ e ∈ pushedIn turns ++ retriedIn turns, e.1 ∈ ids result.2.2.pending

section Courses
variable {nodes : Nodes ν σ} {pushes : Pushes ν σ} {mode : SaveMode} {s s' : σ × SaveQueue ν}
  {turns : List (Turn ν)}

theorem queue_of_course (only : nodes.OnlyPush pushes) (course : Course nodes pushes mode s turns s') :
    s'.2 = s.2.pushAll (pushedIn turns) := by
  induction course with
  | done => rfl
  | dropped dead course ih => exact ih
  | saved alive course ih =>
    rw [ih, only, ← pushAll_append]
    rfl

theorem total_reportOf (turns : List (Turn ν)) :
    countOf .stored turns + countOf .released turns + countOf .skipped turns +
      countOf .rejected turns + countOf .failed turns + countOf .dropped turns = turns.length := by
  induction turns with
  | nil => rfl
  | cons t turns ih =>
    rw [List.length_cons, ← ih]
    simp only [countOf, List.countP_cons]
    cases t.fate <;> simp <;> omega

theorem retriedIn_cons (t : Turn ν) (turns : List (Turn ν)) :
    retriedIn (t :: turns) = if t.fate.isRetried then t.entry :: retriedIn turns
      else retriedIn turns := by
  cases again : t.fate.isRetried <;> simp [retriedIn, again]

theorem ids_retriedIn (turns : List (Turn ν)) :
    (ids (retriedIn turns)).Sublist (ids (turns.map (·.entry))) :=
  (List.filter_sublist.map _).map _

end Courses

section Passes
variable {nodes : Nodes ν σ} {pushes : Pushes ν σ} (mode : SaveMode)

def addTurns (report : SaveReport) (turns : List (Turn ν)) : SaveReport where
  stored := report.stored + countOf .stored turns
  released := report.released + countOf .released turns
  skipped := report.skipped + countOf .skipped turns
  rejected := report.rejected + countOf .rejected turns
  failed := report.failed + countOf .failed turns
  dropped := report.dropped + countOf .dropped turns

theorem addTurns_dropped (report : SaveReport) (entry : NodeId × ν) (turns : List (Turn ν)) :
    addTurns report ({ entry, fate := .dropped } :: turns) =
      addTurns report.countDropped turns := by
  simp [addTurns, countOf, SaveReport.countDropped]
  omega

theorem addTurns_saved (report : SaveReport) (answer : Except Error SaveOutcome)
    (entry : NodeId × ν) (pushed : List (NodeId × ν)) (turns : List (Turn ν)) :
    addTurns report ({ entry, fate := .ofAnswer answer, pushed } :: turns) =
      addTurns (report.count answer) turns := by
  rcases answer with e | outcome
  · simp [addTurns, countOf, SaveReport.count, Fate.ofAnswer]
    omega
  · cases outcome <;> simp [addTurns, countOf, SaveReport.count, Fate.ofAnswer] <;> omega

theorem exists_course (pushes : Pushes ν σ) (batch : List (NodeId × ν)) (report : SaveReport)
    (s : σ × SaveQueue ν) :
    ∃ turns : List (Turn ν), turns.map (·.entry) = batch ∧
      Course nodes pushes mode s turns (saveBatch nodes mode batch report s).2.2 ∧
      (saveBatch nodes mode batch report s).1 = addTurns report turns ∧
      (saveBatch nodes mode batch report s).2.1 = retriedIn turns := by
  induction batch generalizing report s with
  | nil => exact ⟨[], rfl, .done s, rfl, rfl⟩
  | cons entry batch ih =>
    obtain ⟨id, node⟩ := entry
    cases alive : nodes.isAlive s.1 node with
    | false =>
      obtain ⟨turns, entries, course, counts, retries⟩ := ih report.countDropped s
      refine ⟨{ entry := (id, node), fate := .dropped } :: turns, ?_, ?_, ?_, ?_⟩
      · rw [List.map_cons, entries]
      · simp only [saveBatch, alive]
        exact .dropped alive course
      · simp only [saveBatch, alive, addTurns_dropped]
        exact counts
      · simp only [saveBatch, alive, retriedIn_cons]
        exact retries
    | true =>
      obtain ⟨turns, entries, course, counts, retries⟩ :=
        ih (report.count (nodes.save node mode s).1) (nodes.save node mode s).2
      refine ⟨{ entry := (id, node), fate := .ofAnswer (nodes.save node mode s).1
                pushed := pushes node mode s } :: turns, ?_, ?_, ?_, ?_⟩
      · rw [List.map_cons, entries]
      · simp only [saveBatch, alive, if_true]
        exact .saved alive course
      · simp only [saveBatch, alive, if_true, addTurns_saved]
        exact counts
      · simp only [saveBatch, alive, if_true, retriedIn_cons, Fate.isRetried_ofAnswer, retries]

theorem pending_of_retries {pushed retried : List (NodeId × ν)} (distinct : (ids retried).Nodup) :
    (((empty : SaveQueue ν).pushAll pushed).pushAll retried).pending =
      firsts [] pushed ++ retried.filter fun e => e.1 ∉ ids pushed := by
  have first : ((empty : SaveQueue ν).pushAll pushed).pending = firsts [] pushed :=
    pending_pushAll tidy_empty pushed
  rw [pending_pushAll (tidy_empty.pushAll pushed), first, firsts_eq_filter distinct]
  congr 1
  apply List.filter_congr
  intro e _
  simp only [mem_ids_firsts_nil]

theorem pass_process (only : nodes.OnlyPush pushes) {s : σ × SaveQueue ν} (tidy : s.2.Tidy) :
    ∃ turns, Pass nodes pushes mode s turns (process nodes mode s) := by
  obtain ⟨turns, entries, course, counts, retries⟩ :=
    exists_course mode pushes s.2.pending {} (s.1, empty)
  have distinct : (ids (retriedIn turns)).Nodup := by
    apply List.Nodup.sublist (ids_retriedIn turns)
    rw [entries]
    exact tidy.distinct
  have left : (process nodes mode s).2.2 =
      ((empty : SaveQueue ν).pushAll (pushedIn turns)).pushAll (retriedIn turns) := by
    rw [← queue_of_course only course, ← retries]
    rfl
  have report : (process nodes mode s).1 = reportOf turns := by
    have counted : (process nodes mode s).1 = addTurns {} turns := counts
    rw [counted]
    simp only [addTurns, reportOf, Nat.zero_add]
  have pending : (process nodes mode s).2.2.pending = firsts [] (pushedIn turns) ++
      (retriedIn turns).filter fun e => e.1 ∉ ids (pushedIn turns) := by
    rw [left, pending_of_retries distinct]
  refine ⟨turns, entries, ⟨_, course⟩, report, ?_, pending, ?_, ?_, ?_⟩
  · rw [report, ← entries, List.length_map, ← total_reportOf turns]
    rfl
  · rw [left]
    exact (tidy_empty.pushAll _).pushAll _
  · intro front back s' _ begun
    rw [queue_of_course only begun]
    exact tidy_empty.pushAll _
  · intro e mem
    rw [pending, ids_append]
    by_cases again : e.1 ∈ ids (pushedIn turns)
    · exact List.mem_append_left _ ((mem_ids_firsts_nil _ _).mpr again)
    · rcases List.mem_append.mp mem with mem | mem
      · exact absurd (List.mem_map_of_mem mem) again
      · apply List.mem_append_right
        exact List.mem_map_of_mem (List.mem_filter.mpr ⟨mem, by simpa using again⟩)

end Passes

section Runs

inductive Call (ν σ : Type)
  | push (id : NodeId) (node : ν)
  | process (mode : SaveMode)
  /-- Something happens to the nodes, of which some may die. -/
  | meanwhile (change : σ → σ)

variable (nodes : Nodes ν σ)

def call : Call ν σ → σ × SaveQueue ν → σ × SaveQueue ν
  | .push id node, s => (s.1, (s.2.push id node).2)
  | .process mode, s => (process nodes mode s).2
  | .meanwhile change, s => (change s.1, s.2)

def run (calls : List (Call ν σ)) (s : σ × SaveQueue ν) : σ × SaveQueue ν :=
  calls.foldl (fun s c => call nodes c s) s

variable {nodes} {pushes : Pushes ν σ} (only : nodes.OnlyPush pushes)
include only

theorem tidy_call (c : Call ν σ) {s : σ × SaveQueue ν} (tidy : s.2.Tidy) :
    (call nodes c s).2.Tidy := by
  cases c with
  | push id node => exact tidy.push id node
  | process mode =>
    obtain ⟨turns, pass⟩ := pass_process mode only tidy
    exact pass.tidy
  | meanwhile change => exact tidy

theorem tidy_run (calls : List (Call ν σ)) {s : σ × SaveQueue ν} (tidy : s.2.Tidy) :
    (run nodes calls s).2.Tidy := by
  induction calls generalizing s with
  | nil => exact tidy
  | cons c calls ih => exact ih (tidy_call only c tidy)

/-- However a queue has come about, it is tidy, and so is what a pass makes of it, turn by turn. -/
theorem run_tidy_pass (calls : List (Call ν σ)) (world : σ) :
    (run nodes calls (world, empty)).2.Tidy ∧
      ∀ mode, ∃ turns, Pass nodes pushes mode (run nodes calls (world, empty)) turns
        (process nodes mode (run nodes calls (world, empty))) := by
  have tidy := tidy_run only calls (s := (world, empty)) tidy_empty
  exact ⟨tidy, fun mode => pass_process mode only tidy⟩

end Runs

end SaveQueue

namespace SaveStage

open SaveQueue

def named? (name : String) (s : SaveStage) : Option (NodeId × Nat) :=
  (s.handle? name).bind fun handle => s.nodes[handle]?.map fun node => (node.id, handle)

theorem queue_push (name : String) (s : SaveStage × SaveQueue Nat) :
    (push name s).2.2 = s.2.pushAll (named? name s.1).toList := by
  unfold push named?
  cases s.1.handle? name with
  | none => rfl
  | some handle =>
    cases there : s.1.nodes[handle]? with
    | none =>
      simp only [there, Option.bind_some, Option.map_none]
      rfl
    | some node =>
      simp only [there, Option.bind_some, Option.map_some]
      rfl

def pushes : Pushes Nat SaveStage := fun handle _ s =>
  match s.1.nodes[handle]? with
  | some { script? := some (line :: _), .. } => (line.pushes?.bind fun name => named? name s.1).toList
  | _ => []

def played (s : SaveStage) (handle : Nat) (node : ScriptedNode) (mode : SaveMode) : SaveStage :=
  { s with
    nodes := s.nodes.setIfInBounds handle node
    saves := (node.id, mode) :: s.saves }

theorem named?_played {s : SaveStage} {handle : Nat} {node : ScriptedNode}
    (there : s.nodes[handle]? = some node) (node' : ScriptedNode) (same : node'.id = node.id)
    (mode : SaveMode) (name : String) : named? name (s.played handle node' mode) = named? name s := by
  obtain ⟨bound, found⟩ := Array.getElem?_eq_some_iff.mp there
  have names : (s.played handle node' mode).handle? name = s.handle? name := rfl
  rw [named?, named?, names]
  congr 1
  funext other
  by_cases here : handle = other
  · subst here
    rw [played, Array.getElem?_setIfInBounds_self_of_lt bound, there, Option.map_some,
      Option.map_some, same]
  · rw [played, Array.getElem?_setIfInBounds_ne here]

theorem onlyPush : nodesOf.OnlyPush pushes := by
  intro handle mode s
  simp only [nodesOf, save, pushes]
  cases there : s.1.nodes[handle]? with
  | none => rfl
  | some node =>
    obtain ⟨id, script?⟩ := node
    cases script? with
    | none => rfl
    | some script =>
      cases script with
      | nil => rfl
      | cons line script =>
        obtain ⟨answer, pushes?⟩ := line
        cases pushes? with
        | none => cases answer <;> rfl
        | some name =>
          have queue := queue_push name
            (s.1.played handle { id, script? := some script } mode, s.2)
          have named := named?_played there { id, script? := some script } rfl mode name
          rw [named] at queue
          cases answer <;> exact queue

/-- The first node pushes itself while it is stored, the second one pushes the third, which fails. -/
def entangled : SaveStage where
  nodes := #[
    { id := ⟨1⟩, script? := some [{ answer := .outcome .stored, pushes? := some "a" }] },
    { id := ⟨2⟩, script? := some [{ answer := .outcome .skipped, pushes? := some "c" }] },
    { id := ⟨3⟩, script? := some [{ answer := .fail }] },
    { id := ⟨4⟩, script? := none }]
  names := [("a", 0), ("b", 1), ("c", 2), ("d", 3)]

/-- All four are pushed, one of them twice, and one dies before the pass. -/
def entangledCalls : List (SaveQueue.Call Nat SaveStage) :=
  [.push ⟨1⟩ 0, .push ⟨2⟩ 1, .push ⟨3⟩ 2, .push ⟨1⟩ 0, .push ⟨4⟩ 3,
    .meanwhile fun stage => (stage.drop "d").2]

theorem entangled_pass :
    nodesOf.OnlyPush pushes ∧ (run nodesOf entangledCalls (entangled, empty)).2.Tidy ∧
      (∃ turns, Pass nodesOf pushes .tryRelease (run nodesOf entangledCalls (entangled, empty)) turns
        (process nodesOf .tryRelease (run nodesOf entangledCalls (entangled, empty)))) ∧
      (process nodesOf .tryRelease
        (run nodesOf entangledCalls (entangled, empty))).2.2.pending =
          [(⟨1⟩, 0), (⟨3⟩, 2), (⟨2⟩, 1)] := by
  have whole := run_tidy_pass onlyPush entangledCalls entangled
  exact ⟨onlyPush, whole.1, whole.2 .tryRelease, by decide +kernel⟩

end SaveStage

end GraphJournal
