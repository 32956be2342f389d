import GraphJournal.Proofs.Recording

/-!
# Strict roots and roots that do their best

Whether a root is strict decides how a record that could not be written is told, and nothing else. Two
graphs that differ only in the strictness of one journal stay so whatever is journalled in them, by
whatever hooks, and each pair of answers tells the same of the journal: what one reports as an outcome
the other one reports as an error.

What the library's nodes do with such an error (a new value is not installed) is NOT treated here.
-/
namespace GraphJournal

set_option autoImplicit false

open MessagePack

namespace Journal

def withStrict (j : Journal) (strict : Bool) : Journal := { j with config := { j.config with strict } }

/-- A journal is written alike whether it is strict or not. -/
theorem commit_withStrict (d : Draft) (j : Journal) (strict : Bool) :
    Run.answered (commit d (j.withStrict strict)) =
      ((Run.answered (commit d j)).1, (Run.answered (commit d j)).2.withStrict strict) := by
  have config : (j.withStrict strict).config.maxEntrySize = j.config.maxEntrySize := rfl
  have remaining : (j.withStrict strict).remaining = j.remaining := rfl
  simp only [commit, Run.bind_apply, Run.get_apply, config]
  split
  · rfl
  · cases d.frame with
    | error e => rfl
    | ok framed =>
      simp only [remaining]
      split <;> rfl

end Journal

theorem Root.answered_commit_journal (j : Journal) (queue : SaveQueue NodeRef) (d : Draft) :
    Run.answered ((Root.journal j queue).commit d) =
      ((Run.answered (Journal.commit d j)).1, .journal (Run.answered (Journal.commit d j)).2 queue) := by
  rw [Root.commit]
  cases Journal.commit d j <;> rfl

namespace RecordOutcome

/-- What a root that does its best answers, and what a strict root answers in the same case. An error
that is `own` comes from what was to be written. -/
inductive Corresponds (own : Error → Prop) :
    Except Error RecordOutcome → Except Error RecordOutcome → Prop
  | committed (sequence : Nat) : Corresponds own (.ok (.committed sequence)) (.ok (.committed sequence))
  | noRoom (needed remaining : Nat) :
      Corresponds own (.ok (.noRoom needed remaining)) (.error (.bufferFull needed remaining))
  | tooLarge (size max : Nat) :
      Corresponds own (.ok (.tooLarge size max)) (.error (.entryTooLarge size max))
  | dropped {e : Error} (from_ : own e) (fits : ∀ size max, e ≠ .entryTooLarge size max) :
      Corresponds own (.ok .dropped) (.error e)

variable {own : Error → Prop}

theorem corresponds_failed {e : Error} (here : own e) :
    Corresponds own (ofCommit false (.error e)) (ofCommit true (.error e)) := by
  cases e with
  | entryTooLarge size max => exact .tooLarge size max
  | _ => exact .dropped here (by simp)

/-- A journal that is handed a draft fails only if the entry is too large. -/
theorem corresponds_commit {d : Draft} (begun : d.Begun) (j : Journal) :
    Corresponds own (ofCommit false (Run.answered (Journal.commit d j)).1)
      (ofCommit true (Run.answered (Journal.commit d j)).1) := by
  have result := Journal.commit_result begun.header_le j
  generalize Journal.commit d j = answer at result
  cases result with
  | oversized size => exact .tooLarge _ _
  | unframed size long => exact .tooLarge _ _
  | noRoom size room => exact .noRoom _ _
  | appended f size room kind payload frame => exact .committed _

end RecordOutcome

/-- What the library can be asked to journal for a node. -/
inductive Wish : Type 1
  | record (op : Marker) (withOwn : Bool) (payload : Layout → DraftM Unit)
  | value {α : Type} (c : Codec α) (a : α)
  | fieldValue {α : Type} (key : UInt32) (c : Codec α) (a : α)
  | delete
  | addItem {α : Type} (c : Codec α) (a : α)
  | deleteItem {α : Type} (c : Codec α) (a : α)

namespace Wish

variable {κ : Type} [Values κ]

def op : Wish → Marker
  | record op _ _ => op
  | value _ _ | fieldValue _ _ _ => .value
  | delete => .delete
  | addItem _ _ => .addItem
  | deleteItem _ _ => .deleteItem

def withOwn : Wish → Bool
  | record _ withOwn _ => withOwn
  | _ => true

def field? : Wish → Option UInt32
  | fieldValue key _ _ => some key
  | _ => none

def payload : Wish → Layout → DraftM Unit
  | record _ _ payload => payload
  | value c a | fieldValue _ c a | addItem c a | deleteItem c a => (Draft.value c · a)
  | delete => fun _ => pure ()

/-- The library's function for it. -/
def journal (n : NodeRef) : Wish → GraphM κ RecordOutcome
  | record op withOwn payload => Graph.journal n op withOwn none payload
  | value c a => Graph.journalValue n c a
  | fieldValue key c a => Graph.journalField n key c a
  | delete => Graph.journalDelete n
  | addItem c a => Graph.journalAddItem n c a
  | deleteItem c a => Graph.journalDeleteItem n c a

theorem journal_eq (n : NodeRef) (w : Wish) :
    w.journal n = Graph.journal (κ := κ) n w.op w.withOwn w.field? w.payload := by
  cases w <;> rfl

/-- A payload of one's own only writes to the draft that it is given. -/
def Sound : Wish → Prop
  | record _ _ payload => ∀ layout, Draft.Writes (payload layout)
  | _ => True

theorem Sound.payload {w : Wish} (sound : w.Sound) (layout : Layout) :
    Draft.Writes (w.payload layout) := by
  cases w with
  | record op withOwn payload => exact sound layout
  | delete => exact Draft.writes_pure
  | value c a | fieldValue _ c a | addItem c a | deleteItem c a => exact Draft.writes_value c layout a

end Wish

/-- A call that journals something for a node. -/
structure Request where
  node : NodeRef
  /-- The hooks of the application's nodes, if they are others than those that branches choose. -/
  hooks? : Option Hooks := none
  wish : Wish

namespace Request

variable {κ : Type} [Values κ]

def perform (q : Request) : GraphM κ RecordOutcome :=
  match q.hooks? with
  | none => q.wish.journal q.node
  | some h => Graph.journalWith h q.node q.wish.op q.wish.withOwn q.wish.field? q.wish.payload

def hooks (q : Request) (g : Graph κ) : Hooks := q.hooks?.getD g.ownHooks

theorem perform_eq (q : Request) (g : Graph κ) :
    q.perform g =
      Graph.journalWith (q.hooks g) q.node q.wish.op q.wish.withOwn q.wish.field? q.wish.payload g := by
  unfold perform hooks
  cases q.hooks? with
  | none =>
    rw [Wish.journal_eq]
    rfl
  | some h => rfl

/-- Hooks and payload add to a draft or overwrite a part of it, and do nothing else. -/
structure Sound (q : Request) : Prop where
  hooks : ∀ h, q.hooks? = some h → h.Sound
  payload : q.wish.Sound

theorem Sound.inUse {q : Request} (sound : q.Sound) (g : Graph κ) : (q.hooks g).Sound := by
  unfold Request.hooks
  cases chosen : q.hooks? with
  | none => exact g.sound_ownHooks
  | some h => exact sound.hooks h chosen

/-- Writes what is asked for by way of the hooks, from the header on. -/
def write (q : Request) (h : Hooks) (location : Location) (layout : Layout) :
    EStateM.Result Error Draft Unit :=
  h.write (location.steps q.node q.wish.withOwn) q.node q.wish.field? q.wish.op
    (q.wish.payload layout) (.begin .record)

theorem Sound.begun_of_write {q : Request} (sound : q.Sound) {g : Graph κ} {location : Location}
    {layout : Layout} {d : Draft} (written : q.write (q.hooks g) location layout = .ok () d) :
    d.Begun := by
  have after : (Run.answered (q.write (q.hooks g) location layout)).2.Begun :=
    (sound.inUse g).write (sound.payload.payload layout) _ (.begin .record)
  rw [written] at after
  exact after

/-- The answer to a call, and the graph after it. -/
def answered (q : Request) (g : Graph κ) : Except Error RecordOutcome × Graph κ :=
  Run.answered (q.perform g)

/-- The errors that come from the hooks of a node at `location`, or from the payload. -/
def Raises (q : Request) (g : Graph κ) (location : Location) (layout : Layout) : Error → Prop :=
  (q.hooks g).Raised (location.steps q.node q.wish.withOwn) q.node (q.wish.payload layout)

end Request

namespace Graph

variable {κ : Type} [Values κ]

section Answers
variable {q : Request} {g : Graph κ}

theorem answered_of_nowhere (nowhere : g.locateRoot? q.node = none) :
    q.answered g = (.ok .unattached, g) := by
  rw [Request.answered, q.perform_eq, answered_journalWith, nowhere]

variable {location : Location} {root : Root}
  (place : g.locateRoot? q.node = some (location, root))
include place

theorem answered_of_failed {e : Error} {d : Draft}
    (failed : q.write (q.hooks g) location root.layout = .error e d) :
    q.answered g = (RecordOutcome.ofCommit root.isStrict (.error e), g) := by
  unfold Request.write at failed
  rw [Request.answered, q.perform_eq, answered_journalWith, place]
  dsimp only
  rw [failed]

theorem answered_of_written {d : Draft}
    (written : q.write (q.hooks g) location root.layout = .ok () d) :
    q.answered g =
      (RecordOutcome.ofCommit root.isStrict (Run.answered (root.commit d)).1,
        g.setRoot location.root (Run.answered (root.commit d)).2) := by
  unfold Request.write at written
  rw [Request.answered, q.perform_eq, answered_journalWith, place]
  dsimp only
  rw [written]

end Answers

theorem locateRoot?_eq (g : Graph κ) (n : NodeRef) :
    g.locateRoot? n =
      (g.locate? n).bind fun location => (g.root? location.root).map fun root => (location, root) := by
  unfold locateRoot?
  cases g.locate? n with
  | none => rfl
  | some location => cases here : g.root? location.root <;> simp [here]

/-- Two graphs that are the same but for one journal, which does its best in the first and is strict
in the second. -/
structure Sides (r : RootRef) (g g' : Graph κ) : Prop where
  nodes : g'.nodes = g.nodes
  stores : g'.stores = g.stores
  others : ∀ s, s ≠ r → g'.root? s = g.root? s
  journals : ∃ (j : Journal) (queue : SaveQueue NodeRef),
    g.root? r = some (.journal (j.withStrict false) queue) ∧
      g'.root? r = some (.journal (j.withStrict true) queue)

/-- The two answers to a call, by where the node is: in no graph, in the graph of another root, or in
the graph of the journal that is strict on one side only. -/
inductive AnswersAt (r : RootRef) (q : Request) (g : Graph κ) :
    Except Error RecordOutcome → Except Error RecordOutcome → Prop
  | nowhere (place : g.locateRoot? q.node = none) : AnswersAt r q g (.ok .unattached) (.ok .unattached)
  | elsewhere {location : Location} {root : Root} {answer : Except Error RecordOutcome}
      (place : g.locateRoot? q.node = some (location, root)) (apart : location.root ≠ r) :
      AnswersAt r q g answer answer
  | here {location : Location} {root : Root} {answer answer' : Except Error RecordOutcome}
      (place : g.locateRoot? q.node = some (location, root)) (here : location.root = r)
      (same : RecordOutcome.Corresponds (q.Raises g location root.layout) answer answer') :
      AnswersAt r q g answer answer'

/-- What a call answers and leaves on both sides. -/
structure CalledAlike (r : RootRef) (q : Request) (g g' : Graph κ) : Prop where
  answers : AnswersAt r q g (q.answered g).1 (q.answered g').1
  after : Sides r (q.answered g).2 (q.answered g').2

/-- What calls made one after the other do on both sides. -/
inductive InStep (r : RootRef) : List Request → Graph κ → Graph κ → Prop
  | done {g g' : Graph κ} (sides : Sides r g g') : InStep r [] g g'
  | call {q : Request} {qs : List Request} {g g' : Graph κ} (alike : CalledAlike r q g g')
      (later : InStep r qs (q.answered g).2 (q.answered g').2) : InStep r (q :: qs) g g'

section Sides
variable {r : RootRef} {g g' : Graph κ} (sides : Sides r g g')
include sides

theorem Sides.alive (s : RootRef) : (g'.root? s).isSome = (g.root? s).isSome := by
  obtain ⟨j, queue, live, live'⟩ := sides.journals
  by_cases same : s = r
  · rw [same, live, live']
    rfl
  · rw [sides.others s same]

theorem Sides.hooks (q : Request) : q.hooks g' = q.hooks g := by
  rw [Request.hooks, Request.hooks, ownHooks_congr (skeleton_of_nodes sides.nodes)]

theorem Sides.locate? (n : NodeRef) : g'.locate? n = g.locate? n :=
  locate?_congr (skeleton_of_nodes sides.nodes) sides.alive n

theorem Sides.setRoot_elsewhere {s : RootRef} (apart : s ≠ r) (root : Root) :
    Sides r (g.setRoot s root) (g'.setRoot s root) := by
  refine ⟨?_, ?_, ?_, ?_⟩
  · rw [nodes_setRoot, nodes_setRoot, sides.nodes]
  · rw [stores_setRoot, stores_setRoot, sides.stores]
  · intro other away
    rw [root?_setRoot, root?_setRoot, sides.others s apart, sides.others other away]
  · obtain ⟨j, queue, live, live'⟩ := sides.journals
    refine ⟨j, queue, ?_, ?_⟩
    · rw [root?_setRoot, if_neg (Ne.symm apart), live]
    · rw [root?_setRoot, if_neg (Ne.symm apart), live']

theorem Sides.setRoot_here (j : Journal) (queue : SaveQueue NodeRef) :
    Sides r (g.setRoot r (.journal (j.withStrict false) queue))
      (g'.setRoot r (.journal (j.withStrict true) queue)) := by
  obtain ⟨_, _, live, live'⟩ := sides.journals
  refine ⟨?_, ?_, ?_, j, queue, ?_, ?_⟩
  · rw [nodes_setRoot, nodes_setRoot, sides.nodes]
  · rw [stores_setRoot, stores_setRoot, sides.stores]
  · intro other away
    rw [root?_setRoot, root?_setRoot, if_neg away, if_neg away, sides.others other away]
  · rw [root?_setRoot, if_pos rfl, live, Option.map_some]
  · rw [root?_setRoot, if_pos rfl, live', Option.map_some]

theorem Sides.nowhere {n : NodeRef} (nowhere : g.locateRoot? n = none) :
    g'.locateRoot? n = none := by
  have alive := sides.alive
  rw [locateRoot?_eq, Option.bind_eq_none_iff] at nowhere ⊢
  intro location found
  rw [sides.locate? n] at found
  have dead := nowhere location found
  rw [Option.map_eq_none_iff, ← Option.not_isSome_iff_eq_none] at dead ⊢
  rw [alive]
  exact dead

theorem Sides.located {n : NodeRef} {location : Location} {root : Root}
    (place : g.locateRoot? n = some (location, root)) :
    ∃ root', g'.locateRoot? n = some (location, root') ∧ g'.root? location.root = some root' := by
  obtain ⟨found, live⟩ := root?_of_locateRoot? place
  have live' : (g'.root? location.root).isSome := by
    rw [sides.alive, live]
    rfl
  obtain ⟨root', there⟩ := Option.isSome_iff_exists.mp live'
  refine ⟨root', ?_, there⟩
  rw [locateRoot?_eq, sides.locate? n, found, Option.bind_some, there, Option.map_some]

/-- A node of another root: the two graphs do not differ there. -/
theorem Sides.answered_elsewhere {q : Request} {location : Location} {root : Root}
    (place : g.locateRoot? q.node = some (location, root)) (apart : location.root ≠ r) :
    (q.answered g').1 = (q.answered g).1 ∧ Sides r (q.answered g).2 (q.answered g').2 := by
  obtain ⟨root', place', live'⟩ := sides.located place
  have same : root' = root := by
    rw [sides.others _ apart, (root?_of_locateRoot? place).2] at live'
    exact (Option.some.inj live').symm
  rw [same] at place'
  cases run : q.write (q.hooks g) location root.layout with
  | error e d =>
    have run' := run
    rw [← sides.hooks q] at run'
    rw [answered_of_failed place run, answered_of_failed place' run']
    exact ⟨rfl, sides⟩
  | ok u d =>
    have run' := run
    rw [← sides.hooks q] at run'
    rw [answered_of_written place run, answered_of_written place' run']
    exact ⟨rfl, sides.setRoot_elsewhere apart _⟩

/-- A node of the journal in which the two graphs differ. -/
theorem Sides.answered_here {q : Request} (sound : q.Sound) {location : Location} {root : Root}
    (place : g.locateRoot? q.node = some (location, root)) (here : location.root = r) :
    RecordOutcome.Corresponds (q.Raises g location root.layout) (q.answered g).1 (q.answered g').1 ∧
      Sides r (q.answered g).2 (q.answered g').2 := by
  obtain ⟨root', place', live'⟩ := sides.located place
  obtain ⟨j, queue, journal, journal'⟩ := sides.journals
  have live := (root?_of_locateRoot? place).2
  rw [here, journal] at live
  rw [here, journal'] at live'
  cases live
  cases live'
  cases run : q.write (q.hooks g) location j.config.layout with
  | error e d =>
    have run' := run
    rw [← sides.hooks q] at run'
    have raised : q.Raises g location j.config.layout e := Hooks.raised_of_write run
    rw [answered_of_failed place run, answered_of_failed place' run']
    exact ⟨RecordOutcome.corresponds_failed raised, sides⟩
  | ok u d =>
    have run' := run
    rw [← sides.hooks q] at run'
    have begun : d.Begun := sound.begun_of_write run
    rw [answered_of_written place run, answered_of_written place' run', here,
      Root.answered_commit_journal, Root.answered_commit_journal, Journal.commit_withStrict,
      Journal.commit_withStrict]
    exact ⟨RecordOutcome.corresponds_commit begun j, sides.setRoot_here _ queue⟩

theorem Sides.called_alike {q : Request} (sound : q.Sound) : CalledAlike r q g g' := by
  cases place : g.locateRoot? q.node with
  | none =>
    have left := answered_of_nowhere place
    have right := answered_of_nowhere (sides.nowhere place)
    refine ⟨?_, ?_⟩
    · rw [left, right]
      exact .nowhere place
    · rw [left, right]
      exact sides
  | some found =>
    obtain ⟨location, root⟩ := found
    by_cases here : location.root = r
    · obtain ⟨same, after⟩ := sides.answered_here sound place here
      exact ⟨.here place here same, after⟩
    · obtain ⟨same, after⟩ := sides.answered_elsewhere place here
      refine ⟨?_, after⟩
      rw [same]
      exact .elsewhere place here

/-- However many calls are made, and whatever hooks and payloads they come with. -/
theorem in_step_of_sides {qs : List Request} (sound : ∀ q ∈ qs, q.Sound) : InStep r qs g g' := by
  induction qs generalizing g g' with
  | nil => exact .done sides
  | cons q qs ih =>
    have alike := sides.called_alike (sound q List.mem_cons_self)
    exact .call alike (ih alike.after fun q' mem => sound q' (List.mem_cons_of_mem q mem))

end Sides

/-- A node at the top of a graph whose journal has room for twenty bytes, twelve for each entry. -/
def slip (strict : Bool) : Graph ValueType where
  nodes := #[some { content := .value .u8 (5 : UInt8), links := { root := some ⟨0⟩ } }]
  roots := #[some (.journal { config := { capacity := 20, maxEntrySize := 12, strict } } .empty)]

/-- Writes a byte and fails. -/
def stammer : DraftM Unit := do
  modify (·.append [9])
  throw (.invalidLocator "lost")

/-- Six bytes, a payload that fails, a locator that fails, twelve bytes, fourteen, five for which
there is no room any more, and a node that is not there. -/
def slipCalls : List Request :=
  [⟨⟨0⟩, none, .value Codec.uint8 7⟩,
    ⟨⟨0⟩, none, .record .value true fun _ => stammer⟩,
    ⟨⟨0⟩, some ⟨fun _ => stammer, fun _ => pure ()⟩, .delete⟩,
    ⟨⟨0⟩, some ⟨fun _ => modify (·.locator [1, 2, 3]), fun _ => pure ()⟩, .addItem Codec.uint8 200⟩,
    ⟨⟨0⟩, none, .record .value true fun _ => modify (·.append [1, 2, 3, 4, 5, 6, 7, 8, 9])⟩,
    ⟨⟨0⟩, none, .delete⟩, ⟨⟨1⟩, none, .delete⟩]

theorem slip_in_step :
    Sides ⟨0⟩ (slip false) (slip true) ∧ (∀ q ∈ slipCalls, q.Sound) ∧
      InStep ⟨0⟩ slipCalls (slip false) (slip true) := by
  have sides : Sides ⟨0⟩ (slip false) (slip true) := by
    refine ⟨rfl, rfl, ?_, { config := { capacity := 20, maxEntrySize := 12 } }, .empty, rfl, rfl⟩
    rintro ⟨_ | i⟩ apart
    · exact absurd rfl apart
    · rfl
  have halting : Draft.Writes stammer := fun _ begun => begun.append [9]
  have sound : ∀ q ∈ slipCalls, q.Sound := by
    simp only [slipCalls, List.forall_mem_cons, List.not_mem_nil, false_implies, implies_true, and_true]
    refine ⟨⟨?_, trivial⟩, ⟨?_, fun _ => halting⟩, ⟨?_, trivial⟩, ⟨?_, trivial⟩,
      ⟨?_, fun _ => Draft.writes_append _⟩, ⟨?_, trivial⟩, ⟨?_, trivial⟩⟩
    all_goals
      intro h chosen
      cases chosen
    · exact ⟨fun _ => halting, fun _ => Draft.writes_pure⟩
    · exact ⟨fun _ => Draft.writes_append _, fun _ => Draft.writes_pure⟩
  exact ⟨sides, sound, in_step_of_sides sides sound⟩

end Graph

end GraphJournal
