import GraphJournal.Proofs.Ascent
import GraphJournal.Proofs.RootLinks

/-!
# Detachments

A node that has been taken out of its graph has no parent, and it stays without one until it is put
under a node again. But it is told a root whenever a node is attached from which lists of children
lead to it, also by lists that should not name it any more. It is silent as long as the last root
that it was told so is none or not alive. Nodes that were below it are NOT treated.
-/
namespace GraphJournal

set_option autoImplicit false

open MessagePack

variable {κ : Type} [Values κ]

/-- A call that changes where a node is, and the graph that it is made in. -/
structure LinkEvent (κ : Type) [Values κ] where
  graph : Graph κ
  node : NodeRef
  call : LinkCall

namespace LinkEvent

/-- The call sets the root of `n`, as its own node or by way of lists of children. -/
def Tells (e : LinkEvent κ) (n : NodeRef) : Prop :=
  n = e.node ∨ n ∈ e.graph.descendants e.node

instance (e : LinkEvent κ) (n : NodeRef) : Decidable (e.Tells n) := instDecidableOr

def after (e : LinkEvent κ) : Graph κ := e.call.run e.node e.graph

/-- The root that a node was told last, where the latest calls come first. -/
def lastTold (n : NodeRef) : List (LinkEvent κ) → Option RootRef
  | [] => none
  | e :: earlier => if e.Tells n then e.call.told e.graph else lastTold n earlier

end LinkEvent

/-- What may happen from a detachment of `n` on while nobody attaches `n` itself: calls for any
nodes, and between them any change that leaves the node and its links alone. -/
inductive SinceDetached (n : NodeRef) : List (LinkEvent κ) → Graph κ → Prop
  | detached {g : Graph κ} (alive : (g.node? n).isSome) : SinceDetached n [] (g.detach n)
  | call {events : List (LinkEvent κ)} {g : Graph κ} {m : NodeRef} {call : LinkCall}
      (since : SinceDetached n events g) (other : m = n → call = .detach) :
      SinceDetached n (⟨g, m, call⟩ :: events) (call.run m g)
  | meanwhile {events : List (LinkEvent κ)} {g g' : Graph κ} (since : SinceDetached n events g)
      (links : g'.links n = g.links n) (alive : (g'.node? n).isSome) : SinceDetached n events g'

section Calls
variable {g : Graph κ} {n m : NodeRef}

theorem isSome_node?_spread (root : Option RootRef) (m n : NodeRef) :
    ((g.spread m root).node? n).isSome = (g.node? n).isSome := by
  rw [Graph.spread]
  generalize g.descendants m = below
  induction below generalizing g with
  | nil => rfl
  | cons m below ih => rw [List.foldl_cons, ih, Graph.tellRoot, Graph.isSome_node?_modifyNode]

theorem isSome_node?_run (call : LinkCall) (m n : NodeRef) :
    ((call.run m g).node? n).isSome = (g.node? n).isSome := by
  obtain ⟨key, same⟩ := call.run_eq g m
  rw [same, isSome_node?_spread, Graph.setLinks, Graph.isSome_node?_modifyNode]

/-- A call for another node changes at most the root that a node is told. -/
theorem links_run_other (call : LinkCall) (other : n ≠ m) (alive : (g.node? n).isSome) :
    (call.run m g).links n =
      { g.links n with
        root := if (⟨g, m, call⟩ : LinkEvent κ).Tells n then call.told g else (g.links n).root } := by
  obtain ⟨key, same⟩ := call.run_eq g m
  have apart : ¬ (n = m ∧ (g.node? m).isSome) := fun both => other both.1
  have told : (⟨g, m, call⟩ : LinkEvent κ).Tells n ↔ n ∈ g.descendants m := or_iff_right other
  rw [same, Graph.links_spread, LinkCall.descendants_setLinks, Graph.setLinks,
    Graph.isSome_node?_modifyNode, ← Graph.setLinks, g.links_setLinks, if_neg apart]
  simp only [told, alive, and_true]
  split <;> rfl

theorem links_detach (alive : (g.node? n).isSome) : (g.detach n).links n = {} := by
  have here := g.links_setLinks n n {}
  rw [if_pos ⟨rfl, alive⟩] at here
  rw [Graph.detach, Graph.links_spread, here]
  split <;> rfl

theorem links_since {events : List (LinkEvent κ)} (since : SinceDetached n events g) :
    (g.node? n).isSome ∧ g.links n = { root := LinkEvent.lastTold n events } := by
  induction since with
  | @detached g alive =>
    have still := isSome_node?_run (g := g) .detach n n
    exact ⟨by rw [← alive, ← still]; rfl, links_detach alive⟩
  | @call events g m call since other ih =>
    obtain ⟨alive, links⟩ := ih
    refine ⟨by rw [isSome_node?_run, alive], ?_⟩
    by_cases here : n = m
    · subst here
      cases other rfl
      have told : (⟨g, n, .detach⟩ : LinkEvent κ).Tells n := Or.inl rfl
      rw [LinkEvent.lastTold, if_pos told]
      exact links_detach alive
    · rw [links_run_other call here alive, links, LinkEvent.lastTold]
  | meanwhile since same alive ih => exact ⟨alive, by rw [same, ih.2]⟩

end Calls

namespace Graph

variable {g : Graph κ} {n : NodeRef}

/-- A node without a parent is where its own root says. -/
theorem locate?_of_top {told : Option RootRef} {key : Int32}
    (links : g.links n = { root := told, key }) :
    g.locate? n =
      (told.filter fun r => (g.root? r).isSome).map ({ root := ·, key, ancestors := [] }) := by
  unfold locate? climb
  rw [links]
  cases told with
  | none => rfl
  | some r =>
    simp only [Option.filter]
    split <;> rfl

theorem locateRoot?_of_located {location : Location} (found : g.locate? n = some location) :
    ∃ root, g.locateRoot? n = some (location, root) := by
  obtain ⟨above, placed⟩ := placed_of_locate found
  obtain ⟨root, live⟩ := Option.isSome_iff_exists.mp placed.live
  refine ⟨root, ?_⟩
  rw [locateRoot?, found]
  simp only [Option.bind_eq_bind, Option.bind_some, live]
  rfl

/-- No attempt to record something ends as if there were no journal. -/
theorem settle_ne_unattached (strict : Bool) (commit : Except Error Commit) (g g' : Graph κ) :
    settle strict commit g ≠ .ok .unattached g' := by
  intro h
  unfold settle RecordOutcome.ofCommit at h
  cases strict <;> rcases commit with (_ | _) | (_ | _) <;>
    simp [RecordOutcome.ofStrict, RecordOutcome.ofBestEffort] at h

/-- A node that is in a graph is never told that it is in none. -/
theorem journal_unattached_iff (op : Marker) (withOwn : Bool) (field : Option UInt32)
    (payload : Layout → DraftM Unit) :
    journal n op withOwn field payload g = .ok .unattached g ↔ g.locate? n = none := by
  refine ⟨?_, fun nowhere => journal_nowhere nowhere op withOwn field payload⟩
  intro silent
  cases found : g.locate? n with
  | none => rfl
  | some location =>
    obtain ⟨root, both⟩ := locateRoot?_of_located found
    unfold journal journalBy journalWith at silent
    rw [both] at silent
    dsimp only at silent
    split at silent
    · exact absurd silent (settle_ne_unattached _ _ _ _)
    · split at silent
      · exact absurd silent (settle_ne_unattached _ _ _ _)
      · exact absurd silent (settle_ne_unattached _ _ _ _)

/-- From a detachment on, and until it is attached itself, a node journals nothing exactly as long as
the last call that told it a root told it none, or one that is not alive. A live one makes it the top
of that root's graph. -/
theorem silent_since_detached {events : List (LinkEvent κ)} (since : SinceDetached n events g) :
    (∀ op withOwn field payload,
        journal n op withOwn field payload g = .ok .unattached g ↔
          ∀ r, LinkEvent.lastTold n events = some r → g.root? r = none) ∧
      ∀ r root, LinkEvent.lastTold n events = some r → g.root? r = some root →
        g.locate? n = some { root := r, key := noKey, ancestors := [] } := by
  have place := locate?_of_top (links_since since).2
  refine ⟨?_, ?_⟩
  · intro op withOwn field payload
    rw [journal_unattached_iff, place, Option.map_eq_none_iff, Option.filter_eq_none_iff]
    simp only [Option.not_isSome_iff_eq_none]
  · intro r root told live
    rw [place, told]
    simp [live]

end Graph

/-- A branch that lists a byte under a key, in the graph of a root, and the byte taken out again. -/
def lodge : Graph ValueType where
  nodes := #[
    some { content := .branch (holding [(3, ⟨1⟩)]), links := { root := some ⟨0⟩ } },
    some {
      content := .value .u8 (5 : UInt8)
      links := { parent := some ⟨0⟩, root := some ⟨0⟩, key := 3 } }]
  roots := #[some (.journal { config := .forTesting } {})]

/-- The branch is attached again, some branches having been brought up to date before. -/
def reattached (branches : List (NodeRef × Branch)) : LinkEvent ValueType :=
  ⟨relist (lodge.detach ⟨1⟩) branches, ⟨0⟩, .attachToRoot ⟨0⟩⟩

theorem since_reattached (branches : List (NodeRef × Branch)) :
    SinceDetached ⟨1⟩ [reattached branches] (reattached branches).after := by
  have detached : SinceDetached ⟨1⟩ [] (lodge.detach ⟨1⟩) := .detached rfl
  have alive : ((relist (lodge.detach ⟨1⟩) branches).node? ⟨1⟩).isSome := by
    rw [isSome_node?_relist]
    exact (links_since detached).1
  refine (detached.meanwhile ?_ alive).call fun other => nomatch other
  rw [links_relist]

theorem silent_after_relisting :
    SinceDetached ⟨1⟩ [reattached [(⟨0⟩, holding [])]] (reattached [(⟨0⟩, holding [])]).after ∧
      LinkEvent.lastTold ⟨1⟩ [reattached [(⟨0⟩, holding [])]] = none ∧
      Graph.journalValue ⟨1⟩ .uint8 6 (reattached [(⟨0⟩, holding [])]).after =
        .ok .unattached (reattached [(⟨0⟩, holding [])]).after := by
  have since := since_reattached [(⟨0⟩, holding [])]
  have told : LinkEvent.lastTold ⟨1⟩ [reattached [(⟨0⟩, holding [])]] = none := by decide +kernel
  refine ⟨since, told, ((Graph.silent_since_detached since).1 _ _ _ _).mpr ?_⟩
  intro r live
  rw [told] at live
  cases live

/-- A list that still names the byte brings it back into the graph, under the address of the top. -/
theorem journals_by_stale_list :
    SinceDetached ⟨1⟩ [reattached []] (reattached []).after ∧
      ((Run.answered (Graph.journalValue ⟨1⟩ .uint8 6 (reattached []).after)).1.toOption =
        some (.committed 6)) ∧
      ((Run.answered (Graph.journalValue ⟨1⟩ .uint8 6 (reattached []).after)).2.root? ⟨0⟩).map
        Root.data = some [0, 0, 3, 2, 2, 6] :=
  ⟨since_reattached [], by decide +kernel, by decide +kernel⟩

end GraphJournal
