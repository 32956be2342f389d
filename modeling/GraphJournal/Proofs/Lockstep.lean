import GraphJournal.Proofs.Recording

/-!
# Recording in lockstep

Whether and how a change is recorded depends on the skeleton of a graph and on its journals. So in
two graphs that differ in nothing but what waits in the queues of their roots, and in where values
are, the same is answered and the same recorded. What the nodes hold is NOT compared here.
-/
namespace GraphJournal

set_option autoImplicit false

open MessagePack

namespace Root

/-- The root with nothing in its queue. -/
def unqueued (root : Root) : Root := root.setQueue .empty

@[simp] theorem isStrict_unqueued (root : Root) : root.unqueued.isStrict = root.isStrict := by
  cases root <;> rfl

@[simp] theorem layout_unqueued (root : Root) : root.unqueued.layout = root.layout := by
  cases root <;> rfl

@[simp] theorem unqueued_setQueue (root : Root) (queue : SaveQueue NodeRef) :
    (root.setQueue queue).unqueued = root.unqueued := by
  cases root <;> rfl

theorem commit_unqueued (draft : Draft) (root : Root) :
    Run.answered (root.unqueued.commit draft) =
      ((Run.answered (root.commit draft)).1, (Run.answered (root.commit draft)).2.unqueued) := by
  cases root with
  | journal j queue =>
    simp only [unqueued, setQueue, commit]
    cases Journal.commit draft j <;> rfl
  | unbounded data =>
    simp only [unqueued, setQueue, commit]
    cases draft.frame <;> rfl
  | refusing => rfl

theorem queue?_commit (draft : Draft) (root : Root) :
    (Run.answered (root.commit draft)).2.queue? = root.queue? := by
  cases root with
  | journal j queue =>
    simp only [commit]
    cases Journal.commit draft j <;> rfl
  | unbounded data =>
    simp only [commit]
    cases draft.frame <;> rfl
  | refusing => rfl

end Root

namespace Graph

variable {κ : Type} [Values κ]

/-- Two graphs whose nodes are linked alike and are of the same kinds, and whose roots are the same
but for their queues. -/
structure Twins (g g' : Graph κ) : Prop where
  skeleton : g'.skeleton = g.skeleton
  roots : ∀ r, (g'.root? r).map Root.unqueued = (g.root? r).map Root.unqueued

theorem Twins.refl (g : Graph κ) : Twins g g := ⟨rfl, fun _ => rfl⟩

theorem Twins.symm {g g' : Graph κ} (twins : Twins g g') : Twins g' g :=
  ⟨twins.skeleton.symm, fun r => (twins.roots r).symm⟩

theorem Twins.trans {g₁ g₂ g₃ : Graph κ} (first : Twins g₁ g₂) (second : Twins g₂ g₃) :
    Twins g₁ g₃ := by
  refine ⟨second.skeleton.trans first.skeleton, ?_⟩
  intro r
  rw [second.roots, first.roots]

theorem twins_of_roots {g g' : Graph κ} (skeleton : g'.skeleton = g.skeleton)
    (roots : g'.roots = g.roots) : Twins g g' :=
  ⟨skeleton, fun r => by rw [root?_of_roots roots]⟩

theorem twins_setRoot {g : Graph κ} {r : RootRef} {root root' : Root} (live : g.root? r = some root)
    (same : root'.unqueued = root.unqueued) : Twins g (g.setRoot r root') := by
  refine ⟨skeleton_of_nodes (nodes_setRoot g r root'), ?_⟩
  intro other
  rw [root?_setRoot]
  split
  · rename_i here
    rw [here, live, Option.map_some, Option.map_some, Option.map_some, same]
  · rfl

section Journaling
variable (n : NodeRef) (op : Marker) (withOwn : Bool) (field : Option UInt32)
  (payload : Layout → DraftM Unit)

variable (g : Graph κ)

/-- Recording something changes a root at most, and not its queue. -/
theorem journal_frame :
    (Run.answered (journal n op withOwn field payload g)).2.nodes = g.nodes ∧
      (Run.answered (journal n op withOwn field payload g)).2.stores = g.stores ∧
      ∀ r, ((Run.answered (journal n op withOwn field payload g)).2.root? r).bind Root.queue? =
        (g.root? r).bind Root.queue? := by
  rw [journal, journalBy, answered_journalWith]
  cases place : g.locateRoot? n with
  | none => exact ⟨rfl, rfl, fun _ => rfl⟩
  | some place' =>
    obtain ⟨location, root⟩ := place'
    have live := (root?_of_locateRoot? place).2
    dsimp only
    cases g.ownHooks.write (location.steps n withOwn) n field op (payload root.layout)
        (.begin .record) with
    | error e d => exact ⟨rfl, rfl, fun _ => rfl⟩
    | ok u draft =>
      refine ⟨nodes_setRoot _ _ _, stores_setRoot _ _ _, ?_⟩
      intro r
      rw [root?_setRoot]
      split
      · rename_i here
        rw [here, live, Option.map_some, Option.bind_some, Option.bind_some, Root.queue?_commit]
      · rfl

variable {g} {g' : Graph κ} (twins : Twins g g')
include twins

theorem locateRoot?_twins :
    (g'.locateRoot? n).map (fun place => (place.1, place.2.unqueued)) =
      (g.locateRoot? n).map fun place => (place.1, place.2.unqueued) := by
  have alive (r : RootRef) : (g'.root? r).isSome = (g.root? r).isSome := by
    have same := congrArg Option.isSome (twins.roots r)
    rwa [Option.isSome_map, Option.isSome_map] at same
  rw [locateRoot?, locateRoot?, locate?_congr twins.skeleton alive]
  cases g.locate? n with
  | none => rfl
  | some location =>
    have same := twins.roots location.root
    simp only [Option.bind_eq_bind, Option.bind_some]
    cases here : g.root? location.root <;> cases here' : g'.root? location.root <;>
      simp [here, here'] at same ⊢
    exact same

theorem journal_twins :
    (Run.answered (journal n op withOwn field payload g')).1 =
        (Run.answered (journal n op withOwn field payload g)).1 ∧
      Twins (Run.answered (journal n op withOwn field payload g)).2
        (Run.answered (journal n op withOwn field payload g')).2 := by
  have places := locateRoot?_twins n twins
  rw [journal, journalBy, journalBy, answered_journalWith, answered_journalWith]
  cases place : g.locateRoot? n with
  | none =>
    rw [place, Option.map_none, Option.map_eq_none_iff] at places
    rw [places]
    exact ⟨rfl, twins⟩
  | some found =>
    obtain ⟨location, root⟩ := found
    rw [place] at places
    obtain ⟨⟨location', root'⟩, place', same⟩ := Option.map_eq_some_iff.mp places
    rw [place']
    obtain ⟨rfl, same⟩ := Prod.mk.inj same
    have layout : root'.layout = root.layout := by
      rw [← root'.layout_unqueued, ← root.layout_unqueued, same]
    have strict : root'.isStrict = root.isStrict := by
      rw [← root'.isStrict_unqueued, ← root.isStrict_unqueued, same]
    dsimp only
    rw [layout, strict, ownHooks_congr twins.skeleton]
    cases g.ownHooks.write (location'.steps n withOwn) n field op (payload root.layout)
        (.begin .record) with
    | error e d => exact ⟨rfl, twins⟩
    | ok u draft =>
      have commits := root.commit_unqueued draft
      rw [← same, root'.commit_unqueued draft] at commits
      obtain ⟨answer, after⟩ := Prod.mk.inj commits
      refine ⟨congrArg (RecordOutcome.ofCommit root.isStrict) answer, ?_, ?_⟩
      · rw [skeleton_of_nodes (nodes_setRoot _ _ _), skeleton_of_nodes (nodes_setRoot _ _ _),
          twins.skeleton]
      · intro r
        rw [root?_setRoot, root?_setRoot]
        split
        · have live := (root?_of_locateRoot? place).2
          have live' := (root?_of_locateRoot? place').2
          dsimp only at live live'
          rw [live, live', Option.map_some, Option.map_some, Option.map_some, Option.map_some, after]
        · exact twins.roots r

end Journaling

theorem scheduleSave_frame (g : Graph κ) (n : NodeRef) :
    (g.scheduleSave n).2.nodes = g.nodes ∧ (g.scheduleSave n).2.stores = g.stores ∧
      Twins g (g.scheduleSave n).2 := by
  unfold scheduleSave enqueue
  cases (g.links n).root with
  | none => exact ⟨rfl, rfl, Twins.refl g⟩
  | some r =>
    dsimp only
    split
    · rename_i root id live there
      cases root.queue? with
      | none => exact ⟨rfl, rfl, Twins.refl g⟩
      | some queue =>
        exact ⟨nodes_setRoot _ _ _, stores_setRoot _ _ _,
          twins_setRoot live (root.unqueued_setQueue _)⟩
    · exact ⟨rfl, rfl, Twins.refl g⟩

end Graph

end GraphJournal
