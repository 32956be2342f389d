import GraphJournal.Proofs.Commit
import GraphJournal.Proofs.Hooks
import GraphJournal.Proofs.Skeleton

/-!
# Recordings

All that journaling a change of a node can do to a graph, whatever the hooks on the way write: append
one whole entry, which ends with the change, to the journal of the node's root, or leave everything
but the counts of refusals as it is. What is recorded is a marker and an encoded value; records with
more than that are NOT treated.
-/
namespace GraphJournal

set_option autoImplicit false

open MessagePack

namespace Graph

variable {κ : Type} [Values κ]

/-- Nodes and stores are the same, and roots but for their counts of refusals. -/
structure Quiet (g g' : Graph κ) : Prop where
  nodes : g'.nodes = g.nodes
  stores : g'.stores = g.stores
  ledgers : ∀ r, (g'.root? r).map Root.ledger = (g.root? r).map Root.ledger

theorem Quiet.refl (g : Graph κ) : Quiet g g := ⟨rfl, rfl, fun _ => rfl⟩

theorem Quiet.held? {g g' : Graph κ} (quiet : Quiet g g') (n : NodeRef) : g'.held? n = g.held? n :=
  held?_of_eq (content?_of_nodes quiet.nodes n) quiet.stores

theorem quiet_setRoot (g : Graph κ) {r : RootRef} {root root' : Root} (there : g.root? r = some root)
    (same : root'.ledger = root.ledger) : Quiet g (g.setRoot r root') := by
  refine ⟨nodes_setRoot g r root', stores_setRoot g r root', ?_⟩
  intro other
  rw [root?_setRoot]
  split
  · rename_i here
    rw [here, there, Option.map_some, Option.map_some, Option.map_some, same]
  · rfl

def recordPayload (address ahead : Bytes) (op : Marker) (value : Bytes) : Bytes :=
  address ++ ahead ++ op.byte :: value

/-- The ways in which the recording of a change can end. -/
inductive Recorded (h : Hooks) (g : Graph κ) (n : NodeRef) (op : Marker) (text : Layout → Encoded) :
    EStateM.Result Error (Graph κ) RecordOutcome → Prop
  | failed {e : Error} {g' : Graph κ} (quiet : Quiet g g') : Recorded h g n op text (.error e g')
  | missed {outcome : RecordOutcome} {g' : Graph κ} (missed : outcome.isCommitted = false)
      (quiet : Quiet g g') : Recorded h g n op text (.ok outcome g')
  | appended {location : Location} {root : Root} {front : Draft} {f : Frame}
      (place : g.locateRoot? n = some (location, root))
      (written : h.front (location.steps n true) n none (.begin .record) = .ok () front)
      (whole : (text root.layout).fault? = none) (kind : f.kindByte = front.kindByte)
      (payload : f.payload = front.payload ++ op.byte :: (text root.layout).bytes) :
      Recorded h g n op text
        (.ok (.committed (root.sequence f)) (g.setRoot location.root (root.grow f)))

theorem Recorded.nodes {h : Hooks} {g g' : Graph κ} {n : NodeRef} {op : Marker}
    {text : Layout → Encoded} {outcome : RecordOutcome}
    (recorded : Recorded h g n op text (.ok outcome g')) : g'.nodes = g.nodes := by
  cases recorded with
  | missed missed quiet => exact quiet.nodes
  | appended place written whole kind payload => exact nodes_setRoot _ _ _

theorem root?_of_locateRoot? {g : Graph κ} {n : NodeRef} {location : Location} {root : Root}
    (h : g.locateRoot? n = some (location, root)) :
    g.locate? n = some location ∧ g.root? location.root = some root := by
  unfold locateRoot? at h
  cases place : g.locate? n with
  | none =>
    rw [place] at h
    cases h
  | some found =>
    rw [place] at h
    cases live : g.root? found.root with
    | none => simp [live] at h
    | some root' =>
      simp only [Option.bind_eq_bind, Option.bind_some, live] at h
      cases h
      exact ⟨rfl, live⟩

@[simp] theorem journalBy_ownHooks (n : NodeRef) (op : Marker) (withOwn : Bool)
    (field : Option UInt32) (payload : Layout → DraftM Unit) :
    journalBy (κ := κ) ownHooks n op withOwn field payload = journal n op withOwn field payload := rfl

theorem draft_value {α : Type} (c : Codec α) (layout : Layout) (a : α) (d : Draft) :
    (∃ e d', Draft.value c layout a d = .error e d') ∨
      ((c.encode layout a).fault? = none ∧
        Draft.value c layout a d = .ok () (d.append (c.encode layout a).bytes)) := by
  unfold Draft.value Draft.onWriter Writer.value Writer.encoded
  cases (c.encode layout a).fault? with
  | some fault => exact Or.inl ⟨_, _, rfl⟩
  | none => exact Or.inr ⟨rfl, rfl⟩

/-- A record that is complete is what stood before the marker, the marker and the value. -/
theorem written_value {α : Type} {h : Hooks} {steps : List (NodeRef × Int32)} {n : NodeRef}
    {op : Marker} {c : Codec α} {layout : Layout} {a : α} {d draft : Draft}
    (written : h.write steps n none op (Draft.value c layout a) d = .ok () draft) :
    ∃ front, h.front steps n none d = .ok () front ∧ (c.encode layout a).fault? = none ∧
      draft = front.append (op.byte :: (c.encode layout a).bytes) := by
  rw [Hooks.write, Run.bind_apply] at written
  cases run : h.front steps n none d with
  | error e d' =>
    rw [run] at written
    cases written
  | ok u front =>
    rw [run] at written
    simp only [Run.bind_apply, Run.modify_apply] at written
    rcases draft_value c layout a (front.marker op) with ⟨e, d', failed⟩ | ⟨whole, done⟩
    · rw [failed] at written
      cases written
    · rw [done] at written
      cases written
      exact ⟨front, rfl, whole, Draft.append_append front [op.byte] _⟩

theorem settle_failed (strict : Bool) (e : Error) (g : Graph κ) :
    (∃ e', settle strict (.error e) g = .error e' g) ∨
      ∃ outcome, outcome.isCommitted = false ∧ settle strict (.error e) g = .ok outcome g := by
  cases strict with
  | true => exact Or.inl ⟨e, rfl⟩
  | false => cases e <;> exact Or.inr ⟨_, rfl, rfl⟩

theorem settle_noRoom (strict : Bool) (needed remaining : Nat) (g : Graph κ) :
    (∃ e', settle strict (.ok (.noRoom needed remaining)) g = .error e' g) ∨
      ∃ outcome, outcome.isCommitted = false ∧
        settle strict (.ok (.noRoom needed remaining)) g = .ok outcome g := by
  cases strict with
  | true => exact Or.inl ⟨_, rfl⟩
  | false => exact Or.inr ⟨_, rfl, rfl⟩

theorem settle_appended (strict : Bool) (sequence : Nat) (g : Graph κ) :
    settle strict (.ok (.appended sequence)) g = .ok (.committed sequence) g := by
  cases strict <;> rfl

theorem answered_settle (strict : Bool) (commit : Except Error Commit) (g : Graph κ) :
    Run.answered (settle strict commit g) = (RecordOutcome.ofCommit strict commit, g) := by
  unfold settle
  cases RecordOutcome.ofCommit strict commit <;> rfl

/-- What a record about a node is answered with, and what it makes of the graph. -/
theorem answered_journalWith (h : Hooks) (n : NodeRef) (op : Marker) (withOwn : Bool)
    (field : Option UInt32) (payload : Layout → DraftM Unit) (g : Graph κ) :
    Run.answered (journalWith h n op withOwn field payload g) =
      match g.locateRoot? n with
      | none => (.ok .unattached, g)
      | some (location, root) =>
        match h.write (location.steps n withOwn) n field op (payload root.layout)
          (.begin .record) with
        | .error e _ => (RecordOutcome.ofCommit root.isStrict (.error e), g)
        | .ok () draft =>
          (RecordOutcome.ofCommit root.isStrict (Run.answered (root.commit draft)).1,
            g.setRoot location.root (Run.answered (root.commit draft)).2) := by
  unfold journalWith
  cases g.locateRoot? n with
  | none => rfl
  | some place =>
    obtain ⟨location, root⟩ := place
    dsimp only
    cases h.write (location.steps n withOwn) n field op (payload root.layout) (.begin .record) with
    | error e d => exact answered_settle _ _ g
    | ok u draft =>
      dsimp only
      cases root.commit draft <;> exact answered_settle _ _ _

section Journal
variable {α : Type} {h : Hooks} (sound : h.Sound) (g : Graph κ) (n : NodeRef) (op : Marker)
  (c : Codec α) (a : α)

theorem recorded_of_settled {g' : Graph κ} (quiet : Quiet g g')
    {result : EStateM.Result Error (Graph κ) RecordOutcome}
    (settled : (∃ e, result = .error e g') ∨
      ∃ outcome : RecordOutcome, outcome.isCommitted = false ∧ result = .ok outcome g') :
    Recorded h g n op (c.encode · a) result := by
  rcases settled with ⟨e, rfl⟩ | ⟨outcome, missed, rfl⟩
  · exact .failed quiet
  · exact .missed missed quiet

include sound in
theorem journalWith_result :
    Recorded h g n op (c.encode · a) (journalWith h n op true none (Draft.value c · a) g) := by
  unfold journalWith
  cases place : g.locateRoot? n with
  | none => exact .missed rfl (Quiet.refl g)
  | some found =>
    obtain ⟨location, root⟩ := found
    obtain ⟨-, live⟩ := root?_of_locateRoot? place
    dsimp only
    cases run : h.write (location.steps n true) n none op (Draft.value c root.layout a)
        (.begin .record) with
    | error e d => exact recorded_of_settled g n op c a (Quiet.refl g) (settle_failed _ e g)
    | ok u draft =>
      obtain ⟨front, written, whole, rfl⟩ := written_value run
      have header := (sound.begun_front written).header_le
      have begun := (sound.begun_front written).append
        (op.byte :: (c.encode root.layout a).bytes)
      have answer := Root.commit_result begun.header_le root
      dsimp only
      generalize Root.commit _ root = result at answer
      cases answer with
      | failed same =>
        exact recorded_of_settled g n op c a (quiet_setRoot g live same) (settle_failed _ _ _)
      | noRoom same =>
        exact recorded_of_settled g n op c a (quiet_setRoot g live same) (settle_noRoom _ _ _ _)
      | appended f kind payload frame =>
        simp only [settle_appended]
        rw [Draft.kindByte_append header] at kind
        rw [Draft.payload_append header] at payload
        exact .appended place written whole kind payload

end Journal

end Graph

end GraphJournal
