import Mathlib.Data.List.Induction
import GraphJournal.Proofs.Applying
import GraphJournal.Proofs.Replaying
import GraphJournal.Proofs.Saving

/-!
# Replicas

Runs of a tree whose leaves record their changes, with saves, markers and drains in between. What is
drained on the way and what is left in the journal, replayed in this order into another tree of the
same shape, makes its leaves hold what the leaves of the first tree hold. Changes that are NOT
recorded, for lack of room or any other reason, are excluded, and so are two leaves that are kept
under one identity in one store.
-/
namespace GraphJournal

set_option autoImplicit false

open MessagePack

variable {κ : Type} [Values κ]

/-- A call on a tree or on the journal of its root. -/
inductive TreeCall (κ : Type) [Values κ]
  | leaf (call : NodeCall κ) (n : NodeRef)
  | save (n : NodeRef) (mode : SaveMode)
  | marker (kind : EntryKind)
  | drain

inductive TreeAnswer
  | recorded (result : Except Error RecordOutcome)
  | saved (result : Except Error SaveOutcome)
  | marked (result : Except Error Commit)
  | drained (result : Except Error Bytes)

abbrev TreeTrace (κ : Type) [Values κ] := List (TreeCall κ × TreeAnswer)

def outcomesIn (trace : TreeTrace κ) : List RecordOutcome :=
  trace.filterMap fun
    | (_, .recorded (.ok outcome)) => some outcome
    | _ => none

def segmentsIn (trace : TreeTrace κ) : List Bytes :=
  trace.filterMap fun
    | (_, .drained (.ok bytes)) => some bytes
    | _ => none

/-- A leaf's own call, recorded under its own address. -/
def NodeCall.IsOwn : NodeCall κ → Prop
  | .number _ | .updateFor _ _ => False
  | _ => True

def Shape.IsLeaf : Option (Shape κ) → Prop
  | some (.value _) | some (.list _) | some (.persistent _ _ _ _ _) => True
  | _ => False

/-- What is recorded of a leaf of this shape can be read back. -/
def Shape.Restorable (layout : Layout) : Option (Shape κ) → Prop
  | some (.value kind) | some (.persistent kind _ _ _ _) => (Values.codec kind).RestoresShort layout
  | some (.list kind) =>
    (Values.codec kind).RestoresShort layout ∧
      (Codec.list (Values.codec kind)).RestoresShort layout
  | _ => True

namespace Graph

def writeMarker (r : RootRef) (kind : EntryKind) : GraphM κ Commit :=
  onRoot r (.noRoom 0 0) (Root.onJournal (.noRoom 0 0) (Journal.writeMarker kind))

def drain (r : RootRef) : GraphM κ Bytes :=
  onRoot r [] fun root => .ok root.drain.1 root.drain.2

def snapshot (g : Graph κ) (r : RootRef) : Bytes := ((g.root? r).map Root.data).getD []

def treeCall (r : RootRef) : TreeCall κ → Graph κ → TreeAnswer × Graph κ
  | .leaf call n, g => (Run.answered (call.run n g)).map .recorded id
  | .save n mode, g => (Run.answered (save n mode g)).map .saved id
  | .marker kind, g => (Run.answered (writeMarker r kind g)).map .marked id
  | .drain, g => (Run.answered (drain r g)).map .drained id

def treeStep (r : RootRef) (s : TreeTrace κ × Graph κ) (c : TreeCall κ) : TreeTrace κ × Graph κ :=
  (s.1 ++ [(c, (treeCall r c s.2).1)], (treeCall r c s.2).2)

def treeRun (r : RootRef) (calls : List (TreeCall κ)) (g : Graph κ) : TreeTrace κ × Graph κ :=
  calls.foldl (treeStep r) ([], g)

/-- A call that a tree is made for, on a node of it. -/
def Suits (g : Graph κ) (top : NodeRef) : TreeCall κ → Prop
  | .leaf call n => call.IsOwn ∧ call.Fits (g.shape? n) ∧ ∃ path, Reaches g top path n
  | .save n _ => Shape.IsLeaf (g.shape? n) ∧ ∃ path, Reaches g top path n
  | .marker _ | .drain => True

/-- Every leaf of one tree has one of the other at the end of the same path, which holds the same. -/
def Mirrors (g : Graph κ) (top : NodeRef) (h : Graph κ) (top' : NodeRef) : Prop :=
  ∀ path n, Reaches g top path n → Shape.IsLeaf (g.shape? n) →
    ∃ m holding, Reaches h top' path m ∧ g.held? n = some holding ∧ h.held? m = some holding ∧
      Ready h m

section Mirroring
variable {g g' : Graph κ} {top : NodeRef} {h h' : Graph κ} {top' : NodeRef}

/-- What is read of a leaf, if it can be read, is what is read of its counterpart. -/
theorem Mirrors.readValue_eq (mirrors : Mirrors g top h top') {path : List PathStep}
    {n m : NodeRef} (reaches : Reaches g top path n) (leaf : Shape.IsLeaf (g.shape? n))
    (counterpart : Reaches h top' path m) {d d' : Datum κ} (read : readValue n g = .ok (some d) g')
    (read' : readValue m h = .ok (some d') h') : d = d' := by
  obtain ⟨m', holding, counterpart', here, there, -⟩ := mirrors path n reaches leaf
  have same := node_unique counterpart' counterpart
  subst same
  rw [held?_of_readValue read] at here
  rw [held?_of_readValue read'] at there
  cases d
  cases d'
  cases here
  cases there
  rfl

theorem mirrors_of_held (mirrors : Mirrors g top h top') (skeleton : g'.skeleton = g.skeleton)
    (held : ∀ path n, Reaches g top path n → g'.held? n = g.held? n) :
    Mirrors g' top h top' := by
  intro path n reaches leaf
  have reaches := reaches_congr skeleton.symm reaches
  rw [shape?_congr skeleton] at leaf
  obtain ⟨m, holding, counterpart, here, there, ready⟩ := mirrors path n reaches leaf
  exact ⟨m, holding, counterpart, by rw [held path n reaches, here], there, ready⟩

/-- Where one leaf and its counterpart have changed alike, the trees still hold the same. -/
theorem mirrors_of_applied {r : RootRef} (attached : Attached g top r)
    (receiving : Receiving h top') (mirrors : Mirrors g top h top') {path : List PathStep}
    {n m : NodeRef} (reaches : Reaches g top path n) (counterpart : Reaches h top' path m)
    {next : Holding κ} (skeleton : g'.skeleton = g.skeleton) (now : g'.held? n = some next)
    (others : ∀ n', n' ≠ n → g'.held? n' = g.held? n') (ready : Ready h' m)
    (applied : Applied h m next h') : Mirrors g' top h' top' := by
  intro other n' reaches' leaf
  have reaches' := reaches_congr skeleton.symm reaches'
  rw [shape?_congr skeleton] at leaf
  by_cases same : n' = n
  · subst same
    rw [path_unique attached reaches' reaches]
    exact ⟨m, next, reaches_congr applied.skeleton counterpart, now, applied.now, ready⟩
  · obtain ⟨m', holding, counterpart', here, there, ready'⟩ := mirrors other n' reaches' leaf
    have apart : m' ≠ m := by
      rintro rfl
      rw [receiving.unique _ _ _ counterpart' counterpart] at reaches'
      exact same (node_unique reaches' reaches)
    refine ⟨m', holding, reaches_congr applied.skeleton counterpart', ?_, ?_, ?_⟩
    · rw [others n' same, here]
    · rw [applied.others m' apart, there]
    · exact applied.ready m' ready'

end Mirroring

def Journaled (g : Graph κ) (r : RootRef) (layout : Layout) (fs : List Frame) : Prop :=
  ∃ j queue, g.root? r = some (.journal j queue) ∧ j.config.layout = layout ∧ j.data = Frame.join fs

section Journaled
variable {g g' : Graph κ} {r : RootRef} {layout : Layout} {fs : List Frame}

theorem Journaled.of_ledger (h : Journaled g r layout fs)
    (same : (g'.root? r).map Root.ledger = (g.root? r).map Root.ledger) :
    Journaled g' r layout fs := by
  obtain ⟨j, queue, live, written, there⟩ := h
  rw [live] at same
  obtain ⟨root, live', equal⟩ := Option.map_eq_some_iff.mp same
  cases root with
  | journal j' queue' =>
    simp only [Root.ledger, Root.journal.injEq] at equal
    obtain ⟨config, data, -, -⟩ := Journal.fields_of_ledger equal.1
    exact ⟨j', queue', live', by rw [config, written], by rw [data, there]⟩
  | unbounded data => cases equal
  | refusing => cases equal

theorem Journaled.grow (h : Journaled g r layout fs) {root : Root} {f : Frame}
    (live : g.root? r = some root) (now : g'.root? r = some (root.grow f)) :
    Journaled g' r layout (fs ++ [f]) := by
  obtain ⟨j, queue, live', written, there⟩ := h
  rw [live] at live'
  cases live'
  refine ⟨j.grow f, queue, now, written, ?_⟩
  simp [Journal.grow, there]

theorem Journaled.snapshot (h : Journaled g r layout fs) : g.snapshot r = Frame.join fs := by
  obtain ⟨j, queue, live, -, there⟩ := h
  rw [Graph.snapshot, live]
  exact there

end Journaled

section Leaves
variable {g : Graph κ} {n : NodeRef} {holding : Holding κ} {layout : Layout}

/-- What holds of the shape of a leaf holds of what is in it. -/
theorem leaf_of_held (leaf : Shape.IsLeaf (g.shape? n))
    (restorable : Shape.Restorable layout (g.shape? n)) (held : g.held? n = some holding) :
    holding.IsLeaf ∧ holding.Restorable layout := by
  unfold shape? at leaf restorable
  unfold held? at held
  rcases content : g.content? n with _ | b | ⟨kind, value⟩ | ⟨kind, items⟩ | ⟨kind, cell, s⟩
  · rw [content] at held
    cases held
  · rw [content] at leaf
    cases leaf
  · rw [content] at held restorable
    cases held
    exact ⟨trivial, restorable⟩
  · rw [content] at held restorable
    cases held
    exact ⟨trivial, restorable⟩
  · rw [content] at held restorable
    simp only [Option.bind_some, holding?, Option.bind_eq_some_iff, Option.map_eq_some_iff] at held
    obtain ⟨store, -, value, -, rfl⟩ := held
    exact ⟨trivial, restorable⟩

theorem recordPrefix_of_leaf (leaf : Shape.IsLeaf (g.shape? n)) : g.recordPrefix n = .ok [] := by
  rw [recordPrefix_eq]
  generalize g.shape? n = shape at leaf
  rcases shape with _ | b | kind | kind | ⟨kind, id, config, lock, s⟩
  · cases leaf
  · cases leaf
  · rfl
  · rfl
  · rfl

end Leaves

/-- The record of a leaf consists of the path to it and of what is done there. -/
theorem exists_record {g g' : Graph κ} {top n : NodeRef} {r : RootRef} {root : Root}
    {path : List PathStep} {rev : Revision κ} {outcome : RecordOutcome} (attached : Attached g top r)
    (reaches : Reaches g top path n) (leaf : Shape.IsLeaf (g.shape? n))
    (live : g.root? r = some root) (appended : Appended ownHooks g n rev outcome g') :
    ∃ f : Frame, (rev.text root.layout).fault? = none ∧ f.kindByte = EntryKind.record.byte ∧
      f.payload = path.flatMap PathStep.bytes ++ rev.op.byte :: (rev.text root.layout).bytes ∧
      g'.root? r = some (root.grow f) := by
  obtain ⟨location, root', address, ahead, f, place, steps, front, whole, kind, payload, now⟩ :=
    appended.of_branches
  obtain ⟨place, live'⟩ := root?_of_locateRoot? place
  obtain ⟨rfl, steps'⟩ := address_of_reaches attached reaches place
  rw [live] at live'
  rw [steps'] at steps
  rw [recordPrefix_of_leaf leaf] at front
  cases live'
  cases steps
  cases front
  refine ⟨f, whole, kind, ?_, now⟩
  rw [payload, recordPayload, List.append_nil]

theorem restoresCopy_congr {g g' : Graph κ} (same : g'.skeleton = g.skeleton) {n : NodeRef}
    (restores : RestoresCopy g n) : RestoresCopy g' n := by
  intro kind id config lock s shape
  rw [shape?_congr same] at shape
  exact restores kind id config lock s shape

theorem sharesCopy_congr {g g' : Graph κ} (same : g'.skeleton = g.skeleton) {n m : NodeRef}
    (shares : SharesCopy g' n m) : SharesCopy g n m := by
  simpa only [SharesCopy, shape?_congr same] using shares

end Graph

namespace NodeCall

theorem leaf_of_isOwn {call : NodeCall κ} {shape : Option (Shape κ)} (own : call.IsOwn)
    (fits : call.Fits shape) : Shape.IsLeaf shape := by
  have single (fits : Shape.IsSingle shape) : Shape.IsLeaf shape := by
    rcases fits with ⟨kind, rfl⟩ | ⟨kind, id, config, lock, s, rfl⟩
    · trivial
    · trivial
  have list (fits : ∃ kind, shape = some (.list kind)) : Shape.IsLeaf shape := by
    obtain ⟨kind, rfl⟩ := fits
    trivial
  cases call with
  | number change => cases own
  | updateFor recorder change => cases own
  | set item => exact single fits
  | update change => exact single fits
  | push item => exact list fits
  | removeAt index => exact list fits
  | replaceAll items => exact list fits

theorem recorder_of_isOwn {call : NodeCall κ} (own : call.IsOwn) (n : NodeRef) :
    call.recorder n = n := by
  cases call with
  | number change => cases own
  | updateFor recorder change => cases own
  | set item => rfl
  | update change => rfl
  | push item => rfl
  | removeAt index => rfl
  | replaceAll items => rfl

open GraphJournal.Graph in
/-- A leaf's own call changes the leaf and is recorded, or fails. -/
theorem changed_of_isOwn {call : NodeCall κ} (own : call.IsOwn) {g : Graph κ} {n : NodeRef}
    (fits : call.Fits (g.shape? n)) : Changed ownHooks g n call (call.run n g) := by
  cases call with
  | number change => cases own
  | updateFor recorder change => cases own
  | set item => exact updateForBy_changed sound_ownHooks (fun _ _ => rfl) fits
  | update change => exact updateForBy_changed sound_ownHooks (fun _ _ => rfl) fits
  | push item =>
    obtain ⟨kind, shape⟩ := fits
    obtain ⟨items, content⟩ := exists_list shape
    exact pushBy_changed sound_ownHooks content item
  | removeAt index =>
    obtain ⟨kind, shape⟩ := fits
    obtain ⟨items, content⟩ := exists_list shape
    exact removeAtBy_changed sound_ownHooks content index
  | replaceAll items =>
    obtain ⟨kind, shape⟩ := fits
    obtain ⟨items', content⟩ := exists_list shape
    exact replaceAllBy_changed sound_ownHooks content items

end NodeCall

namespace Graph

/-- A tree to be changed, and another one that takes what is recorded of it. -/
structure Paired (g : Graph κ) (top : NodeRef) (r : RootRef) (layout : Layout) (h : Graph κ)
    (top' : NodeRef) : Prop where
  attached : Attached g top r
  restorable : ∀ path n, Reaches g top path n → Shape.Restorable layout (g.shape? n)
  restores : ∀ path n, Reaches g top path n → RestoresCopy g n
  receiving : Receiving h top'

/-- What each call preserves: what was drained and what is in the journal can be replayed into the
other tree without an incident, and then both hold the same. -/
structure Follows (g₀ : Graph κ) (top : NodeRef) (r : RootRef) (layout : Layout) (h₀ : Graph κ)
    (top' : NodeRef) (drained : List Bytes) (fs : List Frame) (g h : Graph κ) : Prop where
  skeleton : g.skeleton = g₀.skeleton
  journaled : Journaled g r layout fs
  replays : Replays top' (drained ++ [Frame.join fs]) h₀ h
  received : h.skeleton = h₀.skeleton
  mirrors : Mirrors g top h top'

section Following
variable {g₀ g g' : Graph κ} {top : NodeRef} {r : RootRef} {layout : Layout} {h₀ h : Graph κ}
  {top' : NodeRef} {drained : List Bytes} {fs : List Frame} {n : NodeRef}
  (paired : Paired g₀ top r layout h₀ top')
  (follows : Follows g₀ top r layout h₀ top' drained fs g h)

section Unchanged
include follows

theorem Follows.of_held (skeleton : g'.skeleton = g.skeleton)
    (held : ∀ path n, Reaches g top path n → g'.held? n = g.held? n)
    (ledger : (g'.root? r).map Root.ledger = (g.root? r).map Root.ledger) :
    Follows g₀ top r layout h₀ top' drained fs g' h := by
  constructor
  · rw [skeleton, follows.skeleton]
  · exact follows.journaled.of_ledger ledger
  · exact follows.replays
  · exact follows.received
  · exact mirrors_of_held follows.mirrors skeleton held

/-- A leaf and its path are the same as before the run. -/
theorem Follows.reaches {path : List PathStep} (reaches : Reaches g₀ top path n) :
    Reaches g top path n := reaches_congr follows.skeleton reaches

end Unchanged

include paired follows

/-- A record of a leaf comes to its counterpart, which changes in the same way. -/
theorem Follows.appended {call : NodeCall κ} {holding : Holding κ} {rev : Revision κ}
    {outcome : RecordOutcome} {path : List PathStep} (reaches : Reaches g₀ top path n)
    (leaf : Shape.IsLeaf (g₀.shape? n)) (was : g.held? n = some holding)
    (revised : call.revise? holding = some rev) (now : g'.held? n = some rev.next)
    (others : ∀ m, m ≠ n → g'.held? m = g.held? m) (skeleton : g'.skeleton = g.skeleton)
    (appended : Appended ownHooks g n rev outcome g') :
    ∃ fs' h', Follows g₀ top r layout h₀ top' drained fs' g' h' := by
  have attached := attached_congr follows.skeleton paired.attached
  have receiving := receiving_congr follows.received paired.receiving
  have restorable := paired.restorable path n reaches
  have reaches := follows.reaches reaches
  rw [← shape?_congr follows.skeleton] at leaf restorable
  -- The counterpart holds what the change was made of, so it comes to hold what is made of it.
  obtain ⟨m, holding', counterpart, here, there, ready⟩ := follows.mirrors path n reaches leaf
  rw [was] at here
  cases here
  obtain ⟨j, queue, live, written, -⟩ := follows.journaled
  obtain ⟨f, whole, kind, payload, live'⟩ := exists_record attached reaches leaf live appended
  have layout_eq : (Root.journal j queue).layout = layout := written
  rw [layout_eq] at whole payload
  obtain ⟨isLeaf, restorable⟩ := leaf_of_held leaf restorable was
  have applies (reader : Reader) (unread : reader.unread = f.payload) :
      ∃ h', applyRecord top' reader h = (.applied, h') ∧ Applied h m rev.next h' :=
    applied_of_reaches receiving counterpart isLeaf restorable there ready revised whole
      (payload ▸ f.fits) (payload ▸ unread)
  obtain ⟨h', replays, applied⟩ := follows.replays.record kind applies
  refine ⟨fs ++ [f], h', ?_⟩
  constructor
  · rw [skeleton, follows.skeleton]
  · exact follows.journaled.grow live live'
  · exact replays
  · rw [applied.skeleton, follows.received]
  · exact mirrors_of_applied attached receiving follows.mirrors reaches counterpart skeleton now
      others (applied.ready m ready) applied

/-- A change that fails leaves both trees as they are; any other one is recorded. -/
theorem Follows.leaf {call : NodeCall κ} (suits : Suits g₀ top (.leaf call n))
    (recorded : ∀ outcome, (Run.answered (call.run n g)).1 = .ok outcome →
      outcome.isCommitted = true) :
    ∃ fs' h', Follows g₀ top r layout h₀ top' drained fs' (Run.answered (call.run n g)).2 h' := by
  obtain ⟨own, fits, path, reaches⟩ := suits
  have leaf := NodeCall.leaf_of_isOwn own fits
  rw [← shape?_congr follows.skeleton] at fits
  have changed := NodeCall.changed_of_isOwn own fits
  generalize call.run n g = result at changed recorded
  cases changed with
  | failed alike ledgers =>
    refine ⟨fs, h, follows.of_held alike.skeleton ?_ (ledgers r)⟩
    intro path m _
    exact alike.held m
  | done was revised now others skeleton stores appended missed =>
    have committed := recorded _ rfl
    have appended := appended committed
    rw [NodeCall.recorder_of_isOwn own] at appended
    exact follows.appended paired reaches leaf was revised now others skeleton appended

theorem Follows.save (apart : Apart g₀ top) {mode : SaveMode}
    (suits : Suits g₀ top (.save n mode)) :
    Follows g₀ top r layout h₀ top' drained fs (Run.answered (save n mode g)).2 h := by
  obtain ⟨leaf, path, reaches⟩ := suits
  rw [← shape?_congr follows.skeleton] at leaf
  have restores := restoresCopy_congr follows.skeleton (paired.restores path n reaches)
  obtain ⟨m, holding, -, held, -, -⟩ := follows.mirrors path n (follows.reaches reaches) leaf
  have saved := save_saved restores held mode
  refine follows.of_held saved.skeleton ?_ (by rw [root?_of_roots saved.roots])
  intro other n' reaches'
  by_cases same : n' = n
  · rw [same, saved.same]
  · apply saved.others n' same
    intro shares
    exact apart path other n n' reaches (reaches_congr follows.skeleton.symm reaches')
      (Ne.symm same) (sharesCopy_congr follows.skeleton shares)

omit paired in
/-- A root that is put back, with more in its journal or without it, is no matter for the nodes. -/
theorem Follows.of_setRoot {root : Root} {drained' : List Bytes} {fs' : List Frame}
    (journaled : Journaled (g.setRoot r root) r layout fs')
    (replays : Replays top' (drained' ++ [Frame.join fs']) h₀ h) :
    Follows g₀ top r layout h₀ top' drained' fs' (g.setRoot r root) h := by
  have nodes := nodes_setRoot g r root
  have skeleton := skeleton_of_nodes nodes
  constructor
  · rw [skeleton, follows.skeleton]
  · exact journaled
  · exact replays
  · exact follows.received
  · apply mirrors_of_held follows.mirrors skeleton
    intro path m _
    exact held?_of_eq (content?_of_nodes nodes m) (stores_setRoot g r root)

omit paired in
/-- A marker is passed over in the replay. -/
theorem Follows.marker (kind : EntryKind) :
    ∃ fs', Follows g₀ top r layout h₀ top' drained fs'
      (Run.answered (writeMarker r kind g)).2 h := by
  obtain ⟨j, queue, live, written, there⟩ := follows.journaled
  have refused (j' : Journal) (same : j'.ledger = j.ledger) :
      Follows g₀ top r layout h₀ top' drained fs (g.setRoot r (.journal j' queue)) h := by
    refine follows.of_setRoot ?_ follows.replays
    apply follows.journaled.of_ledger
    rw [root?_setRoot, if_pos rfl, live]
    simp only [Option.map_some, Root.ledger, same]
  unfold writeMarker onRoot
  simp only [live, Root.onJournal]
  cases dispatched : kind.isDispatched with
  | true =>
    rw [Journal.writeMarker_dispatched dispatched]
    exact ⟨fs, refused j rfl⟩
  | false =>
    rw [Journal.writeMarker_eq_commit dispatched]
    have result := Journal.commit_result (Draft.Begun.begin kind).header_le j
    generalize Journal.commit (.begin kind) j = answer at result
    cases result with
    | oversized size => exact ⟨fs, refused _ rfl⟩
    | unframed size long => exact ⟨fs, refused _ rfl⟩
    | noRoom size room => exact ⟨fs, refused _ rfl⟩
    | appended f size room byte payload frame =>
      refine ⟨fs ++ [f], follows.of_setRoot ?_ (follows.replays.other byte dispatched)⟩
      apply follows.journaled.grow live
      rw [root?_setRoot, if_pos rfl, live]
      rfl

omit paired in
/-- What is drained is replayed before what is to come. -/
theorem Follows.drain :
    Follows g₀ top r layout h₀ top' (drained ++ [Frame.join fs]) []
        (Run.answered (drain r g)).2 h ∧
      (Run.answered (Graph.drain r g)).1 = .ok (Frame.join fs) := by
  obtain ⟨j, queue, live, written, there⟩ := follows.journaled
  unfold Graph.drain onRoot
  simp only [live, Root.drain]
  constructor
  · refine follows.of_setRoot ?_ follows.replays.drained
    refine ⟨j.drain.2, queue, ?_, written, rfl⟩
    rw [root?_setRoot, if_pos rfl, live]
    rfl
  · exact congrArg Except.ok there

end Following

theorem outcomesIn_append (xs ys : TreeTrace κ) :
    outcomesIn (xs ++ ys) = outcomesIn xs ++ outcomesIn ys := List.filterMap_append

theorem segmentsIn_append (xs ys : TreeTrace κ) :
    segmentsIn (xs ++ ys) = segmentsIn xs ++ segmentsIn ys := List.filterMap_append

theorem segmentsIn_other {r : RootRef} (c : TreeCall κ) (other : c ≠ .drain) (g : Graph κ) :
    segmentsIn [(c, (treeCall r c g).1)] = [] := by
  cases c with
  | leaf call n => rfl
  | save n mode => rfl
  | marker kind => rfl
  | drain => exact absurd rfl other

section Runs
variable {g₀ g : Graph κ} {top : NodeRef} {r : RootRef} {layout : Layout} {h₀ h : Graph κ}
  {top' : NodeRef} {fs : List Frame} (paired : Paired g₀ top r layout h₀ top')
  (apart : Apart g₀ top)
include paired apart

/-- One call, and what the other tree gets of it. -/
theorem follows_step {trace : TreeTrace κ} {c : TreeCall κ} (suits : Suits g₀ top c)
    (recorded : ∀ outcome ∈ outcomesIn [(c, (treeCall r c g).1)], outcome.isCommitted = true)
    (follows : Follows g₀ top r layout h₀ top' (segmentsIn trace) fs g h) :
    ∃ fs' h', Follows g₀ top r layout h₀ top' (segmentsIn (treeStep r (trace, g) c).1) fs'
      (treeStep r (trace, g) c).2 h' := by
  have segments : segmentsIn (treeStep r (trace, g) c).1 =
      segmentsIn trace ++ segmentsIn [(c, (treeCall r c g).1)] := segmentsIn_append _ _
  rw [segments]
  cases c with
  | leaf call n =>
    rw [segmentsIn_other (.leaf call n) nofun, List.append_nil]
    apply follows.leaf paired suits
    intro outcome answer
    apply recorded
    rw [treeCall, Prod.map, answer]
    exact List.mem_cons_self
  | save n mode =>
    rw [segmentsIn_other (.save n mode) nofun, List.append_nil]
    exact ⟨fs, h, follows.save paired apart suits⟩
  | marker kind =>
    rw [segmentsIn_other (.marker kind) nofun, List.append_nil]
    obtain ⟨fs', next⟩ := follows.marker kind
    exact ⟨fs', h, next⟩
  | drain =>
    obtain ⟨next, answer⟩ := follows.drain
    refine ⟨[], h, ?_⟩
    rw [treeCall, Prod.map, answer]
    exact next

theorem follows_run (calls : List (TreeCall κ)) (suits : ∀ c ∈ calls, Suits g₀ top c)
    (recorded : ∀ outcome ∈ outcomesIn (treeRun r calls g₀).1, outcome.isCommitted = true)
    (start : Follows g₀ top r layout h₀ top' [] [] g₀ h₀) :
    ∃ fs h, Follows g₀ top r layout h₀ top' (segmentsIn (treeRun r calls g₀).1) fs
      (treeRun r calls g₀).2 h := by
  -- From the last call backwards: what has been recorded before it is recorded in the whole run.
  induction calls using List.reverseRecOn with
  | nil => exact ⟨[], h₀, start⟩
  | append_singleton calls c ih =>
    have last : treeRun r (calls ++ [c]) g₀ = treeStep r (treeRun r calls g₀) c := by
      rw [treeRun, List.foldl_append]
      rfl
    rw [last, treeStep, outcomesIn_append] at recorded
    obtain ⟨fs, h, follows⟩ := ih
      (fun c mem => suits c (List.mem_append_left _ mem))
      (fun outcome mem => recorded outcome (List.mem_append_left _ mem))
    rw [last]
    exact follows_step paired apart (suits c (List.mem_append_right _ List.mem_cons_self))
      (fun outcome mem => recorded outcome (List.mem_append_right _ mem)) follows

end Runs

/-- Every run in which each change that does not fail is recorded: what was drained, and then what
the journal still has, makes the other tree hold the same. -/
theorem replica_mirrors {g h : Graph κ} {top top' : NodeRef} {r : RootRef} {j : Journal}
    {queue : SaveQueue NodeRef} (paired : Paired g top r j.config.layout h top')
    (apart : Apart g top) (live : g.root? r = some (.journal j queue)) (empty : j.data = [])
    (mirrors : Mirrors g top h top') (calls : List (TreeCall κ)) (suits : ∀ c ∈ calls, Suits g top c)
    (recorded : ∀ outcome ∈ outcomesIn (treeRun r calls g).1, outcome.isCommitted = true) :
    ∃ h', Replays top' (segmentsIn (treeRun r calls g).1 ++ [(treeRun r calls g).2.snapshot r]) h h' ∧
      Mirrors (treeRun r calls g).2 top h' top' := by
  have none : Replays top' [] h h := ⟨fun _ mem => (List.not_mem_nil mem).elim, rfl⟩
  have start : Follows g top r j.config.layout h top' [] [] g h :=
    ⟨rfl, ⟨j, queue, live, rfl, empty⟩, none.drained, rfl, mirrors⟩
  obtain ⟨fs, h', follows⟩ := follows_run paired apart calls suits recorded start
  refine ⟨h', ?_, follows.mirrors⟩
  rw [follows.journaled.snapshot]
  exact follows.replays

/-- A byte and a list of bytes under keys, and a byte that can be released under a name and a key. -/
def plot : Graph ValueType where
  nodes := #[
    some {
      content := .branch {
        keyed := (OrderedMap.empty.insert 0 ⟨1⟩).insert 5 ⟨2⟩
        named := OrderedMap.empty.insert [7] ⟨3⟩ }
      links := { root := some ⟨0⟩ } },
    some { content := .value .u8 (1 : UInt8), links := { parent := some ⟨0⟩, key := 0 } },
    some { content := .list .u8 [], links := { parent := some ⟨0⟩, key := 5 } },
    some {
      content := .branch { keyed := OrderedMap.empty.insert 2 ⟨4⟩, address := .locator [7] }
      links := { parent := some ⟨0⟩ } },
    some {
      content := .persistent .u8 { id := ⟨9⟩, state := .resident (3 : UInt8) } ⟨0⟩
      links := { parent := some ⟨3⟩, key := 2 } }]
  roots := #[some (.journal { config := .forTesting } {})]
  stores := #[.memory {}]

theorem plot_attached : Attached plot ⟨0⟩ ⟨0⟩ :=
  attached_of_steps rfl rfl (by decide) rfl (by decide +kernel)

theorem plot_node {path : List PathStep} {n : NodeRef} (reaches : Reaches plot ⟨0⟩ path n) :
    n = ⟨0⟩ ∨ n = ⟨1⟩ ∨ n = ⟨2⟩ ∨ n = ⟨3⟩ ∨ n = ⟨4⟩ := by
  have below : plot.steps.map (·.2.2) = [⟨1⟩, ⟨2⟩, ⟨3⟩, ⟨4⟩] := by decide +kernel
  simpa using among_steps below reaches

theorem restorable_u8 (layout : Layout) :
    Shape.Restorable layout (some (.value ValueType.u8)) ∧
      Shape.Restorable layout (some (.list ValueType.u8)) := by
  have single : Codec.uint8.RestoresShort layout :=
    (Codec.lossless_uint8 layout maxDepth).restores.short
  have list : (Codec.list Codec.uint8).RestoresShort layout :=
    Codec.restoresShort_list (Codec.lossless_uint8 layout _) (Codec.uint8_ne_nil layout)
  exact ⟨single, single, list⟩

theorem plot_paired : Paired plot ⟨0⟩ ⟨0⟩ .compact plot ⟨0⟩ := by
  constructor
  · exact plot_attached
  · intro path n reaches
    rcases plot_node reaches with rfl | rfl | rfl | rfl | rfl
    · trivial
    · exact (restorable_u8 .compact).1
    · exact (restorable_u8 .compact).2
    · trivial
    · exact (restorable_u8 .compact).1
  · intro path n reaches kind id config lock s shape
    rcases plot_node reaches with rfl | rfl | rfl | rfl | rfl <;> cases shape
    exact (Codec.lossless_uint8 _ maxDepth).restores
  · apply receiving_of_attached plot_attached
    intro path n b reaches shape
    rcases plot_node reaches with rfl | rfl | rfl | rfl | rfl <;> cases shape
    · rfl
    · rfl

theorem plot_apart : Apart plot ⟨0⟩ := by
  intro path other n m reaches reaches' apart shares
  obtain ⟨kind, kind', id, config, config', lock, lock', s, shape, shape'⟩ := shares
  rcases plot_node reaches with rfl | rfl | rfl | rfl | rfl <;> cases shape
  rcases plot_node reaches' with rfl | rfl | rfl | rfl | rfl <;> cases shape'
  exact apart rfl

theorem plot_mirrors : Mirrors plot ⟨0⟩ plot ⟨0⟩ := by
  intro path n reaches leaf
  rcases plot_node reaches with rfl | rfl | rfl | rfl | rfl
  · exact leaf.elim
  · refine ⟨_, .single .u8 (1 : UInt8), reaches, rfl, rfl, ?_⟩
    intro kind cell s content
    cases content
  · refine ⟨_, .list .u8 [], reaches, rfl, rfl, ?_⟩
    intro kind cell s content
    cases content
  · exact leaf.elim
  · refine ⟨_, .single .u8 (3 : UInt8), reaches, rfl, rfl, ?_⟩
    intro kind cell s content
    cases content
    exact ⟨⟨_, rfl⟩, rfl, _, rfl⟩

def nothing : Item ValueType := fun kind => (Values.codec kind).default

/-- Changes of every leaf, of which one fails, with a drain in between and a value that is away. -/
def plotCalls : List (TreeCall ValueType) :=
  [.leaf (.set nothing) ⟨1⟩, .leaf (.push nothing) ⟨2⟩, .marker .waypoint, .drain,
    .save ⟨4⟩ .forceRelease, .leaf (.set nothing) ⟨4⟩, .leaf (.removeAt 0) ⟨2⟩,
    .leaf (.removeAt 0) ⟨2⟩, .save ⟨4⟩ .tryRelease]

theorem plot_suits : ∀ c ∈ plotCalls, Suits plot ⟨0⟩ c := by
  have one : Reaches plot ⟨0⟩ [.key 0] ⟨1⟩ := Reaches.top.child rfl
  have two : Reaches plot ⟨0⟩ [.key 5] ⟨2⟩ := Reaches.top.child rfl
  have four : Reaches plot ⟨0⟩ [.locator [7], .key 2] ⟨4⟩ := (Reaches.top.child rfl).child rfl
  intro c mem
  simp only [plotCalls, List.mem_cons, List.not_mem_nil, or_false] at mem
  rcases mem with rfl | rfl | rfl | rfl | rfl | rfl | rfl | rfl | rfl
  · exact ⟨trivial, Or.inl ⟨_, rfl⟩, _, one⟩
  · exact ⟨trivial, ⟨_, rfl⟩, _, two⟩
  · trivial
  · trivial
  · exact ⟨trivial, _, four⟩
  · exact ⟨trivial, Or.inr ⟨_, _, _, _, _, rfl⟩, _, four⟩
  · exact ⟨trivial, ⟨_, rfl⟩, _, two⟩
  · exact ⟨trivial, ⟨_, rfl⟩, _, two⟩
  · exact ⟨trivial, _, four⟩

theorem plot_replica :
    plot.root? ⟨0⟩ = some (.journal { config := .forTesting } {}) ∧
      Paired plot ⟨0⟩ ⟨0⟩ .compact plot ⟨0⟩ ∧ Apart plot ⟨0⟩ ∧ Mirrors plot ⟨0⟩ plot ⟨0⟩ ∧
      ∃ h, Replays ⟨0⟩ (segmentsIn (treeRun ⟨0⟩ plotCalls plot).1 ++
          [(treeRun ⟨0⟩ plotCalls plot).2.snapshot ⟨0⟩]) plot h ∧
        Mirrors (treeRun ⟨0⟩ plotCalls plot).2 ⟨0⟩ h ⟨0⟩ := by
  have recorded : ∀ outcome ∈ outcomesIn (treeRun ⟨0⟩ plotCalls plot).1,
      outcome.isCommitted = true := by
    decide +kernel
  have live : plot.root? ⟨0⟩ = some (.journal { config := .forTesting } {}) := rfl
  exact ⟨live, plot_paired, plot_apart, plot_mirrors,
    replica_mirrors plot_paired plot_apart live rfl plot_mirrors plotCalls plot_suits recorded⟩

/-- Two bytes that are kept under one identity in one store. -/
def twins : Graph ValueType where
  nodes := #[
    some {
      content := .branch { keyed := (OrderedMap.empty.insert 0 ⟨1⟩).insert 1 ⟨2⟩ }
      links := { root := some ⟨0⟩ } },
    some {
      content := .persistent .u8 { id := ⟨7⟩, state := .resident (1 : UInt8) } ⟨0⟩
      links := { parent := some ⟨0⟩, key := 0 } },
    some {
      content := .persistent .u8 { id := ⟨7⟩, state := .resident (2 : UInt8) } ⟨0⟩
      links := { parent := some ⟨0⟩, key := 1 } }]
  roots := #[some (.journal { config := .forTesting } {})]
  stores := #[.memory {}]

def twinSaves : List (TreeCall ValueType) :=
  [.save ⟨1⟩ .forceRelease, .save ⟨2⟩ .forceRelease]

theorem twins_attached : Attached twins ⟨0⟩ ⟨0⟩ :=
  attached_of_steps rfl rfl (by decide) rfl (by decide +kernel)

theorem twins_node {path : List PathStep} {n : NodeRef} (reaches : Reaches twins ⟨0⟩ path n) :
    n = ⟨0⟩ ∨ n = ⟨1⟩ ∨ n = ⟨2⟩ := by
  have below : twins.steps.map (·.2.2) = [⟨1⟩, ⟨2⟩] := by decide +kernel
  simpa using among_steps below reaches

theorem twins_paired : Paired twins ⟨0⟩ ⟨0⟩ .compact twins ⟨0⟩ := by
  constructor
  · exact twins_attached
  · intro path n reaches
    rcases twins_node reaches with rfl | rfl | rfl
    · trivial
    · exact (restorable_u8 .compact).1
    · exact (restorable_u8 .compact).1
  · intro path n reaches kind id config lock s shape
    rcases twins_node reaches with rfl | rfl | rfl <;> cases shape
    · exact (Codec.lossless_uint8 _ maxDepth).restores
    · exact (Codec.lossless_uint8 _ maxDepth).restores
  · apply receiving_of_attached twins_attached
    intro path n b reaches shape
    rcases twins_node reaches with rfl | rfl | rfl <;> cases shape
    rfl

theorem twins_mirrors : Mirrors twins ⟨0⟩ twins ⟨0⟩ := by
  intro path n reaches leaf
  rcases twins_node reaches with rfl | rfl | rfl
  · exact leaf.elim
  · refine ⟨_, .single .u8 (1 : UInt8), reaches, rfl, rfl, ?_⟩
    intro kind cell s content
    cases content
    exact ⟨⟨_, rfl⟩, rfl, _, rfl⟩
  · refine ⟨_, .single .u8 (2 : UInt8), reaches, rfl, rfl, ?_⟩
    intro kind cell s content
    cases content
    exact ⟨⟨_, rfl⟩, rfl, _, rfl⟩

/-- After the saves the first of the two is read as the second, and its counterpart is not. -/
theorem twins_differ :
    twins.root? ⟨0⟩ = some (.journal { config := .forTesting } {}) ∧
      Paired twins ⟨0⟩ ⟨0⟩ .compact twins ⟨0⟩ ∧ Mirrors twins ⟨0⟩ twins ⟨0⟩ ∧
      (∀ c ∈ twinSaves, Suits twins ⟨0⟩ c) ∧ outcomesIn (treeRun ⟨0⟩ twinSaves twins).1 = [] ∧
      ¬ ∃ h, Replays ⟨0⟩ (segmentsIn (treeRun ⟨0⟩ twinSaves twins).1 ++
          [(treeRun ⟨0⟩ twinSaves twins).2.snapshot ⟨0⟩]) twins h ∧
        Mirrors (treeRun ⟨0⟩ twinSaves twins).2 ⟨0⟩ h ⟨0⟩ := by
  have one : Reaches twins ⟨0⟩ [.key 0] ⟨1⟩ := Reaches.top.child rfl
  have two : Reaches twins ⟨0⟩ [.key 1] ⟨2⟩ := Reaches.top.child rfl
  refine ⟨rfl, twins_paired, twins_mirrors, ?_, rfl, ?_⟩
  · intro c mem
    simp only [twinSaves, List.mem_cons, List.not_mem_nil, or_false] at mem
    rcases mem with rfl | rfl
    · exact ⟨trivial, _, one⟩
    · exact ⟨trivial, _, two⟩
  · rintro ⟨h, replays, mirrors⟩
    have segments : segmentsIn (treeRun ⟨0⟩ twinSaves twins).1 ++
        [(treeRun ⟨0⟩ twinSaves twins).2.snapshot ⟨0⟩] = [[]] := rfl
    have unchanged : h = twins := by
      rw [← replays.after, segments, replayAll, replay_nil]
      rfl
    subst unchanged
    have held : (treeRun ⟨0⟩ twinSaves twins).2.held? ⟨1⟩ = some (.single .u8 (2 : UInt8)) := rfl
    obtain ⟨m, holding, counterpart, here, there, -⟩ :=
      mirrors [.key 0] ⟨1⟩ (Reaches.top.child rfl) trivial
    have same : m = ⟨1⟩ := node_unique counterpart one
    subst same
    rw [held] at here
    cases here
    cases there

end Graph

end GraphJournal
