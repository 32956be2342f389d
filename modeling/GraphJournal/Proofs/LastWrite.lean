import GraphJournal.Proofs.RecordGrammar
import GraphJournal.Proofs.Replica
import GraphJournal.Proofs.Visits

/-!
# The last word about a leaf

Replays of journals in which every record comes from a leaf whose single value was set or updated.
Such a record tells one leaf its value, whatever the leaf held before. So the last record about a
leaf counts, and leaves that no record is about keep what they hold. Records of lists and of the
numbers of branches are NOT treated: an item is added to the items that are there.
-/
namespace GraphJournal

set_option autoImplicit false

open MessagePack

variable {κ : Type} [Values κ]

/-- A leaf, and the value that it is told. -/
structure Word (κ : Type) [Values κ] where
  leaf : NodeRef
  kind : κ
  value : Values.Carrier kind

/-- The kind of the single value that a node of this shape holds. -/
def Shape.singleKind? : Option (Shape κ) → Option κ
  | some (.value kind) | some (.persistent kind _ _ _ _) => some kind
  | _ => none

def NodeCall.Assigns : NodeCall κ → Prop
  | .set _ | .update _ => True
  | _ => False

/-- The leaf holds values of this kind. -/
def Word.Fits (w : Word κ) (h : Graph κ) : Prop :=
  Shape.singleKind? (h.shape? w.leaf) = some w.kind

/-- The content of a leaf that has been told a value. Any other content stays as it is. -/
def Content.tell (kind : κ) (value : Values.Carrier kind) : Content κ → Content κ
  | .value _ _ => .value kind value
  | .persistent _ cell s => .persistent kind { cell with state := .resident value } s
  | other => other

theorem Content.tell_tell {kind kind' : κ} (value : Values.Carrier kind)
    (value' : Values.Carrier kind') (c : Content κ) :
    (c.tell kind value).tell kind' value' = c.tell kind' value' := by
  cases c <;> rfl

namespace Frame

section Paths
variable {f : Frame} {path path' : List PathStep} {bytes bytes' rest : Bytes}

theorem short_of_payload (payload : f.payload = path.flatMap PathStep.bytes ++ rest) :
    (path.flatMap PathStep.bytes).length < 2 ^ 64 := by
  have fits := f.fits
  rw [payload, List.length_append] at fits
  simp only [maxLengthField] at fits
  omega

theorem parts_of_payload
    (payload : f.payload = path.flatMap PathStep.bytes ++ Marker.value.byte :: bytes) :
    ∃ r, Read.parts (.ofBytes f.payload 0) =
      .ok (path.map PathStep.segment ++ [.terminal .value]) r ∧ r.unread = bytes := by
  have short : ∀ step ∈ path, step.bytes.length < 2 ^ 64 := by
    intro step mem
    refine Nat.lt_of_le_of_lt ?_ (short_of_payload payload)
    exact (List.sublist_flatten_of_mem (List.mem_map_of_mem mem)).length_le
  apply Read.reads_parts short (by rfl : Marker.value.isTerminal = true)
  rw [List.flatMap_append, List.flatMap_map, List.append_assoc]
  exact payload

/-- The path in a record ends where the marker is, so no two paths are read from one record. -/
theorem path_of_payload
    (payload : f.payload = path.flatMap PathStep.bytes ++ Marker.value.byte :: bytes)
    (payload' : f.payload = path'.flatMap PathStep.bytes ++ Marker.value.byte :: bytes') :
    path = path' ∧ bytes = bytes' := by
  obtain ⟨r, read, rest⟩ := parts_of_payload payload
  obtain ⟨r', read', rest'⟩ := parts_of_payload payload'
  rw [read] at read'
  obtain ⟨parts, rfl⟩ := EStateM.Result.ok.inj read'
  have steps := (List.map_inj_right PathStep.segment_injective).mp (List.append_cancel_right parts)
  exact ⟨steps, rest.symm.trans rest'⟩

end Paths

/-- What a replay counts that meets an entry of this kind, and no record that is refused. -/
def countKind (stats : ReplayStats) (kindByte : UInt8) : ReplayStats :=
  if kindByte = EntryKind.record.byte then stats.countRecord .applied
  else stats.countOther (kindByte < EntryKind.record.byte)

def statsOf (fs : List Frame) : ReplayStats := (fs.map Frame.kindByte).foldl countKind {}

theorem isClean_statsOf (fs : List Frame) : (statsOf fs).isClean = true := by
  have kept (kinds : List UInt8) (stats : ReplayStats) :
      (kinds.foldl countKind stats).isClean = stats.isClean := by
    induction kinds generalizing stats with
    | nil => rfl
    | cons kind kinds ih =>
      rw [List.foldl_cons, ih, countKind]
      split
      · rfl
      · unfold ReplayStats.countOther
        split <;> rfl
  exact kept _ {}

theorem replayEntry_other {σ : Type} {apply : Reader → σ → Verdict × σ} {f : Frame}
    (other : f.kindByte ≠ EntryKind.record.byte) (offset : Nat) (stats : ReplayStats) (s : σ) :
    replayEntry apply f.header offset f.payload stats s = (countKind stats f.kindByte, s) := by
  rw [countKind, if_neg other]
  rcases EntryKind.byte_cases f.kindByte with marker | record | unknown
  · rw [replayEntry_marker marker]
    exact congrArg (stats.countOther ·, s) (decide_eq_true marker).symm
  · exact absurd record other
  · rw [replayEntry_unknown unknown]
    exact congrArg (stats.countOther ·, s) (decide_eq_false (UInt8.lt_asymm unknown)).symm

end Frame

/-- The frame that a root has grown by can be told from its bytes. -/
theorem Root.eq_of_data_grow {root : Root} {f f' : Frame}
    (grown : (root.grow f').data = root.data ++ f.bytes) : f = f' := by
  have same : f.bytes ++ [] = f'.bytes ++ [] := by
    cases root with
    | journal j queue => simpa [Root.grow, Root.data, Journal.grow] using grown.symm
    | unbounded data => simpa [Root.grow, Root.data] using grown.symm
    | refusing => exact absurd (by simpa [Root.grow, Root.data] using grown) f.bytes_ne_nil
  exact (Frame.bytes_append_inj same).1

namespace Graph

section Modify
variable {g : Graph κ} {n m : NodeRef}

theorem modifyNode_of_node? {node : Node κ} (found : g.node? n = some node)
    (change : Node κ → Node κ) :
    g.modifyNode n change =
      { g with nodes := g.nodes.setIfInBounds n.index (some (change node)) } := by
  rw [modifyNode, found]

theorem modifyNode_of_none (missing : g.node? n = none) (change : Node κ → Node κ) :
    g.modifyNode n change = g := by
  rw [modifyNode, missing]

theorem modifyNode_twice (g : Graph κ) (n : NodeRef) (first second : Node κ → Node κ) :
    (g.modifyNode n first).modifyNode n second =
      g.modifyNode n fun node => second (first node) := by
  cases found : g.node? n with
  | none => rw [modifyNode_of_none found, modifyNode_of_none found, modifyNode_of_none found]
  | some node =>
    have now : (g.modifyNode n first).node? n = some (first node) := by
      rw [node?_modifyNode, if_pos rfl, found, Option.map_some]
    rw [modifyNode_of_node? now, modifyNode_of_node? found, modifyNode_of_node? found]
    simp only [Array.setIfInBounds_setIfInBounds]

/-- Changes of two nodes can be made in either order. -/
theorem modifyNode_comm (apart : n ≠ m) (first second : Node κ → Node κ) :
    (g.modifyNode n first).modifyNode m second = (g.modifyNode m second).modifyNode n first := by
  have there : (g.modifyNode n first).node? m = g.node? m := by
    rw [node?_modifyNode, if_neg (Ne.symm apart)]
  have here : (g.modifyNode m second).node? n = g.node? n := by
    rw [node?_modifyNode, if_neg apart]
  cases found : g.node? n with
  | none =>
    rw [found] at here
    rw [modifyNode_of_none found, modifyNode_of_none here]
  | some node =>
    cases found' : g.node? m with
    | none =>
      rw [found'] at there
      rw [modifyNode_of_none there, modifyNode_of_none found']
    | some node' =>
      rw [found] at here
      rw [found'] at there
      have places : n.index ≠ m.index := fun e => apart (by cases n; cases m; exact congrArg _ e)
      rw [modifyNode_of_node? there, modifyNode_of_node? here, modifyNode_of_node? found,
        modifyNode_of_node? found']
      simp only [Array.setIfInBounds_comm _ _ places]

end Modify

/-- The graph in which a leaf has been told a value. -/
def tell (h : Graph κ) (w : Word κ) : Graph κ :=
  h.modifyNode w.leaf fun node => { node with content := node.content.tell w.kind w.value }

def tellAll (ws : List (Word κ)) (h : Graph κ) : Graph κ := ws.foldl tell h

section Telling
variable {h : Graph κ} {w w' : Word κ} {ws vs : List (Word κ)} {m : NodeRef}

theorem content?_tell_self {content : Content κ} (found : h.content? w.leaf = some content) :
    (h.tell w).content? w.leaf = some (content.tell w.kind w.value) := by
  obtain ⟨node, there, rfl⟩ := Option.map_eq_some_iff.mp found
  rw [content?, tell, node?_modifyNode, if_pos rfl, there]
  rfl

theorem node?_tell_other (apart : w.leaf ≠ m) : (h.tell w).node? m = h.node? m := by
  rw [tell, node?_modifyNode, if_neg (Ne.symm apart)]

@[simp] theorem stores_tell (h : Graph κ) (w : Word κ) : (h.tell w).stores = h.stores := by
  unfold tell modifyNode
  split <;> rfl

theorem tellAll_cons (w : Word κ) (ws : List (Word κ)) (h : Graph κ) :
    tellAll (w :: ws) h = tellAll ws (h.tell w) := rfl

theorem tellAll_append (ws vs : List (Word κ)) (h : Graph κ) :
    tellAll (ws ++ vs) h = tellAll vs (tellAll ws h) := List.foldl_append

theorem stores_tellAll (ws : List (Word κ)) (h : Graph κ) : (tellAll ws h).stores = h.stores := by
  induction ws generalizing h with
  | nil => rfl
  | cons w ws ih => rw [tellAll_cons, ih, stores_tell]

theorem tell_tell (same : w'.leaf = w.leaf) : (h.tell w).tell w' = h.tell w' := by
  rw [tell, tell, same, modifyNode_twice, tell, same]
  simp only [Content.tell_tell]

theorem tell_comm (apart : w.leaf ≠ w'.leaf) : (h.tell w).tell w' = (h.tell w').tell w :=
  modifyNode_comm apart _ _

/-- A leaf of which no word is said stays as it is. -/
theorem node?_tellAll_other (silent : ∀ w ∈ ws, w.leaf ≠ m) :
    (tellAll ws h).node? m = h.node? m := by
  induction ws generalizing h with
  | nil => rfl
  | cons w ws ih =>
    obtain ⟨here, later⟩ := List.forall_mem_cons.mp silent
    exact (ih later).trans (node?_tell_other here)

theorem held?_tellAll_other (silent : ∀ w ∈ ws, w.leaf ≠ m) :
    (tellAll ws h).held? m = h.held? m := by
  refine held?_of_eq ?_ (stores_tellAll ws h)
  rw [content?, content?, node?_tellAll_other silent]

/-- A word counts for nothing if one about the same leaf is to come. -/
theorem tellAll_tell (later : ∃ u ∈ ws, u.leaf = w.leaf) :
    tellAll ws (h.tell w) = tellAll ws h := by
  induction ws generalizing h with
  | nil => simp at later
  | cons v ws ih =>
    rw [tellAll_cons, tellAll_cons]
    by_cases same : v.leaf = w.leaf
    · rw [tell_tell same]
    · obtain ⟨u, mem, leaf⟩ := later
      rcases List.mem_cons.mp mem with rfl | mem
      · exact absurd leaf same
      · rw [tell_comm (Ne.symm same), ih ⟨u, mem, leaf⟩]

theorem tellAll_absorbs (covered : ∀ v ∈ vs, ∃ u ∈ ws, u.leaf = v.leaf) :
    tellAll ws (tellAll vs h) = tellAll ws h := by
  induction vs generalizing h with
  | nil => rfl
  | cons v vs ih =>
    obtain ⟨here, later⟩ := List.forall_mem_cons.mp covered
    rw [tellAll_cons, ih later, tellAll_tell here]

/-- Saying the same words again changes nothing. -/
theorem tellAll_again (ws : List (Word κ)) (h : Graph κ) :
    tellAll ws (tellAll ws h) = tellAll ws h :=
  tellAll_absorbs fun v mem => ⟨v, mem, rfl⟩

theorem singles_of_kind {kind : κ} (single : Shape.singleKind? (h.shape? m) = some kind) :
    (∃ value, h.content? m = some (.value kind value)) ∨
      ∃ cell s, h.content? m = some (.persistent kind cell s) := by
  unfold shape? at single
  rcases content : h.content? m with _ | b | ⟨kind', value⟩ | ⟨kind', items⟩ | ⟨kind', cell, s⟩
  all_goals
    rw [content] at single
    cases single
  · exact .inl ⟨value, rfl⟩
  · exact .inr ⟨cell, s, rfl⟩

omit [Values κ] in
theorem isSingle_of_kind {shape : Option (Shape κ)} {kind : κ}
    (single : Shape.singleKind? shape = some kind) : Shape.IsSingle shape := by
  rcases shape with _ | b | kind' | kind' | ⟨kind', id, config, lock, s⟩
  all_goals cases single
  · exact .inl ⟨kind, rfl⟩
  · exact .inr ⟨kind, id, config, lock, s, rfl⟩

theorem held_of_kind {kind : κ} (single : Shape.singleKind? (h.shape? m) = some kind)
    {holding : Holding κ} (held : h.held? m = some holding) :
    ∃ value, holding = .single kind value := by
  rcases singles_of_kind single with ⟨value, content⟩ | ⟨cell, s, content⟩
  · rw [held?, content] at held
    cases held
    exact ⟨value, rfl⟩
  · rw [held?, content] at held
    simp only [Option.bind_some, holding?, Option.bind_eq_some_iff, Option.map_eq_some_iff] at held
    obtain ⟨store, -, value, -, rfl⟩ := held
    exact ⟨value, rfl⟩

theorem fits_congr {h' : Graph κ} (same : h'.skeleton = h.skeleton) (fits : w.Fits h) :
    w.Fits h' := by
  rw [Word.Fits, shape?_congr same]
  exact fits

theorem skeleton_tell (fits : w.Fits h) :
    (h.tell w).skeleton = h.skeleton := by
  funext n
  rw [skeleton, skeleton, tell, node?_modifyNode]
  split
  · rename_i here
    subst here
    rcases singles_of_kind fits with ⟨value, content⟩ | ⟨cell, s, content⟩
    all_goals
      obtain ⟨node, found, same⟩ := Option.map_eq_some_iff.mp content
      rw [found, Option.map_some, Option.map_some, Option.map_some]
      simp only [same]
      rfl
  · rfl

theorem ready_tell (ready : Ready h m) : Ready (h.tell w) m := by
  intro kind cell s content
  rw [stores_tell]
  by_cases same : w.leaf = m
  · subst same
    rcases before : h.content? w.leaf with _ | c
    · have gone : (h.tell w).node? w.leaf = none := by
        rw [tell, node?_modifyNode, if_pos rfl, Option.map_eq_none_iff.mp before, Option.map_none]
      rw [content?, gone] at content
      cases content
    · rw [content?_tell_self before] at content
      cases c <;> cases content
      obtain ⟨-, free, found⟩ := ready _ _ s before
      exact ⟨⟨w.value, rfl⟩, free, found⟩
  · rw [content?, node?_tell_other same] at content
    exact ready kind cell s content

/-- A leaf that has been told a value holds it. -/
theorem held?_tell_self (fits : w.Fits h) (ready : Ready h w.leaf) :
    (h.tell w).held? w.leaf = some (.single w.kind w.value) := by
  rcases singles_of_kind fits with ⟨value, content⟩ | ⟨cell, s, content⟩
  · rw [held?, content?_tell_self content]
    rfl
  · obtain ⟨-, -, store, found⟩ := ready _ cell s content
    rw [held?, content?_tell_self content]
    simp only [Content.tell, Option.bind_some, holding?, stores_tell, found]
    rfl

theorem skeleton_tellAll (fits : ∀ w ∈ ws, w.Fits h) : (tellAll ws h).skeleton = h.skeleton := by
  induction ws generalizing h with
  | nil => rfl
  | cons w ws ih =>
    obtain ⟨here, later⟩ := List.forall_mem_cons.mp fits
    have same := skeleton_tell here
    rw [tellAll_cons, ih fun u mem => fits_congr same (later u mem), same]

theorem ready_tellAll (ready : Ready h m) : Ready (tellAll ws h) m := by
  induction ws generalizing h with
  | nil => exact ready
  | cons w ws ih => exact ih (ready_tell ready)

/-- Of all the words about a leaf, it holds the last one. -/
theorem held?_tellAll_last (before : ∀ u ∈ vs, u.Fits h) (fits : w.Fits h)
    (ready : Ready h w.leaf) (silent : ∀ u ∈ ws, u.leaf ≠ w.leaf) :
    (tellAll (vs ++ w :: ws) h).held? w.leaf = some (.single w.kind w.value) := by
  rw [tellAll_append, tellAll_cons, held?_tellAll_other silent]
  exact held?_tell_self (fits_congr (skeleton_tellAll before) fits) (ready_tellAll ready)

end Telling

/-- Every leaf of a tree that holds a single value has one of its kind in the other tree, at the end
of the same path. -/
def SameLeaves (g : Graph κ) (top : NodeRef) (h : Graph κ) (top' : NodeRef) : Prop :=
  ∀ path n kind, Reaches g top path n → Shape.singleKind? (g.shape? n) = some kind →
    ∃ m, Reaches h top' path m ∧ Shape.singleKind? (h.shape? m) = some kind

/-- The frame was appended when a leaf was set or updated, in a tree with the same leaves. The word
says which leaf that is in the other tree, and what value the changed leaf held then. -/
inductive Written (h : Graph κ) (top' : NodeRef) (f : Frame) : Word κ → Prop
  | intro {g g' : Graph κ} {top n m : NodeRef} {r : RootRef} {root : Root} {path : List PathStep}
      {call : NodeCall κ} {outcome : RecordOutcome} {kind : κ} {value : Values.Carrier kind}
      (attached : Attached g top r) (leaves : SameLeaves g top h top')
      (live : g.root? r = some root) (reaches : Reaches g top path n)
      (single : Shape.singleKind? (g.shape? n) = some kind)
      (restores : (Values.codec kind).RestoresShort root.layout) (assigns : call.Assigns)
      (ran : call.run n g = .ok outcome g') (committed : outcome.isCommitted = true)
      (appended : g'.snapshot r = g.snapshot r ++ f.bytes)
      (holds : g'.held? n = some (.single kind value)) (counterpart : Reaches h top' path m) :
      Written h top' f ⟨m, kind, value⟩

/-- The frame is about this leaf. -/
def Addresses (h : Graph κ) (top : NodeRef) (f : Frame) (m : NodeRef) : Prop :=
  ∃ w : Word κ, Written h top f w ∧ w.leaf = m

/-- The frame is a record that consists of the path to a leaf and of a value for it. -/
structure Carries (h : Graph κ) (top : NodeRef) (f : Frame) (w : Word κ) : Prop where
  record : f.kindByte = EntryKind.record.byte
  fits : w.Fits h
  payload : ∃ path bytes, Reaches h top path w.leaf ∧
    f.payload = path.flatMap PathStep.bytes ++ Marker.value.byte :: bytes ∧
    (Values.codec w.kind).decodeAll bytes = .ok w.value

section Carrying
variable {h h' : Graph κ} {top : NodeRef} {f : Frame} {w w' : Word κ}

theorem Carries.congr (same : h'.skeleton = h.skeleton) (carries : Carries h top f w) :
    Carries h' top f w := by
  obtain ⟨path, bytes, reaches, payload, decoded⟩ := carries.payload
  exact ⟨carries.record, fits_congr same carries.fits, path, bytes, reaches_congr same reaches,
    payload, decoded⟩

theorem Carries.unique (carries : Carries h top f w) (other : Carries h top f w') : w = w' := by
  obtain ⟨leaf, kind, value⟩ := w
  obtain ⟨leaf', kind', value'⟩ := w'
  obtain ⟨path, bytes, reaches, payload, decoded⟩ := carries.payload
  obtain ⟨path', bytes', reaches', payload', decoded'⟩ := other.payload
  obtain ⟨rfl, rfl⟩ := Frame.path_of_payload payload payload'
  obtain rfl : leaf = leaf' := node_unique reaches reaches'
  obtain rfl : kind = kind' := Option.some.inj (carries.fits.symm.trans other.fits)
  obtain rfl : value = value' := Except.ok.inj (decoded.symm.trans decoded')
  rfl

theorem setContent_eq_tell {content : Content κ} (found : h.content? w.leaf = some content) :
    h.setContent w.leaf (content.tell w.kind w.value) = h.tell w := by
  obtain ⟨node, there, rfl⟩ := Option.map_eq_some_iff.mp found
  rw [setContent, tell, modifyNode_of_node? there, modifyNode_of_node? there]

theorem putCell_same {n : NodeRef} {kind : κ} {s : StoreRef} {store : Store}
    (found : h.stores[s.index]? = some store) (cell : Cell (Values.Carrier kind)) :
    h.putCell n kind s (cell, store) = h.setContent n (.persistent kind cell s) := by
  simp only [putCell, setIfInBounds_same found]

/-- A leaf is told what the record says, whatever it held. -/
theorem Carries.applies (receiving : Receiving h top) (ready : Ready h w.leaf)
    (carries : Carries h top f w) {r : Reader} (unread : r.unread = f.payload) :
    applyRecord top r h = (.applied, h.tell w) := by
  obtain ⟨path, bytes, reaches, payload, decoded⟩ := carries.payload
  obtain ⟨r', unread', run⟩ := applyRecord_of_reaches receiving reaches (Frame.short_of_payload payload)
    (unread.trans payload) (by simp [Marker.byte])
  rw [run]
  rcases singles_of_kind carries.fits with ⟨value, content⟩ | ⟨cell, s, content⟩
  · rw [applyRecord_value content unread' decoded, ← setContent_eq_tell content]
    rfl
  · obtain ⟨⟨value, state⟩, free, store, found⟩ := ready _ cell s content
    rw [applyRecord_resident content found state free unread' decoded, putCell_same found,
      ← setContent_eq_tell content]
    rfl

/-- A leaf that was set or updated holds the new value, and the record of it is the path to the leaf
and this value. -/
theorem record_of_assigns {g g' : Graph κ} {n : NodeRef} {r : RootRef} {root : Root}
    {path : List PathStep} {call : NodeCall κ} {outcome : RecordOutcome} {kind : κ}
    (attached : Attached g top r) (live : g.root? r = some root) (reaches : Reaches g top path n)
    (single : Shape.singleKind? (g.shape? n) = some kind) (assigns : call.Assigns)
    (ran : call.run n g = .ok outcome g') (committed : outcome.isCommitted = true) :
    ∃ (f : Frame) (next : Values.Carrier kind),
      ((Values.codec kind).encode root.layout next).fault? = none ∧
      f.kindByte = EntryKind.record.byte ∧
      f.payload = path.flatMap PathStep.bytes ++
        Marker.value.byte :: ((Values.codec kind).encode root.layout next).bytes ∧
      g'.root? r = some (root.grow f) ∧ g'.held? n = some (.single kind next) := by
  have own : call.IsOwn := by cases call <;> trivial
  have one := isSingle_of_kind single
  have fits : call.Fits (g.shape? n) := by
    cases call <;> first | exact one | cases assigns
  have changed := NodeCall.changed_of_isOwn own fits
  rw [ran] at changed
  cases changed with
  | done was revised now others skeleton stores recorded missed =>
    have recorded := recorded committed
    rw [NodeCall.recorder_of_isOwn own] at recorded
    obtain ⟨f, whole, record, payload, live'⟩ :=
      exists_record attached reaches (NodeCall.leaf_of_isOwn own fits) live recorded
    obtain ⟨old, rfl⟩ := held_of_kind single was
    obtain ⟨next, rfl⟩ := NodeCall.revise_single revised
    exact ⟨f, next, whole, record, payload, live', now⟩

/-- What setting or updating a leaf appends is a record for the leaf at the same place. -/
theorem Written.carries (written : Written h top f w) : Carries h top f w := by
  cases written with
  | intro attached leaves live reaches single restores assigns ran committed appended holds
      counterpart =>
    obtain ⟨m', counterpart', single'⟩ := leaves _ _ _ reaches single
    obtain rfl := node_unique counterpart' counterpart
    obtain ⟨f', next, whole, record, payload, live', now⟩ :=
      record_of_assigns attached live reaches single assigns ran committed
    rw [snapshot, snapshot, live, live'] at appended
    obtain rfl := Root.eq_of_data_grow appended
    rw [now] at holds
    cases holds
    have fits := f.fits
    rw [payload, List.length_append, List.length_cons] at fits
    have decoded := restores _ whole (by omega)
    exact ⟨record, single', _, _, counterpart, payload, decoded⟩

end Carrying

/-- Frames that carry these words, with other frames than records in between. -/
inductive Spells (h : Graph κ) (top : NodeRef) : List Frame → List (Word κ) → Prop
  | nil : Spells h top [] []
  | word {f : Frame} {w : Word κ} {fs : List Frame} {ws : List (Word κ)}
      (carries : Carries h top f w) (rest : Spells h top fs ws) : Spells h top (f :: fs) (w :: ws)
  | other {f : Frame} {fs : List Frame} {ws : List (Word κ)}
      (other : f.kindByte ≠ EntryKind.record.byte) (rest : Spells h top fs ws) :
      Spells h top (f :: fs) ws

section Spelling
variable {h h' : Graph κ} {top : NodeRef} {f : Frame} {fs gs : List Frame} {w : Word κ}
  {ws vs : List (Word κ)}

theorem Spells.congr (same : h'.skeleton = h.skeleton) (spells : Spells h top fs ws) :
    Spells h' top fs ws := by
  induction spells with
  | nil => exact .nil
  | word carries _ ih => exact .word (carries.congr same) ih
  | other other _ ih => exact .other other ih

theorem Spells.append (front : Spells h top fs ws) (back : Spells h top gs vs) :
    Spells h top (fs ++ gs) (ws ++ vs) := by
  induction front with
  | nil => exact back
  | word carries _ ih => exact .word carries ih
  | other other _ ih => exact .other other ih

theorem spells_others (others : ∀ f ∈ fs, f.kindByte ≠ EntryKind.record.byte) :
    Spells h top fs [] := by
  induction fs with
  | nil => exact .nil
  | cons f fs ih =>
    obtain ⟨here, later⟩ := List.forall_mem_cons.mp others
    exact .other here (ih later)

theorem Spells.fits (spells : Spells h top fs ws) : ∀ w ∈ ws, w.Fits h := by
  induction spells with
  | nil => exact nofun
  | word carries _ ih => exact List.forall_mem_cons.mpr ⟨carries.fits, ih⟩
  | other _ _ ih => exact ih

/-- Records that were all written by leaves spell words about the leaves that they address. -/
theorem exists_spelled
    (written : ∀ f ∈ fs, f.kindByte = EntryKind.record.byte → ∃ w, Written h top f w) :
    ∃ ws, Spells h top fs ws ∧ ∀ w ∈ ws, ∃ f ∈ fs, Addresses h top f w.leaf := by
  induction fs with
  | nil => exact ⟨[], .nil, nofun⟩
  | cons f fs ih =>
    obtain ⟨here, later⟩ := List.forall_mem_cons.mp written
    obtain ⟨ws, spells, among⟩ := ih later
    have among : ∀ w ∈ ws, ∃ f' ∈ f :: fs, Addresses h top f' w.leaf := by
      intro w mem
      obtain ⟨f', mem', addresses⟩ := among w mem
      exact ⟨f', List.mem_cons_of_mem f mem', addresses⟩
    by_cases record : f.kindByte = EntryKind.record.byte
    · obtain ⟨w, said⟩ := here record
      refine ⟨w :: ws, .word said.carries spells, List.forall_mem_cons.mpr ⟨?_, among⟩⟩
      exact ⟨f, List.mem_cons_self, w, said, rfl⟩
    · exact ⟨ws, .other record spells, among⟩

/-- A tree all of whose leaves can be told a value, and that records can be handed to. -/
structure Listening (h : Graph κ) (top : NodeRef) : Prop where
  receiving : Receiving h top
  ready : ∀ path m, Reaches h top path m → Ready h m

theorem Listening.tellAll (listening : Listening h top)
    (fits : ∀ w ∈ ws, w.Fits h) : Listening (tellAll ws h) top := by
  have same := skeleton_tellAll fits
  refine ⟨receiving_congr same listening.receiving, ?_⟩
  intro path m reaches
  exact ready_tellAll (listening.ready path m (reaches_congr same.symm reaches))

theorem replayFrames_spelled (listening : Listening h top) (spells : Spells h top fs ws)
    (offset : Nat) (stats : ReplayStats) :
    Frame.replayFrames (applyRecord top) offset fs (stats, h) =
      ((fs.map Frame.kindByte).foldl Frame.countKind stats, tellAll ws h) := by
  -- Each record leaves a tree of the same shape, so that the frames behind it carry the same words.
  induction fs generalizing h ws offset stats with
  | nil =>
    cases spells
    rfl
  | cons f fs ih =>
    rw [Frame.replayFrames, List.map_cons, List.foldl_cons]
    cases spells with
    | @word _ w _ ws carries rest =>
      obtain ⟨path, -, reaches, -⟩ := carries.payload
      have alone : ∀ u ∈ [w], u.Fits h := by simpa using carries.fits
      have later := ih (listening.tellAll alone) (rest.congr (skeleton_tellAll alone))
        (offset + f.size) (stats.countRecord .applied)
      rw [Frame.replayEntry_record carries.record,
        carries.applies listening.receiving (listening.ready path _ reaches) rfl, Frame.countKind,
        if_pos carries.record]
      exact later
    | other other rest => rw [Frame.replayEntry_other other, ih listening rest]

/-- A replay tells the leaves the words that are spelled, in their order, and does nothing else. -/
theorem replay_spelled (listening : Listening h top) (spells : Spells h top fs ws) :
    h.replay top (Frame.join fs) = (Frame.statsOf fs, tellAll ws h) := by
  rw [replay, Frame.replayWith_join]
  exact replayFrames_spelled listening spells 0 {}

end Spelling

/-- What a replay makes of frames whose records come from leaves that were set or updated: the last
record about a leaf counts, and no other leaf is touched. -/
structure LastWrite (h : Graph κ) (top : NodeRef) (fs : List Frame) : Prop where
  clean : (h.replay top (Frame.join fs)).1.isClean = true
  /-- No record is about two leaves, and none says two values. -/
  unique : ∀ f ∈ fs, ∀ w w', Written h top f w → Written h top f w' → w = w'
  last : ∀ before f after w, fs = before ++ f :: after → Written h top f w →
    (∀ f' ∈ after, ¬ Addresses h top f' w.leaf) →
    (h.replay top (Frame.join fs)).2.held? w.leaf = some (.single w.kind w.value)
  others : ∀ m, (∀ f ∈ fs, ¬ Addresses h top f m) →
    (h.replay top (Frame.join fs)).2.node? m = h.node? m ∧
      (h.replay top (Frame.join fs)).2.held? m = h.held? m
  again : (h.replay top (Frame.join fs)).2.replay top (Frame.join fs) =
    h.replay top (Frame.join fs)
  /-- Between the two records there may be other entries than records. -/
  swap : ∀ before f between f' after w w', fs = before ++ f :: (between ++ f' :: after) →
    (∀ e ∈ between, e.kindByte ≠ EntryKind.record.byte) →
    Written h top f w → Written h top f' w' → w.leaf ≠ w'.leaf →
    h.replay top (Frame.join (before ++ f' :: (between ++ f :: after))) =
      h.replay top (Frame.join fs)

/-- Every journal whose records were all written by setting or updating leaves, and every tree of
their shape whose leaves can be told a value, whatever they hold before. -/
theorem last_write_counts {h : Graph κ} {top : NodeRef} {fs : List Frame}
    (listening : Listening h top)
    (written : ∀ f ∈ fs, f.kindByte = EntryKind.record.byte → ∃ w, Written h top f w) :
    LastWrite h top fs := by
  obtain ⟨ws, spells, among⟩ := exists_spelled written
  have replayed := replay_spelled listening spells
  constructor
  · rw [replayed]
    exact Frame.isClean_statsOf fs
  · intro f _ w w' said said'
    exact said.carries.unique said'.carries
  · rintro before f after w rfl said silent
    -- The words in front and behind are chosen by themselves, so that the one in between is `w`.
    obtain ⟨vs, front, -⟩ := exists_spelled fun f mem => written f (List.mem_append_left _ mem)
    obtain ⟨us, back, among⟩ := exists_spelled fun f' mem =>
      written f' (List.mem_append_right _ (List.mem_cons_of_mem f mem))
    obtain ⟨path, -, reaches, -⟩ := said.carries.payload
    rw [replay_spelled listening (front.append (.word said.carries back))]
    apply held?_tellAll_last front.fits said.carries.fits (listening.ready path _ reaches)
    intro u mem same
    obtain ⟨f', mem', addresses⟩ := among u mem
    exact silent f' mem' (same ▸ addresses)
  · intro m silent
    have silent : ∀ w ∈ ws, w.leaf ≠ m := by
      rintro w mem rfl
      obtain ⟨f, mem', addresses⟩ := among w mem
      exact silent f mem' addresses
    rw [replayed]
    exact ⟨node?_tellAll_other silent, held?_tellAll_other silent⟩
  · rw [replayed, replay_spelled (listening.tellAll spells.fits)
      (spells.congr (skeleton_tellAll spells.fits)), tellAll_again]
  · rintro before f between f' after w w' rfl others said said' apart
    obtain ⟨vs, front, -⟩ := exists_spelled fun f mem => written f (List.mem_append_left _ mem)
    obtain ⟨us, back, -⟩ := exists_spelled fun e mem =>
      written e (List.mem_append_right _ (List.mem_cons_of_mem f
        (List.mem_append_right _ (List.mem_cons_of_mem f' mem))))
    have between : Spells h top between [] := spells_others others
    have first := front.append (.word said.carries (between.append (.word said'.carries back)))
    have second := front.append (.word said'.carries (between.append (.word said.carries back)))
    have kinds : f.kindByte = f'.kindByte := said.carries.record.trans said'.carries.record.symm
    rw [replay_spelled listening first, replay_spelled listening second]
    simp only [Frame.statsOf, List.map_append, List.map_cons, kinds, tellAll_append, tellAll_cons,
      List.nil_append, tell_comm apart]

theorem sameLeaves_refl (g : Graph κ) (top : NodeRef) : SameLeaves g top g top :=
  fun _ n _ reaches single => ⟨n, reaches, single⟩

theorem plot_listening : Listening plot ⟨0⟩ := by
  refine ⟨plot_paired.receiving, ?_⟩
  intro path m reaches kind cell s content
  rcases plot_node reaches with rfl | rfl | rfl | rfl | rfl <;> cases content
  exact ⟨⟨_, rfl⟩, rfl, _, rfl⟩

/-- A recorded change of a byte of the plot, by what is in its journal then. -/
theorem plot_written {n : NodeRef} {path : List PathStep} {call : NodeCall ValueType} {f : Frame}
    {old value : UInt8} (reaches : Reaches plot ⟨0⟩ path n)
    (single : Shape.singleKind? (plot.shape? n) = some .u8) (assigns : call.Assigns)
    (fits : call.Fits (plot.shape? n)) (was : plot.held? n = some (.single .u8 old))
    (revised : (call.revise? (.single .u8 old)).map Revision.next = some (.single .u8 value))
    (committed : (Run.answered (call.run n plot)).1.toOption.any RecordOutcome.isCommitted = true)
    (appended : (Run.answered (call.run n plot)).2.snapshot ⟨0⟩ = f.bytes) :
    Written plot ⟨0⟩ f ⟨n, .u8, value⟩ := by
  have own : call.IsOwn := by cases call <;> trivial
  have changed := NodeCall.changed_of_isOwn own fits
  cases ran : call.run n plot with
  | error e g' =>
    rw [ran] at committed
    cases committed
  | ok outcome g' =>
    rw [ran] at changed committed appended
    cases changed with
    | @done outcome g' holding rev was' revised' now others skeleton stores recorded missed =>
      rw [was] at was'
      cases was'
      rw [revised'] at revised
      rw [Option.some.inj revised] at now
      exact .intro plot_attached (sameLeaves_refl plot ⟨0⟩) rfl reaches single
        (restorable_u8 .compact).1 assigns ran committed appended now reaches

def unchanged : Change ValueType := fun _ value => value

def zeroAtOne : Frame := ⟨EntryKind.record.byte, [1, 0, 2, 0], by decide⟩

def oneAtOne : Frame := ⟨EntryKind.record.byte, [1, 0, 2, 1], by decide⟩

def zeroAtFour : Frame := ⟨EntryKind.record.byte, [0, 1, 7, 1, 2, 2, 0], by decide⟩

def waypoint : Frame := ⟨EntryKind.waypoint.byte, [], by decide⟩

/-- Both bytes are told a value, one of them twice. -/
theorem plot_last_write :
    Listening plot ⟨0⟩ ∧
      (∀ f ∈ [zeroAtOne, zeroAtFour, waypoint, oneAtOne], f.kindByte = EntryKind.record.byte →
        ∃ w, Written plot ⟨0⟩ f w) ∧
      LastWrite plot ⟨0⟩ [zeroAtOne, zeroAtFour, waypoint, oneAtOne] := by
  have written : ∀ f ∈ [zeroAtOne, zeroAtFour, waypoint, oneAtOne],
      f.kindByte = EntryKind.record.byte → ∃ w, Written plot ⟨0⟩ f w := by
    intro f mem record
    simp only [List.mem_cons, List.not_mem_nil, or_false] at mem
    have one : Reaches plot ⟨0⟩ [.key 0] ⟨1⟩ := Reaches.top.child rfl
    have four : Reaches plot ⟨0⟩ [.locator [7], .key 2] ⟨4⟩ := (Reaches.top.child rfl).child rfl
    have sets : (NodeCall.set nothing).Assigns := trivial
    have updates : (NodeCall.update unchanged).Assigns := trivial
    rcases mem with rfl | rfl | rfl | rfl
    · exact ⟨_, plot_written one rfl sets (Or.inl ⟨_, rfl⟩) rfl rfl (by decide +kernel)
        (by decide +kernel)⟩
    · exact ⟨_, plot_written four rfl sets (Or.inr ⟨_, _, _, _, _, rfl⟩) rfl rfl
        (by decide +kernel) (by decide +kernel)⟩
    · cases record
    · exact ⟨_, plot_written one rfl updates (Or.inl ⟨_, rfl⟩) rfl rfl (by decide +kernel)
        (by decide +kernel)⟩
  exact ⟨plot_listening, written, last_write_counts plot_listening written⟩

end Graph

end GraphJournal
