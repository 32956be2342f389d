import GraphJournal.Proofs.Replica
import GraphJournal.Proofs.ValueRecords

/-!
# A value on its own

A persistent value at the top of its graph is changed, read and saved, while its journal is drained
now and then. Each call keeps what is known of the records and of the copy in the store: the records
lead to the value, and the copy is the value unless a record came after it. Changes that are NOT
recorded are excluded.
-/
namespace GraphJournal

set_option autoImplicit false

open MessagePack

variable {κ : Type} [Values κ]

/-- A persistent node, the root that it is told, and the store that it is kept in. -/
structure Vault (κ : Type) where
  node : NodeRef
  root : RootRef
  kind : κ
  id : NodeId
  config : LifecycleConfig
  lock : LockState
  store : StoreRef

inductive VaultCall (κ : Type) [Values κ]
  | set (item : Item κ)
  | update (change : Change κ)
  | get
  | save (mode : SaveMode)
  | drain

/-- What has come out of a run so far. -/
structure Session (κ : Type) [Values κ] where
  graph : Graph κ
  /-- What became of the records of the changes that did not fail. -/
  outcomes : List RecordOutcome := []
  drained : Bytes := []

namespace Session

def recorded (s : Session κ) : EStateM.Result Error (Graph κ) RecordOutcome → Session κ
  | .ok outcome g => { s with graph := g, outcomes := s.outcomes ++ [outcome] }
  | .error _ g => { s with graph := g }

def emptied (s : Session κ) : EStateM.Result Error (Graph κ) Bytes → Session κ
  | .ok bytes g => { s with graph := g, drained := s.drained ++ bytes }
  | .error _ g => { s with graph := g }

end Session

/-- Reading a value may bring it back, and changes nothing that can be said of the graph. -/
theorem Graph.readValue_alike (n : NodeRef) (g : Graph κ) :
    Alike g (Run.answered (readValue n g)).2 ∧
      (Run.answered (readValue n g)).2.roots = g.roots := by
  unfold readValue
  simp only [Run.bind_apply, Run.get_apply]
  rcases there : g.content? n with _ | b | ⟨kind, value⟩ | ⟨kind, items⟩ | ⟨kind, cell, s⟩
  · exact ⟨Alike.refl g, rfl⟩
  · exact ⟨Alike.refl g, rfl⟩
  · exact ⟨Alike.refl g, rfl⟩
  · exact ⟨Alike.refl g, rfl⟩
  · dsimp only
    cases found : g.stores[s.index]? with
    | none =>
      simp only [Run.bind_apply, withCell, found]
      exact ⟨Alike.refl g, rfl⟩
    | some store =>
      have answer := Cell.read_result (Values.codec kind) cell store
      rw [Run.bind_apply, withCell_eq g found]
      generalize Cell.read (Values.codec kind) (cell, store) = result at answer
      cases answer with
      | @here value store' was same =>
        refine ⟨alike_putCell there found same (Cell.Framed.of_unchanged same _) ?_,
          roots_putCell g _⟩
        rw [was]
        rfl
      | failed why same =>
        refine ⟨alike_putCell there found same (Cell.Framed.of_unchanged same cell.state) ?_,
          roots_putCell g _⟩
        exact Cell.logical?_of_unchanged same

namespace Vault

open GraphJournal.Graph

/-- It is at the top of the graph, without a key. -/
structure On (vault : Vault κ) (g : Graph κ) : Prop where
  shape : g.shape? vault.node =
    some (.persistent vault.kind vault.id vault.config vault.lock vault.store)
  parent : (g.links vault.node).parent = none
  root : (g.links vault.node).root = some vault.root
  key : (g.links vault.node).key < 0

def step (vault : Vault κ) (s : Session κ) : VaultCall κ → Session κ
  | .set item => s.recorded (setValue vault.node item s.graph)
  | .update change => s.recorded (update vault.node change s.graph)
  | .get => { s with graph := (Run.answered (readValue vault.node s.graph)).2 }
  | .save mode => { s with graph := (Run.answered (save vault.node mode s.graph)).2 }
  | .drain => s.emptied (drain vault.root s.graph)

def run (vault : Vault κ) (calls : List (VaultCall κ)) (g : Graph κ) : Session κ :=
  calls.foldl vault.step { graph := g }

/-- All bytes that have been in the journal, whether they are still there or not. -/
def stream (vault : Vault κ) (s : Session κ) : Bytes := s.drained ++ s.graph.snapshot vault.root

/-- The copy in the store stands for this value. -/
def HasCopy (vault : Vault κ) (g : Graph κ) (w : Values.Carrier vault.kind) : Prop :=
  ∃ store, g.stores[vault.store.index]? = some store ∧
    Cell.copy? (Values.codec vault.kind) store vault.id = some w

/-- What has been recorded between two moments. -/
def tail (vault : Vault κ) (earlier later : Session κ) : Bytes :=
  (vault.stream later).drop (vault.stream earlier).length

/-- All that a save hands to the store, if anything, is this value; no other call changes what the
store keeps. -/
def HandsOver (vault : Vault κ) (s : Session κ) (v : Values.Carrier vault.kind)
    (call : VaultCall κ) : Prop :=
  ∃ store store', s.graph.stores[vault.store.index]? = some store ∧
    (vault.step s call).graph.stores[vault.store.index]? = some store' ∧
    match call with
    | .save _ => store' = store ∨ store' = (Run.answered (ByteStore.persist vault.id
        ((Values.codec vault.kind).encode vault.config.layout v).bytes store)).2
    | _ => LawfulStore.kept store' = LawfulStore.kept store

section Shapes
variable {vault : Vault κ} {g g' : Graph κ}

theorem On.congr (on : vault.On g) (same : g'.skeleton = g.skeleton) : vault.On g' := by
  constructor
  · rw [shape?_congr same, on.shape]
  · rw [links_congr same, on.parent]
  · rw [links_congr same, on.root]
  · rw [links_congr same]
    exact on.key

theorem On.reaches (on : vault.On g) {path : List PathStep} {m : NodeRef}
    (reaches : Reaches g vault.node path m) : path = [] ∧ m = vault.node := by
  induction reaches with
  | top => exact ⟨rfl, rfl⟩
  | @child path p m step above found ih =>
    obtain ⟨-, rfl⟩ := ih
    rw [child?, on.shape] at found
    cases step <;> cases found

theorem On.attached (on : vault.On g) : Attached g vault.node vault.root := by
  refine ⟨on.parent, on.root, on.key, ?_, ?_⟩
  · rw [ownAddress_eq, on.shape]
    rfl
  · intro path p step m above found
    obtain ⟨-, rfl⟩ := on.reaches above
    rw [child?, on.shape] at found
    cases step <;> cases found

theorem On.content (on : vault.On g) : ∃ cell : Cell (Values.Carrier vault.kind),
    g.content? vault.node = some (.persistent vault.kind cell vault.store) ∧
      cell.id = vault.id ∧ cell.config = vault.config ∧ cell.lock = vault.lock := by
  obtain ⟨content, there, shape⟩ := Option.map_eq_some_iff.mp on.shape
  cases content with
  | persistent kind cell s =>
    simp only [Content.shape, Shape.persistent.injEq] at shape
    obtain ⟨rfl, id, config, lock, rfl⟩ := shape
    exact ⟨cell, there, id, config, lock⟩
  | _ => cases shape

/-- What the node holds is the logical value of its cell. -/
theorem On.cell (on : vault.On g) {v : Values.Carrier vault.kind}
    (held : g.held? vault.node = some (.single vault.kind v)) :
    ∃ (cell : Cell (Values.Carrier vault.kind)) (store : Store),
      g.content? vault.node = some (.persistent vault.kind cell vault.store) ∧
      cell.id = vault.id ∧ cell.config = vault.config ∧
      g.stores[vault.store.index]? = some store ∧
      Cell.logical? (Values.codec vault.kind) (cell, store) = some v := by
  obtain ⟨cell, there, id, config, -⟩ := on.content
  rw [held?, there, Option.bind_some, holding?] at held
  obtain ⟨store, found, value⟩ := Option.bind_eq_some_iff.mp held
  obtain ⟨value, was, same⟩ := Option.map_eq_some_iff.mp value
  cases same
  exact ⟨cell, store, there, id, config, found, was⟩

theorem HasCopy.congr {w : Values.Carrier vault.kind} (copy : vault.HasCopy g w)
    (same : g'.stores[vault.store.index]?.map LawfulStore.kept =
      g.stores[vault.store.index]?.map LawfulStore.kept) : vault.HasCopy g' w := by
  obtain ⟨store, found, copied⟩ := copy
  rw [found, Option.map_some] at same
  obtain ⟨store', found', kept⟩ := Option.map_eq_some_iff.mp same
  exact ⟨store', found', by rw [Cell.copy?_of_kept kept, copied]⟩

end Shapes

/-- What each call preserves. Since the run has begun these frames have been recorded, and they lead
from what the node held then to what it holds now. -/
structure Kept (vault : Vault κ) (g₀ : Graph κ) (layout : Layout) (base : Bytes)
    (v₀ : Values.Carrier vault.kind) (s : Session κ) (fs : List Frame)
    (v : Values.Carrier vault.kind) : Prop where
  skeleton : s.graph.skeleton = g₀.skeleton
  journal : ∃ now, Journaled s.graph vault.root layout now ∧
    s.drained ++ Frame.join now = base ++ Frame.join fs
  held : s.graph.held? vault.node = some (.single vault.kind v)
  leads : Leads vault.kind v₀ fs v

/-- The store has a copy, and it is the value unless something was recorded after the first `p`
frames. -/
def Safe (vault : Vault κ) (p : Nat) (g : Graph κ) (fs : List Frame)
    (v : Values.Carrier vault.kind) : Prop :=
  p ≤ fs.length ∧ ∃ w, vault.HasCopy g w ∧ (fs.length = p → w = v)

section Steps
variable {vault : Vault κ} {g₀ : Graph κ} {layout : Layout} {base : Bytes}
  {v₀ : Values.Carrier vault.kind} {s : Session κ} {fs : List Frame} {v : Values.Carrier vault.kind}
  (on : vault.On g₀) (kept : vault.Kept g₀ layout base v₀ s fs v)

theorem Kept.stream (kept : vault.Kept g₀ layout base v₀ s fs v) :
    vault.stream s = base ++ Frame.join fs := by
  obtain ⟨now, journaled, whole⟩ := kept.journal
  rw [Vault.stream, journaled.snapshot, whole]

theorem Kept.tail {s' : Session κ} {gs : List Frame} {v' : Values.Carrier vault.kind}
    (kept : vault.Kept g₀ layout base v₀ s fs v)
    (kept' : vault.Kept g₀ layout base v₀ s' (fs ++ gs) v') : vault.tail s s' = Frame.join gs := by
  rw [Vault.tail, kept.stream, kept'.stream, Frame.join_append, ← List.append_assoc, List.drop_left]

/-- Nothing but what is in memory, and what stores will answer, has changed. -/
theorem Kept.of_alike (kept : vault.Kept g₀ layout base v₀ s fs v) {g : Graph κ}
    {outcomes : List RecordOutcome} (alike : Alike s.graph g)
    (ledger : (g.root? vault.root).map Root.ledger = (s.graph.root? vault.root).map Root.ledger) :
    vault.Kept g₀ layout base v₀ { s with graph := g, outcomes } fs v := by
  obtain ⟨now, journaled, whole⟩ := kept.journal
  refine ⟨alike.skeleton.trans kept.skeleton, ⟨now, journaled.of_ledger ledger, whole⟩, ?_,
    kept.leads⟩
  exact (alike.held _).trans kept.held

theorem Safe.of_stores {p : Nat} {g g' : Graph κ} (safe : vault.Safe p g fs v)
    (same : g'.stores[vault.store.index]?.map LawfulStore.kept =
      g.stores[vault.store.index]?.map LawfulStore.kept) : vault.Safe p g' fs v := by
  obtain ⟨early, w, copy, current⟩ := safe
  exact ⟨early, w, copy.congr same, current⟩

theorem Safe.snoc {p : Nat} {g g' : Graph κ} (safe : vault.Safe p g fs v)
    (same : g'.stores[vault.store.index]?.map LawfulStore.kept =
      g.stores[vault.store.index]?.map LawfulStore.kept) (f : Frame)
    (next : Values.Carrier vault.kind) : vault.Safe p g' (fs ++ [f]) next := by
  obtain ⟨early, w, copy, -⟩ := safe
  rw [Safe, List.length_append, List.length_singleton]
  refine ⟨by omega, w, copy.congr same, ?_⟩
  intro none
  omega

section Update
variable (restores : (Values.codec vault.kind).RestoresShort layout)
include on kept restores

/-- A change fails and leaves the value and the journal as they are, or the record of it leads to the
new value. -/
theorem kept_update (change : Change κ)
    (recorded : ∀ outcome, (Run.answered (update vault.node change s.graph)).1 = .ok outcome →
      outcome.isCommitted = true) :
    ∃ more v', vault.Kept g₀ layout base v₀ (s.recorded (update vault.node change s.graph))
        (fs ++ more) v' ∧
      ∀ p, vault.Safe p s.graph fs v →
        vault.Safe p (s.recorded (update vault.node change s.graph)).graph (fs ++ more) v' := by
  have here := on.congr kept.skeleton
  have fits : Shape.IsSingle (s.graph.shape? vault.node) :=
    Or.inr ⟨_, _, _, _, _, here.shape⟩
  have changed :
      Changed ownHooks s.graph vault.node (.update change) (update vault.node change s.graph) :=
    updateForBy_changed sound_ownHooks (fun _ _ => rfl) fits
  generalize update vault.node change s.graph = result at changed recorded
  cases changed with
  | failed alike ledgers =>
    refine ⟨[], v, ?_, ?_⟩
    · rw [List.append_nil]
      exact kept.of_alike alike (ledgers vault.root)
    · intro p safe
      rw [List.append_nil]
      exact safe.of_stores (alike.stores vault.store)
  | @done outcome g' holding rev was revised now others skeleton stores appended missed =>
    have single := was
    rw [kept.held] at single
    cases single
    cases revised
    have leaf : Shape.IsLeaf (s.graph.shape? vault.node) := by
      rw [here.shape]
      trivial
    obtain ⟨frames, journaled, whole⟩ := kept.journal
    obtain ⟨j, queue, live, written, there⟩ := journaled
    obtain ⟨f, unbroken, kind, payload, live'⟩ := exists_record here.attached Reaches.top leaf live
      (appended (recorded outcome rfl))
    -- The record is in the journal, so its value is no longer than the payload of an entry.
    have short : ((Values.codec vault.kind).encode layout (change vault.kind v)).bytes.length <
        maxLengthField := by
      have fits := f.fits
      rw [payload] at fits
      simp only [List.flatMap_nil, List.nil_append, List.length_cons] at fits
      rw [← written]
      exact Nat.lt_of_succ_lt fits
    have told : Tells vault.kind f (change vault.kind v) := by
      refine ⟨kind, _, payload, ?_⟩
      have layout_eq : (Root.journal j queue).layout = layout := written
      rw [layout_eq] at unbroken ⊢
      exact restores _ unbroken short
    refine ⟨[f], change vault.kind v, ?_, ?_⟩
    · refine ⟨skeleton.trans kept.skeleton, ⟨frames ++ [f], ?_, ?_⟩, now, kept.leads.snoc told⟩
      · exact Journaled.grow ⟨j, queue, live, written, there⟩ live live'
      · rw [Frame.join_append, Frame.join_append, ← List.append_assoc, ← List.append_assoc, ← whole]
        rfl
    · intro p safe
      exact safe.snoc (stores vault.store) f _

end Update

theorem kept_get (kept : vault.Kept g₀ layout base v₀ s fs v) :
    vault.Kept g₀ layout base v₀ (vault.step s .get) fs v ∧
      ∀ p, vault.Safe p s.graph fs v → vault.Safe p (vault.step s .get).graph fs v := by
  obtain ⟨alike, roots⟩ := readValue_alike vault.node s.graph
  refine ⟨kept.of_alike alike (by rw [root?_of_roots roots]), ?_⟩
  intro p safe
  exact safe.of_stores (alike.stores vault.store)

theorem drain_eq {j : Journal} {queue : SaveQueue NodeRef}
    (live : s.graph.root? vault.root = some (.journal j queue)) :
    s.emptied (drain vault.root s.graph) =
      { s with
        graph := s.graph.setRoot vault.root (.journal j.drain.2 queue)
        drained := s.drained ++ j.data } := by
  simp only [drain, onRoot, live, Root.drain, Session.emptied]
  rfl

theorem kept_drain (kept : vault.Kept g₀ layout base v₀ s fs v) :
    vault.Kept g₀ layout base v₀ (vault.step s .drain) fs v ∧
      ∀ p, vault.Safe p s.graph fs v → vault.Safe p (vault.step s .drain).graph fs v := by
  obtain ⟨now, ⟨j, queue, live, written, there⟩, whole⟩ := kept.journal
  have ended : vault.step s .drain =
      { s with
        graph := s.graph.setRoot vault.root (.journal j.drain.2 queue)
        drained := s.drained ++ Frame.join now } := by
    rw [step, drain_eq live, there]
  rw [ended]
  have nodes := nodes_setRoot s.graph vault.root (.journal j.drain.2 queue)
  have stores := stores_setRoot s.graph vault.root (.journal j.drain.2 queue)
  refine ⟨⟨(skeleton_of_nodes nodes).trans kept.skeleton, ⟨[], ⟨j.drain.2, queue, ?_, written, rfl⟩, ?_⟩,
    ?_, kept.leads⟩, ?_⟩
  · rw [root?_setRoot, if_pos rfl, live]
    rfl
  · rw [Frame.join_nil, List.append_nil, whole]
  · rw [held?_of_eq (content?_of_nodes nodes _) stores, kept.held]
  · intro p safe
    exact safe.of_stores (by rw [stores])

section Save
variable (restores : (Values.codec vault.kind).Restores vault.config.layout)
include on kept restores

/-- A save leaves the value and the journal as they are. The copy is as it was or the value itself,
and the value itself if the save has succeeded. -/
theorem kept_save (mode : SaveMode) :
    vault.Kept g₀ layout base v₀ (vault.step s (.save mode)) fs v ∧
      (∀ p, vault.Safe p s.graph fs v → vault.Safe p (vault.step s (.save mode)).graph fs v) ∧
      ((Run.answered (save vault.node mode s.graph)).1 = .ok .stored ∨
          (Run.answered (save vault.node mode s.graph)).1 = .ok .released →
        vault.HasCopy (vault.step s (.save mode)).graph v) := by
  have here := on.congr kept.skeleton
  obtain ⟨cell, store, there, id, config, found, was⟩ := here.cell kept.held
  have answer := Cell.save_result (config ▸ restores) was mode
  obtain ⟨framed, logical⟩ := framed_of_saved was answer
  have saved := saved_putCell there found framed logical
  have run := answered_save there found mode
  have copy (now : Cell (Values.Carrier vault.kind) × Store) (w : Values.Carrier vault.kind)
      (copied : Cell.copy? (Values.codec vault.kind) now.2 vault.id = some w) :
      vault.HasCopy (s.graph.putCell vault.node vault.kind vault.store now) w :=
    ⟨now.2, store_putCell_self s.graph found now, copied⟩
  have kept' : vault.Kept g₀ layout base v₀ (vault.step s (.save mode)) fs v := by
    obtain ⟨now, journaled, whole⟩ := kept.journal
    rw [step, run]
    refine ⟨saved.skeleton.trans kept.skeleton, ⟨now, journaled.of_ledger ?_, whole⟩, ?_, kept.leads⟩
    · rw [root?_of_roots saved.roots]
    · exact saved.same.trans kept.held
  obtain ⟨either, current⟩ := copied_of_saved answer
  rw [id] at either current
  refine ⟨kept', ?_, ?_⟩
  · rintro p ⟨early, w, ⟨store', found', copied⟩, last⟩
    rw [found] at found'
    cases found'
    rw [step, run]
    rcases either with same | new
    · exact ⟨early, w, copy _ w (same.trans copied), last⟩
    · exact ⟨early, v, copy _ v new, fun _ => rfl⟩
  · intro done
    rw [step, run]
    rw [run] at done
    exact copy _ v (current done)

end Save

include on kept in
theorem kept_handsOver (call : VaultCall κ) : vault.HandsOver s v call := by
  have here := on.congr kept.skeleton
  obtain ⟨cell, store, there, id, config, found, was⟩ := here.cell kept.held
  -- Any other call leaves alone what all stores keep.
  have other {g : Graph κ} (same : g.stores[vault.store.index]?.map LawfulStore.kept =
        s.graph.stores[vault.store.index]?.map LawfulStore.kept) :
      ∃ store', g.stores[vault.store.index]? = some store' ∧
        LawfulStore.kept store' = LawfulStore.kept store := by
    rw [found] at same
    exact Option.map_eq_some_iff.mp same
  have fits : Shape.IsSingle (s.graph.shape? vault.node) :=
    Or.inr ⟨_, _, _, _, _, here.shape⟩
  have updated (change : Change κ) :
      ∃ store', (s.recorded (update vault.node change s.graph)).graph.stores[vault.store.index]? =
          some store' ∧ LawfulStore.kept store' = LawfulStore.kept store := by
    have changed :
        Changed ownHooks s.graph vault.node (.update change) (update vault.node change s.graph) :=
      updateForBy_changed sound_ownHooks (fun _ _ => rfl) fits
    generalize update vault.node change s.graph = result at changed
    cases changed with
    | failed alike ledgers => exact other (alike.stores vault.store)
    | done was revised now others skeleton stores appended missed => exact other (stores vault.store)
  cases call with
  | set item =>
    obtain ⟨store', found', same⟩ := updated fun kind _ => item kind
    exact ⟨store, store', found, found', same⟩
  | update change =>
    obtain ⟨store', found', same⟩ := updated change
    exact ⟨store, store', found, found', same⟩
  | get =>
    obtain ⟨store', found', same⟩ := other ((readValue_alike vault.node s.graph).1.stores vault.store)
    exact ⟨store, store', found, found', same⟩
  | drain =>
    obtain ⟨now, ⟨j, queue, live, written, -⟩, -⟩ := kept.journal
    refine ⟨store, store, found, ?_, rfl⟩
    rw [step, drain_eq live, ← found]
    exact congrArg (·[vault.store.index]?) (stores_setRoot s.graph _ _)
  | save mode =>
    refine ⟨store, (Run.answered (Cell.save (Values.codec vault.kind) mode (cell, store))).2.2,
      found, ?_, ?_⟩
    · rw [step, answered_save there found mode, store_putCell_self s.graph found]
    · have written := Cell.save_writesOnly was mode
      rwa [Cell.WritesOnly, id, config] at written

section Run
variable (short : (Values.codec vault.kind).RestoresShort layout)
  (restores : (Values.codec vault.kind).Restores vault.config.layout)
include on short restores

theorem kept_step (kept : vault.Kept g₀ layout base v₀ s fs v) (call : VaultCall κ)
    (recorded : ∀ outcome ∈ (vault.step s call).outcomes, outcome.isCommitted = true) :
    ∃ more v', vault.Kept g₀ layout base v₀ (vault.step s call) (fs ++ more) v' ∧
      ∀ p, vault.Safe p s.graph fs v → vault.Safe p (vault.step s call).graph (fs ++ more) v' := by
  have updated (change : Change κ)
      (recorded : ∀ outcome ∈ (s.recorded (update vault.node change s.graph)).outcomes,
        outcome.isCommitted = true) :=
    kept_update on kept short change (by
      intro outcome answer
      apply recorded
      cases result : update vault.node change s.graph with
      | error e g =>
        rw [result] at answer
        cases answer
      | ok a g =>
        rw [result] at answer
        cases answer
        exact List.mem_append_right _ (List.mem_singleton_self _))
  -- A call that records nothing.
  have quiet (now : vault.Kept g₀ layout base v₀ (vault.step s call) fs v ∧
        ∀ p, vault.Safe p s.graph fs v → vault.Safe p (vault.step s call).graph fs v) :
      ∃ more v', vault.Kept g₀ layout base v₀ (vault.step s call) (fs ++ more) v' ∧
        ∀ p, vault.Safe p s.graph fs v →
          vault.Safe p (vault.step s call).graph (fs ++ more) v' := by
    refine ⟨[], v, ?_⟩
    rwa [List.append_nil]
  cases call with
  | set item => exact updated _ recorded
  | update change => exact updated change recorded
  | get => exact quiet (kept_get kept)
  | drain => exact quiet (kept_drain kept)
  | save mode =>
    obtain ⟨now, safe, -⟩ := kept_save on kept restores mode
    exact quiet ⟨now, safe⟩

omit on short restores in
theorem outcomes_step (vault : Vault κ) (s : Session κ) (call : VaultCall κ) :
    ∃ more, (vault.step s call).outcomes = s.outcomes ++ more := by
  have none : ∃ more, s.outcomes = s.outcomes ++ more := ⟨[], (List.append_nil _).symm⟩
  have recorded (result : EStateM.Result Error (Graph κ) RecordOutcome) :
      ∃ more, (s.recorded result).outcomes = s.outcomes ++ more := by
    cases result with
    | ok outcome g => exact ⟨[outcome], rfl⟩
    | error e g => exact none
  cases call with
  | set item => exact recorded _
  | update change => exact recorded _
  | get => exact none
  | save mode => exact none
  | drain =>
    rw [step]
    cases drain vault.root s.graph <;> exact none

omit on short restores in
theorem outcomes_run (vault : Vault κ) (calls : List (VaultCall κ)) (s : Session κ) :
    ∃ more, (calls.foldl vault.step s).outcomes = s.outcomes ++ more := by
  induction calls generalizing s with
  | nil => exact ⟨[], (List.append_nil _).symm⟩
  | cons call calls ih =>
    obtain ⟨first, here⟩ := outcomes_step vault s call
    obtain ⟨rest, there⟩ := ih (vault.step s call)
    refine ⟨first ++ rest, ?_⟩
    rw [List.foldl_cons, there, here, List.append_assoc]

omit on short restores in
theorem run_append (first rest : List (VaultCall κ)) (g : Graph κ) :
    vault.run (first ++ rest) g = rest.foldl vault.step (vault.run first g) := by
  rw [run, run, List.foldl_append]

theorem kept_run (calls : List (VaultCall κ)) (kept : vault.Kept g₀ layout base v₀ s fs v)
    (recorded : ∀ outcome ∈ (calls.foldl vault.step s).outcomes, outcome.isCommitted = true) :
    ∃ more v', vault.Kept g₀ layout base v₀ (calls.foldl vault.step s) (fs ++ more) v' ∧
      ∀ p, vault.Safe p s.graph fs v →
        vault.Safe p (calls.foldl vault.step s).graph (fs ++ more) v' := by
  induction calls generalizing s fs v with
  | nil => exact ⟨[], v, by simpa using kept⟩
  | cons call calls ih =>
    -- Outcomes are never taken back, so that of the first call is among those of the whole run.
    obtain ⟨rest, grown⟩ := outcomes_run vault calls (vault.step s call)
    have first : ∀ outcome ∈ (vault.step s call).outcomes, outcome.isCommitted = true := by
      intro outcome mem
      apply recorded
      rw [List.foldl_cons, grown]
      exact List.mem_append_left _ mem
    obtain ⟨more, w, kept', safe⟩ := kept_step on short restores kept call first
    obtain ⟨more', w', kept'', safe'⟩ := ih kept' recorded
    rw [List.append_assoc] at kept'' safe'
    exact ⟨more ++ more', w', kept'', fun p now => safe' p (safe p now)⟩

/-- Once a save has succeeded, nothing that comes later takes the way back to the value away. -/
theorem safe_since_save {first : List (VaultCall κ)} {mode : SaveMode} {after : List (VaultCall κ)}
    (kept : vault.Kept g₀ layout base v₀ (vault.run first g₀) fs v)
    (done : (Run.answered (save vault.node mode (vault.run first g₀).graph)).1 = .ok .stored ∨
      (Run.answered (save vault.node mode (vault.run first g₀).graph)).1 = .ok .released)
    (recorded : ∀ outcome ∈ (vault.run (first ++ .save mode :: after) g₀).outcomes,
      outcome.isCommitted = true) :
    ∃ more v', vault.Kept g₀ layout base v₀ (vault.run (first ++ .save mode :: after) g₀)
        (fs ++ more) v' ∧
      vault.Safe fs.length (vault.run (first ++ .save mode :: after) g₀).graph (fs ++ more) v' := by
  obtain ⟨kept', -, copied⟩ := kept_save on kept restores mode
  have safe : vault.Safe fs.length (vault.step (vault.run first g₀) (.save mode)).graph fs v :=
    ⟨Nat.le_refl _, v, copied done, fun _ => rfl⟩
  have whole : vault.run (first ++ .save mode :: after) g₀ =
      after.foldl vault.step (vault.step (vault.run first g₀) (.save mode)) :=
    run_append first (.save mode :: after) g₀
  rw [whole] at recorded ⊢
  obtain ⟨more, v', kept'', safe'⟩ := kept_run on short restores after kept' recorded
  exact ⟨more, v', kept'', safe' _ safe⟩

end Run

end Steps

end Vault

end GraphJournal
