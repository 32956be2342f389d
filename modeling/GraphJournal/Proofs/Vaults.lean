import GraphJournal.Proofs.Lockstep
import GraphJournal.Proofs.VaultHistory

/-!
# Vaults side by side

Several persistent nodes that nobody holds, with values that are always written and read back, in
stores that accept every write. A save or a change of one of them is told from the cell and the store
that it has, and it leaves the others alone. Nodes of the same identity are NOT kept apart here.
-/
namespace GraphJournal

set_option autoImplicit false

open MessagePack

/-- Every value is written as a whole, and read back. -/
def MessagePack.Codec.Undoes {α : Type} (codec : Codec α) (layout : Layout) : Prop :=
  ∀ a, (codec.encode layout a).fault? = none ∧
    codec.decodeAll (codec.encode layout a).bytes = .ok a

namespace Store

/-- What a store can become by calls that keep something or look it up. -/
inductive Later (s : Store) : Store → Prop
  | here : Later s s
  | persist {s' : Store} (later : Later s s') (id : NodeId) (bytes : Bytes) :
      Later s (Run.answered (ByteStore.persist id bytes s')).2
  | load {s' : Store} (later : Later s s') (id : NodeId) :
      Later s (Run.answered (ByteStore.load id s')).2

/-- The store accepts whatever it is to keep, now and later. -/
def Accepts (s : Store) : Prop :=
  ∀ s', Later s s' → ∀ id bytes, ∃ s'', ByteStore.persist id bytes s' = .ok true s''

/-- The store finds whatever it keeps, now and later. -/
def Finds (s : Store) : Prop :=
  ∀ s', Later s s' → ∀ id, ∃ s'', ByteStore.load id s' = .ok (LawfulStore.kept s' id) s''

section Calls
variable {s s' s'' : Store}

theorem Later.trans (first : Later s s') (second : Later s' s'') : Later s s'' := by
  induction second with
  | here => exact first
  | persist _ id bytes ih => exact ih.persist id bytes
  | load _ id ih => exact ih.load id

theorem Accepts.later (accepts : Accepts s) (later : Later s s') : Accepts s' :=
  fun s'' next => accepts s'' (later.trans next)

theorem Finds.later (finds : Finds s) (later : Later s s') : Finds s' :=
  fun s'' next => finds s'' (later.trans next)

theorem Accepts.persist (accepts : Accepts s) (id : NodeId) (bytes : Bytes) :
    ∃ s', ByteStore.persist id bytes s = .ok true s' ∧ Later s s' ∧
      LawfulStore.kept s' = fun other =>
        if other = id then some bytes else LawfulStore.kept s other := by
  obtain ⟨s', run⟩ := accepts s .here id bytes
  have later := Later.here.persist id bytes (s := s)
  have answer := LawfulStore.persisted s id bytes
  rw [run] at later answer
  cases answer with
  | accepted now => exact ⟨s', run, later, now⟩

theorem later_memory {m : MemoryStore} (later : Later (.memory m) s) : ∃ m', s = .memory m' := by
  induction later with
  | here => exact ⟨m, rfl⟩
  | persist _ id bytes ih =>
    obtain ⟨m', rfl⟩ := ih
    exact ⟨_, rfl⟩
  | load _ id ih =>
    obtain ⟨m', rfl⟩ := ih
    exact ⟨_, rfl⟩

theorem accepts_memory (m : MemoryStore) : Accepts (.memory m) := by
  intro s later id bytes
  obtain ⟨m', rfl⟩ := later_memory later
  exact ⟨_, rfl⟩

theorem finds_memory (m : MemoryStore) : Finds (.memory m) := by
  intro s later id
  obtain ⟨m', rfl⟩ := later_memory later
  exact ⟨_, rfl⟩

end Calls

end Store

namespace Cell

variable {α : Type} {codec : Codec α} {cell : Cell α} {store : Store}

/-- What the store keeps of the value once it has been saved: nothing new if it is only there. -/
def due (codec : Codec α) (s : Cell α × Store) : Option Bytes :=
  match s.1.state with
  | .resident value => some (codec.encode s.1.config.layout value).bytes
  | .released => LawfulStore.kept s.2 s.1.id

theorem logical?_eq_due {s : Cell α × Store} (undoes : codec.Undoes s.1.config.layout) :
    logical? codec s = (due codec s).bind fun bytes => (codec.decodeAll bytes).toOption := by
  unfold logical? due
  cases s.1.state with
  | resident v =>
    dsimp only
    rw [Option.bind_some, (undoes v).2]
    rfl
  | released => rfl

theorem logical?_of_due {s s' : Cell α × Store} (undoes : codec.Undoes s.1.config.layout)
    (same : due codec s' = due codec s) (config : s'.1.config = s.1.config) :
    logical? codec s' = logical? codec s := by
  rw [logical?_eq_due undoes, ← same]
  rw [← config] at undoes
  exact logical?_eq_due undoes

section Copies
variable {store' : Store} (same : LawfulStore.kept store' cell.id = LawfulStore.kept store cell.id)
include same

theorem logical?_congr : logical? codec (cell, store') = logical? codec (cell, store) := by
  simp only [logical?, copy?, same]

theorem due_congr : due codec (cell, store') = due codec (cell, store) := by
  simp only [due, same]

end Copies

theorem due_saved (mode : SaveMode) {store' : Store}
    (now : LawfulStore.kept store' cell.id = due codec (cell, store)) :
    due codec ({ cell with state := if mode.releases then .released else cell.state }, store') =
      due codec (cell, store) := by
  by_cases releases : mode.releases = true
  · simp only [releases, if_true]
    exact now
  · simp only [releases]
    cases held : cell.state with
    | resident v =>
      simp only [due, held]
      rfl
    | released =>
      rw [← now]
      rfl

theorem save_of_free (codec : Codec α) (free : cell.lock = {}) (mode : SaveMode) :
    save codec mode (cell, store) =
      match cell.state with
      | .released => .ok (if mode.releases then .released else .stored) (cell, store)
      | .resident v =>
        match persist codec v (cell, store) with
        | .ok true now => .ok (if mode.releases then .released else .stored)
            (if mode.releases then { now.1 with state := .released } else now.1, now.2)
        | .ok false now => .ok .rejected now
        | .error e now => .error e now := by
  have alone : cell.lock.admitsWriter = true := LockState.admitsWriter_iff.mpr free
  have admitted := LockState.admitsReader_of_writer alone
  cases held : cell.state with
  | released =>
    cases mode <;> simp only [save, awaitReader, awaitWriter, persistAndRelease, Run.bind_apply,
      Run.get_apply, admitted, alone, if_true, Run.pure_apply, held] <;> rfl
  | resident v =>
    cases mode <;> simp only [save, awaitReader, awaitWriter, persistAndRelease, setState,
      Run.bind_apply, Run.get_apply, admitted, alone, if_true, Run.pure_apply, held] <;>
      rcases persist codec v (cell, store) with ⟨_ | _, now⟩ | ⟨e, now⟩ <;> rfl

/-- Where the store accepts every write, what is due is written. -/
theorem save_due (codec : Codec α) (free : cell.lock = {}) (undoes : codec.Undoes cell.config.layout)
    (accepts : store.Accepts) (mode : SaveMode) :
    ∃ outcome store', Run.answered (save codec mode (cell, store)) =
        (.ok outcome,
          { cell with state := if mode.releases then .released else cell.state }, store') ∧
      outcome.isPersisted = true ∧ store.Later store' ∧
      LawfulStore.kept store' = fun other =>
        if other = cell.id then due codec (cell, store) else LawfulStore.kept store other := by
  have persisted : (if mode.releases then SaveOutcome.released else .stored).isPersisted = true := by
    cases mode <;> rfl
  rw [save_of_free codec free]
  cases held : cell.state with
  | resident v =>
    obtain ⟨store', run, later, now⟩ :=
      accepts.persist cell.id (codec.encode cell.config.layout v).bytes
    have written : persist codec v (cell, store) = .ok true (cell, store') := by
      simp only [persist, Run.bind_apply, Run.get_apply, Encoded.toExcept, (undoes v).1, onStore, run]
    refine ⟨_, store', ?_, persisted, later, ?_⟩
    · dsimp only
      rw [written, ← held]
      cases mode <;> rfl
    · simp only [due, held]
      exact now
  | released =>
    refine ⟨_, store, ?_, persisted, .here, ?_⟩
    · dsimp only
      rw [ite_self, ← held]
      rfl
    · funext other
      simp only [due, held]
      split
      · rename_i here
        rw [here]
      · rfl

/-- The ways in which the value of a cell that nobody holds is brought back to be changed. -/
inductive Begun (codec : Codec α) (cell : Cell α) (store : Store) :
    Except Error α × Cell α × Store → Prop
  | here {v : α} {store' : Store} (was : logical? codec (cell, store) = some v)
      (later : store.Later store') (same : LawfulStore.kept store' = LawfulStore.kept store) :
      Begun codec cell store (.ok v, { cell with state := .resident v }, store')
  | failed {e : Error} {store' : Store} (later : store.Later store')
      (same : LawfulStore.kept store' = LawfulStore.kept store)
      (why : store.Finds → logical? codec (cell, store) = none) :
      Begun codec cell store (.error e, cell, store')

theorem begun_result (codec : Codec α) (free : cell.lock = {}) (store : Store) :
    Begun codec cell store (Run.answered (beginWrite codec (cell, store))) := by
  have alone : cell.lock.admitsWriter = true := LockState.admitsWriter_iff.mpr free
  simp only [beginWrite, awaitWriter, reload, Run.bind_apply, Run.get_apply, alone, if_true,
    Run.pure_apply]
  cases held : cell.state with
  | resident v =>
    have same : { cell with state := .resident v } = cell := by
      rw [← held]
    have here : Begun codec cell store (.ok v, { cell with state := .resident v }, store) :=
      .here (by simp only [logical?, held]) .here rfl
    rw [same] at here
    exact here
  | released =>
    have was : logical? codec (cell, store) = copy? codec store cell.id := by
      simp only [logical?, held]
    have later := (Store.Later.here (s := store)).load cell.id
    simp only [Run.bind_apply, onStore]
    rcases LawfulStore.load_cases store cell.id with
      ⟨bytes, store', run, there, same⟩ | ⟨store', run, same⟩ | ⟨e, store', run, same⟩
    · rw [run] at later ⊢
      cases decoded : codec.decodeAll bytes with
      | ok v =>
        simp only [decoded, Run.bind_apply, setState, Run.modify_apply, Run.pure_apply,
          Run.answered_ok]
        refine .here ?_ later same.kept
        rw [was, copy?, there, Option.bind_some, decoded]
        rfl
      | error e =>
        simp only [decoded, Run.throw_apply, Run.answered_error]
        refine .failed later same.kept fun _ => ?_
        rw [was, copy?, there, Option.bind_some, decoded]
        rfl
    · rw [run] at later ⊢
      refine .failed later same.kept fun finds => ?_
      obtain ⟨s, answer⟩ := finds store .here cell.id
      rw [run] at answer
      have nothing : none = LawfulStore.kept store cell.id := by
        injection answer
      rw [was, copy?, ← nothing, Option.bind_none]
    · rw [run] at later ⊢
      refine .failed later same.kept fun finds => ?_
      obtain ⟨s, answer⟩ := finds store .here cell.id
      rw [run] at answer
      cases answer

end Cell

/-- What a store has under an identity, if there is such a store. -/
def Graph.copyAt {κ : Type} [Values κ] (g : Graph κ) (t : StoreRef) (id : NodeId) :
    Option (Option Bytes) :=
  g.stores[t.index]?.map (LawfulStore.kept · id)

namespace Vault

open GraphJournal.Graph

variable {κ : Type} [Values κ] {vault other : Vault κ} {g g' g'' : Graph κ}

/-- The cell and the store of a node that nobody holds. -/
structure Stands (vault : Vault κ) (g : Graph κ) (s : Cell (Values.Carrier vault.kind) × Store) :
    Prop where
  content : g.content? vault.node = some (.persistent vault.kind s.1 vault.store)
  found : g.stores[vault.store.index]? = some s.2
  id : s.1.id = vault.id
  config : s.1.config = vault.config
  free : s.1.lock = {}

/-- The node and its copy have been left alone, though its store may have been asked for others. -/
def LeftAlone (vault : Vault κ) (g g' : Graph κ) : Prop :=
  ∀ s, vault.Stands g s → ∃ store', vault.Stands g' (s.1, store') ∧ s.2.Later store' ∧
    LawfulStore.kept store' vault.id = LawfulStore.kept s.2 vault.id

/-- Nothing has been done to the nodes and stores but for this node and its copy. -/
structure Tended (vault : Vault κ) (g g' : Graph κ)
    (before after : Cell (Values.Carrier vault.kind) × Store) : Prop where
  was : vault.Stands g before
  now : vault.Stands g' after
  later : before.2.Later after.2
  copies : ∀ id, id ≠ vault.id → LawfulStore.kept after.2 id = LawfulStore.kept before.2 id
  nodes : ∀ m, m ≠ vault.node → g'.content? m = g.content? m
  stores : ∀ t : StoreRef, t ≠ vault.store → g'.stores[t.index]? = g.stores[t.index]?
  skeleton : g'.skeleton = g.skeleton

section Standing

theorem Stands.shape {s : Cell (Values.Carrier vault.kind) × Store} (stands : vault.Stands g s) :
    g.shape? vault.node =
      some (.persistent vault.kind vault.id vault.config {} vault.store) := by
  rw [shape?, stands.content, Option.map_some, Content.shape, stands.id, stands.config, stands.free]

theorem exists_stands
    (shape : g.shape? vault.node = some (.persistent vault.kind vault.id vault.config {} vault.store))
    {store : Store} (found : g.stores[vault.store.index]? = some store) :
    ∃ cell, vault.Stands g (cell, store) := by
  obtain ⟨content, there, same⟩ := Option.map_eq_some_iff.mp shape
  cases content with
  | persistent kind cell s =>
    simp only [Content.shape, Shape.persistent.injEq] at same
    obtain ⟨rfl, id, config, lock, rfl⟩ := same
    exact ⟨cell, there, found, id, config, lock⟩
  | _ => cases same

theorem Stands.congr {s : Cell (Values.Carrier vault.kind) × Store} (stands : vault.Stands g s)
    (nodes : g'.nodes = g.nodes) (stores : g'.stores = g.stores) : vault.Stands g' s where
  content := by rw [content?_of_nodes nodes, stands.content]
  found := by rw [stores, stands.found]
  id := stands.id
  config := stands.config
  free := stands.free

theorem Stands.unique {s s' : Cell (Values.Carrier vault.kind) × Store} (stands : vault.Stands g s)
    (stands' : vault.Stands g s') : s' = s := by
  have content := stands'.content
  rw [stands.content] at content
  have found := stands'.found
  rw [stands.found] at found
  injection content with content
  injection content with _ cell
  injection found with store
  exact Prod.ext cell.symm store.symm

theorem Stands.held? {s : Cell (Values.Carrier vault.kind) × Store} (stands : vault.Stands g s) :
    g.held? vault.node = (Cell.logical? (Values.codec vault.kind) s).map (.single vault.kind) := by
  rw [Graph.held?, stands.content, Option.bind_some, holding?, stands.found, Option.bind_some]

theorem leftAlone_of_same (nodes : g'.nodes = g.nodes) (stores : g'.stores = g.stores) :
    vault.LeftAlone g g' :=
  fun s stands => ⟨s.2, stands.congr nodes stores, .here, rfl⟩

end Standing

section Tending
variable {before after : Cell (Values.Carrier vault.kind) × Store}

theorem tended_putCell (was : vault.Stands g before)
    (state : Residency (Values.Carrier vault.kind)) {store : Store} (later : before.2.Later store)
    (copies : ∀ id, id ≠ vault.id → LawfulStore.kept store id = LawfulStore.kept before.2 id) :
    vault.Tended g (g.putCell vault.node vault.kind vault.store ({ before.1 with state }, store))
      before ({ before.1 with state }, store) where
  was := was
  now := ⟨content?_putCell_self g was.content _, store_putCell_self g was.found _, was.id, was.config,
    was.free⟩
  later := later
  copies := copies
  nodes := fun _ apart => content?_setContent_other { g with stores := _ } _ apart _
  stores := by
    intro t apart
    have index : vault.store.index ≠ t.index := fun same =>
      apart (congrArg StoreRef.mk same.symm)
    rw [stores_putCell, Array.getElem?_setIfInBounds_ne index]
  skeleton := skeleton_setContent { g with stores := _ } vault.node was.content rfl

theorem Tended.congr (tended : vault.Tended g g' before after) (nodes : g''.nodes = g'.nodes)
    (stores : g''.stores = g'.stores) : vault.Tended g g'' before after where
  was := tended.was
  now := tended.now.congr nodes stores
  later := tended.later
  copies := tended.copies
  nodes := fun m apart => by rw [content?_of_nodes nodes, tended.nodes m apart]
  stores := fun t apart => by rw [stores, tended.stores t apart]
  skeleton := by rw [skeleton_of_nodes nodes, tended.skeleton]

theorem Tended.setContent (tended : vault.Tended g g' before after)
    (state : Residency (Values.Carrier vault.kind)) :
    vault.Tended g
      (g'.setContent vault.node (.persistent vault.kind { after.1 with state } vault.store))
      before ({ after.1 with state }, after.2) where
  was := tended.was
  now := by
    refine ⟨content?_setContent_self g' _ tended.now.content _, ?_, tended.now.id,
      tended.now.config, tended.now.free⟩
    rw [stores_setContent, tended.now.found]
  later := tended.later
  copies := tended.copies
  nodes := fun m apart => by rw [content?_setContent_other g' _ apart, tended.nodes m apart]
  stores := fun t apart => by rw [stores_setContent, tended.stores t apart]
  skeleton := by
    refine (skeleton_setContent g' _ tended.now.content ?_).trans tended.skeleton
    rfl

theorem Tended.leftAlone (tended : vault.Tended g g' before after) (apart : other.id ≠ vault.id) :
    other.LeftAlone g g' := by
  intro s stands
  -- A node has one identity, so this is another node.
  have nodes : other.node ≠ vault.node := by
    intro same
    have shape := stands.shape
    rw [same, tended.was.shape] at shape
    simp only [Option.some.injEq, Shape.persistent.injEq] at shape
    exact apart shape.2.1.symm
  have content : g'.content? other.node = some (.persistent other.kind s.1 other.store) := by
    rw [tended.nodes _ nodes, stands.content]
  -- In a common store, only the copy of the other one may have been written.
  by_cases here : other.store = vault.store
  · have store : s.2 = before.2 := by
      have found := stands.found
      rw [here, tended.was.found] at found
      exact (Option.some.inj found).symm
    refine ⟨after.2, ⟨content, ?_, stands.id, stands.config, stands.free⟩, ?_, ?_⟩
    · rw [here, tended.now.found]
    · rw [store]
      exact tended.later
    · rw [store, tended.copies _ apart]
  · refine ⟨s.2, ⟨content, ?_, stands.id, stands.config, stands.free⟩, .here, rfl⟩
    rw [tended.stores _ here, stands.found]

theorem Tended.copyAt (tended : vault.Tended g g' before after) {t : StoreRef} {id : NodeId}
    (apart : ¬ (vault.store = t ∧ vault.id = id)) : g'.copyAt t id = g.copyAt t id := by
  unfold Graph.copyAt
  by_cases here : t = vault.store
  · have ids : id ≠ vault.id := fun same => apart ⟨here.symm, same.symm⟩
    rw [here, tended.now.found, tended.was.found, Option.map_some, Option.map_some,
      tended.copies id ids]
  · rw [tended.stores t here]

end Tending

section Saving
variable {s : Cell (Values.Carrier vault.kind) × Store}

/-- A save of the node: its copy is then what is due, and it is released if the save releases. What
is due stays the same. -/
theorem save_tended (was : vault.Stands g s)
    (undoes : (Values.codec vault.kind).Undoes vault.config.layout) (accepts : s.2.Accepts)
    (mode : SaveMode) :
    ∃ outcome store', (Run.answered (save vault.node mode g)).1 = .ok outcome ∧
      outcome.isPersisted = true ∧
      vault.Tended g (Run.answered (save vault.node mode g)).2 s
        ({ s.1 with state := if mode.releases then .released else s.1.state }, store') ∧
      LawfulStore.kept store' vault.id = Cell.due (Values.codec vault.kind) s ∧
      Cell.due (Values.codec vault.kind)
        ({ s.1 with state := if mode.releases then .released else s.1.state }, store') =
          Cell.due (Values.codec vault.kind) s := by
  rw [← was.config] at undoes
  obtain ⟨outcome, store', run, persisted, later, now⟩ :=
    Cell.save_due (Values.codec vault.kind) was.free undoes accepts mode
  rw [answered_save was.content was.found mode, run]
  have here : LawfulStore.kept store' s.1.id = Cell.due (Values.codec vault.kind) s := by
    rw [now]
    exact if_pos rfl
  refine ⟨outcome, store', rfl, persisted, tended_putCell was _ later ?_, ?_,
    Cell.due_saved mode here⟩
  · intro id apart
    rw [← was.id] at apart
    rw [now]
    exact if_neg apart
  · rw [← was.id, here]

end Saving

section Changing
variable {s : Cell (Values.Carrier vault.kind) × Store}

def changed (kind : κ) (change : Change κ) (v : Values.Carrier kind) :
    Except Error RecordOutcome → Residency (Values.Carrier kind)
  | .ok _ => .resident (change kind v)
  | .error _ => .resident v

/-- The ways in which a change of the node can end. The value is brought back first, and then the
change is recorded in the graph as it is now. -/
inductive Updated (vault : Vault κ) (change : Change κ) (g : Graph κ)
    (s : Cell (Values.Carrier vault.kind) × Store) : Graph κ → Prop
  | failed {store' : Store} {g' : Graph κ} (tended : vault.Tended g g' s (s.1, store'))
      (same : LawfulStore.kept store' = LawfulStore.kept s.2) (roots : g'.roots = g.roots)
      (why : s.2.Finds → Cell.logical? (Values.codec vault.kind) s = none) :
      Updated vault change g s g'
  | brought {v : Values.Carrier vault.kind} {store' : Store} {g₁ g' : Graph κ}
      {answer : Except Error RecordOutcome × Graph κ}
      (was : Cell.logical? (Values.codec vault.kind) s = some v) (twins : Twins g g₁)
      (recorded : answer = Run.answered
        (journalValue vault.node (Values.codec vault.kind) (change vault.kind v) g₁))
      (tended : vault.Tended g g' s
        ({ s.1 with state := changed vault.kind change v answer.1 }, store'))
      (same : LawfulStore.kept store' = LawfulStore.kept s.2) (after : Twins answer.2 g')
      (queues : ∀ r, (g'.root? r).bind Root.queue? = (g.root? r).bind Root.queue?) :
      Updated vault change g s g'

theorem answered_update (was : vault.Stands g s) (change : Change κ) :
    Run.answered (update vault.node change g) =
      match Run.answered (Cell.beginWrite (Values.codec vault.kind) s) with
      | (.error e, now) => (.error e, g.putCell vault.node vault.kind vault.store now)
      | (.ok v, now) =>
        match Run.answered (journalValue vault.node (Values.codec vault.kind) (change vault.kind v)
          (g.putCell vault.node vault.kind vault.store now)) with
        | (.error e, g') => (.error e, g')
        | (.ok outcome, g') => (.ok outcome, g'.setContent vault.node
            (.persistent vault.kind { now.1 with state := .resident (change vault.kind v) }
              vault.store)) := by
  unfold update updateFor updateForBy
  simp only [journalBy_ownHooks, Run.bind_apply, Run.get_apply, was.content]
  rw [withCell_eq g was.found]
  cases Cell.beginWrite (Values.codec vault.kind) s with
  | error e now => rfl
  | ok v now =>
    simp only [Run.answered_ok]
    obtain ⟨nodes, -, -⟩ := journal_frame vault.node .value true none
      (Draft.value (Values.codec vault.kind) · (change vault.kind v))
      (g.putCell vault.node vault.kind vault.store now)
    simp only [journalValue]
    cases result : journal vault.node .value true none
        (Draft.value (Values.codec vault.kind) · (change vault.kind v))
        (g.putCell vault.node vault.kind vault.store now) with
    | error e g' => rfl
    | ok outcome g' =>
      rw [result, Run.answered_ok] at nodes
      have content := content?_of_nodes nodes vault.node
      rw [content?_putCell_self g was.content] at content
      simp only [install_eq content, Run.answered_ok, Run.pure_apply]

theorem updated (was : vault.Stands g s) (change : Change κ) :
    Updated vault change g s (Run.answered (update vault.node change g)).2 := by
  have begun := Cell.begun_result (Values.codec vault.kind) was.free s.2
  rw [answered_update was]
  generalize Run.answered (Cell.beginWrite (Values.codec vault.kind) s) = result at begun
  cases begun with
  | failed later same why =>
    have tended := tended_putCell was s.1.state later fun id _ => by rw [same]
    exact .failed tended same (roots_putCell g _) why
  | @here v store' logical later same =>
    -- From here on the value is in memory, whether the change is recorded or not.
    have tended := tended_putCell was (.resident v) later fun id _ => by rw [same]
    have twins : Twins g (g.putCell vault.node vault.kind vault.store
        ({ s.1 with state := .resident v }, store')) :=
      twins_of_roots tended.skeleton (roots_putCell g _)
    have roots : (g.putCell vault.node vault.kind vault.store
        ({ s.1 with state := .resident v }, store')).roots = g.roots := roots_putCell g _
    dsimp only
    generalize g.putCell vault.node vault.kind vault.store
      ({ s.1 with state := .resident v }, store') = g₁ at tended twins roots ⊢
    obtain ⟨nodes, stores, queues⟩ := journal_frame vault.node .value true none
      (Draft.value (Values.codec vault.kind) · (change vault.kind v)) g₁
    have recorded := tended.congr nodes stores
    simp only [journalValue]
    cases result : Run.answered (journal vault.node .value true none
        (Draft.value (Values.codec vault.kind) · (change vault.kind v)) g₁) with
    | mk answer g₂ =>
      rw [result] at nodes stores queues recorded
      have queues' (r : RootRef) : (g₂.root? r).bind Root.queue? = (g.root? r).bind Root.queue? := by
        rw [queues, root?_of_roots roots]
      cases answer with
      | error e => exact .brought logical twins result.symm recorded same (Twins.refl g₂) queues'
      | ok outcome =>
        have set := recorded.setContent (.resident (change vault.kind v))
        refine .brought logical twins result.symm set same ?_ ?_
        · exact twins_of_roots (skeleton_setContent g₂ _ recorded.now.content rfl)
            (roots_setContent g₂ _ _)
        · intro r
          rw [root?_of_roots (roots_setContent g₂ _ _), queues']

theorem Updated.tended {change : Change κ} (updated : Updated vault change g s g') :
    ∃ after, vault.Tended g g' s after ∧ LawfulStore.kept after.2 = LawfulStore.kept s.2 ∧
      (∀ r, (g'.root? r).bind Root.queue? = (g.root? r).bind Root.queue?) ∧
      ((Cell.logical? (Values.codec vault.kind) s).isSome →
        (Cell.logical? (Values.codec vault.kind) after).isSome) := by
  cases updated with
  | failed tended same roots why =>
    refine ⟨_, tended, same, fun r => by rw [root?_of_roots roots], ?_⟩
    intro there
    rw [Cell.logical?_congr (congrFun same s.1.id)]
    exact there
  | @brought v store' g₁ _ answer was twins recorded tended same after queues =>
    refine ⟨_, tended, same, queues, fun _ => ?_⟩
    cases answer.1 <;> rfl

/-- The same change in two graphs, of which the same is due, so that the same is due then. -/
theorem update_twins {s' : Cell (Values.Carrier vault.kind) × Store} (change : Change κ)
    (undoes : (Values.codec vault.kind).Undoes vault.config.layout) (twins : Twins g g')
    (was : vault.Stands g s) (was' : vault.Stands g' s') (finds : s.2.Finds) (finds' : s'.2.Finds)
    (due : Cell.due (Values.codec vault.kind) s' = Cell.due (Values.codec vault.kind) s) :
    ∃ after after', vault.Tended g (Run.answered (update vault.node change g)).2 s after ∧
      vault.Tended g' (Run.answered (update vault.node change g')).2 s' after' ∧
      LawfulStore.kept after.2 = LawfulStore.kept s.2 ∧
      LawfulStore.kept after'.2 = LawfulStore.kept s'.2 ∧
      Cell.due (Values.codec vault.kind) after' = Cell.due (Values.codec vault.kind) after ∧
      Twins (Run.answered (update vault.node change g)).2
        (Run.answered (update vault.node change g')).2 := by
  have config : s'.1.config = s.1.config := was'.config.trans was.config.symm
  rw [← was.config] at undoes
  -- The same value is there, so both bring it back or neither does.
  have logical := Cell.logical?_of_due undoes due config
  have done := updated was change
  have done' := updated was' change
  generalize (Run.answered (update vault.node change g)).2 = h at done ⊢
  generalize (Run.answered (update vault.node change g')).2 = h' at done' ⊢
  cases done with
  | failed tended same roots why =>
    cases done' with
    | failed tended' same' roots' why' =>
      refine ⟨_, _, tended, tended', same, same', ?_, ?_⟩
      · rw [Cell.due_congr (congrFun same s.1.id), Cell.due_congr (congrFun same' s'.1.id)]
        exact due
      · exact ((twins_of_roots tended.skeleton roots).symm.trans twins).trans
          (twins_of_roots tended'.skeleton roots')
    | brought logical' =>
      rw [logical, why finds] at logical'
      cases logical'
  | @brought v store₁ g₁ _ answer is here recorded tended same after queues =>
    cases done' with
    | failed tended' same' roots' why' =>
      rw [← logical, why' finds'] at is
      cases is
    | @brought v' store₁' g₁' _ answer' is' here' recorded' tended' same' after' queues' =>
      obtain rfl : v' = v := by
        rw [logical, is] at is'
        exact (Option.some.inj is').symm
      obtain ⟨answers, graphs⟩ := journal_twins vault.node .value true none
        (Draft.value (Values.codec vault.kind) · (change vault.kind v'))
        ((here.symm.trans twins).trans here')
      rw [journalValue] at recorded recorded'
      rw [← recorded, ← recorded'] at answers graphs
      refine ⟨_, _, tended, tended', same, same', ?_, (after.symm.trans graphs).trans after'⟩
      rw [answers]
      cases answer.1 <;> simp only [Cell.due, changed, config]

end Changing

section Queueing

/-- A request to save the node puts it in the queue of its root, unless it is there. -/
theorem scheduleSave_eq {s : Cell (Values.Carrier vault.kind) × Store} (stands : vault.Stands g s)
    {r : RootRef} (told : (g.links vault.node).root = some r) {root : Root}
    (live : g.root? r = some root) {q : SaveQueue NodeRef} (queue : root.queue? = some q) :
    (g.scheduleSave vault.node).2 =
      g.setRoot r (root.setQueue (q.push vault.id vault.node).2) := by
  have id : g.nodeId? vault.node = some vault.id := by
    simp only [nodeId?, stands.content, stands.id]
  simp only [scheduleSave, told, enqueue, live, id, queue]

end Queueing

end Vault

end GraphJournal
