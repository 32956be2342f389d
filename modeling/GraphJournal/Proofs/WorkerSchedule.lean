import GraphJournal.Proofs.Checkpoint
import GraphJournal.Proofs.WorkerUpkeep

/-!
# Schedules of a save worker

A worker that takes its steps anywhere between some calls is compared with the calls alone: what is
due of each node is the same. So where each change is followed by a request, what the stopped worker
leaves depends on the calls only. Stores are compared by what they keep, NOT by what a script in them
would answer next.
-/
namespace GraphJournal

set_option autoImplicit false

open MessagePack

variable {κ : Type} [Values κ]

/-- What is known of a node in a graph that a worker has been at, and in one where only the calls
have been made: the same is due. -/
structure Vault.Matched (vault : Vault κ) (calls : List (WorkEvent κ)) (g g' : Graph κ)
    (now now' : Cell (Values.Carrier vault.kind) × Store) : Prop where
  stands : vault.Stands g now
  stands' : vault.Stands g' now'
  finds : now.2.Finds
  finds' : now'.2.Finds
  due : Cell.due (Values.codec vault.kind) now' = Cell.due (Values.codec vault.kind) now
  copy : .schedule vault.node ∉ calls →
    LawfulStore.kept now'.2 vault.id = LawfulStore.kept now.2 vault.id

/-- The second graph is the first but for what the worker has done. -/
structure Shadows (vaults : List (Vault κ)) (calls : List (WorkEvent κ)) (g g' : Graph κ) : Prop where
  twins : Graph.Twins g g'
  matched : ∀ vault ∈ vaults, ∃ now now', vault.Matched calls g g' now now'
  others : ∀ t id, (∀ vault ∈ vaults, ¬ (vault.store = t ∧ vault.id = id)) →
    g'.copyAt t id = g.copyAt t id

section Shadowing
variable {vaults : List (Vault κ)} {r : RootRef} {mode : SaveMode} {g₀ : Graph κ}
  {calls calls' : List (WorkEvent κ)} {s : Scene κ} {g g' h h' : Graph κ} {vault : Vault κ}

theorem Vault.leftAlone_refl : vault.LeftAlone g g := leftAlone_of_same rfl rfl

theorem Vault.Matched.leftAlone {now now' : Cell (Values.Carrier vault.kind) × Store}
    (matched : vault.Matched calls g g' now now') (alone : vault.LeftAlone g h)
    (alone' : vault.LeftAlone g' h')
    (more : .schedule vault.node ∉ calls' → .schedule vault.node ∉ calls) :
    ∃ next next', vault.Matched calls' h h' next next' := by
  obtain ⟨store, stands, later, same⟩ := alone now matched.stands
  obtain ⟨store', stands', later', same'⟩ := alone' now' matched.stands'
  refine ⟨_, _, stands, stands', matched.finds.later later, matched.finds'.later later', ?_, ?_⟩
  · rw [← matched.stands.id] at same
    rw [← matched.stands'.id] at same'
    rw [Cell.due_congr same, Cell.due_congr same']
    exact matched.due
  · intro unscheduled
    rw [same, same', matched.copy (more unscheduled)]

theorem Shadows.requeue (shadows : Shadows vaults calls g g')
    (frame : h.nodes = g.nodes ∧ h.stores = g.stores ∧ Graph.Twins g h)
    (frame' : h'.nodes = g'.nodes ∧ h'.stores = g'.stores ∧ Graph.Twins g' h')
    (more : ∀ vault ∈ vaults, .schedule vault.node ∉ calls' → .schedule vault.node ∉ calls) :
    Shadows vaults calls' h h' := by
  obtain ⟨nodes, stores, twins⟩ := frame
  obtain ⟨nodes', stores', twins'⟩ := frame'
  refine ⟨(twins.symm.trans shadows.twins).trans twins', ?_, ?_⟩
  · intro vault mem
    obtain ⟨now, now', matched⟩ := shadows.matched vault mem
    exact matched.leftAlone (Vault.leftAlone_of_same nodes stores)
      (Vault.leftAlone_of_same nodes' stores') (more vault mem)
  · intro t id apart
    have same := shadows.others t id apart
    unfold Graph.copyAt at same ⊢
    rw [stores, stores', same]

theorem Shadows.tick (bank : Bank vaults r g₀) (upkeep : Upkeep vaults r mode g₀ calls s)
    (shadows : Shadows vaults calls s.graph g') :
    Shadows vaults calls (s.tick r mode).graph g' := by
  have still : g'.nodes = g'.nodes ∧ g'.stores = g'.stores ∧ Graph.Twins g' g' :=
    ⟨rfl, rfl, .refl g'⟩
  have ticked := upkeep.ticked bank
  generalize s.tick r mode = s' at ticked
  cases ticked with
  | @begun root q _ live | @ended root q _ live =>
    exact shadows.requeue ⟨Graph.nodes_setRoot _ _ _, Graph.stores_setRoot _ _ _,
      Graph.twins_setRoot live (root.unqueued_setQueue _)⟩ still fun _ _ => id
  | @saved vault todo mem round =>
    obtain ⟨now, cared⟩ := upkeep.cared vault mem
    obtain ⟨outcome, store', -, -, tended, -, due⟩ :=
      Vault.save_tended cared.stands (bank.idle vault mem).undoes cared.accepts mode
    have roots := s.graph.roots_save vault.node mode
    generalize (Run.answered (Graph.save vault.node mode s.graph)).2 = h at tended roots ⊢
    refine ⟨(Graph.twins_of_roots tended.skeleton roots).symm.trans shadows.twins, ?_, ?_⟩
    · intro other mem'
      obtain ⟨now₁, now', matched⟩ := shadows.matched other mem'
      by_cases same : other = vault
      · subst same
        obtain rfl := cared.stands.unique matched.stands
        refine ⟨_, now', tended.now, matched.stands', matched.finds.later tended.later,
          matched.finds', matched.due.trans due.symm, ?_⟩
        -- It was queued, so it has been scheduled.
        intro unscheduled
        have waits : other.entry ∈ s.waiting r := by
          rw [Scene.waiting, round]
          exact List.mem_append_left _ List.mem_cons_self
        obtain ⟨vault, -, same, scheduled⟩ := upkeep.known _ waits
        have node : other.node = vault.node := congrArg Prod.snd same
        exact absurd (node ▸ scheduled) unscheduled
      · have apart := mt (bank.eq_of_id mem mem') same
        exact matched.leftAlone (tended.leftAlone apart) Vault.leftAlone_refl id
    · intro t id apart
      rw [shadows.others t id apart, tended.copyAt (apart vault mem)]

theorem Shadows.update (bank : Bank vaults r g₀) (shadows : Shadows vaults calls g g')
    (mem : vault ∈ vaults) (change : Change κ) :
    Shadows vaults (calls ++ [.update vault.node change])
      (Run.answered (Graph.update vault.node change g)).2
      (Run.answered (Graph.update vault.node change g')).2 := by
  have more (vault' : Vault κ)
      (unscheduled : .schedule vault'.node ∉ calls ++ [.update vault.node change]) :
      .schedule vault'.node ∉ calls :=
    fun scheduled => unscheduled (List.mem_append_left _ scheduled)
  obtain ⟨now, now', matched⟩ := shadows.matched vault mem
  obtain ⟨after, after', tended, tended', same, same', due, twins⟩ :=
    Vault.update_twins change (bank.idle vault mem).undoes shadows.twins matched.stands
      matched.stands' matched.finds matched.finds' matched.due
  refine ⟨twins, ?_, ?_⟩
  · intro other mem'
    by_cases here : other = vault
    · subst here
      refine ⟨after, after', tended.now, tended'.now, matched.finds.later tended.later,
        matched.finds'.later tended'.later, due, ?_⟩
      intro unscheduled
      rw [same, same', matched.copy (more other unscheduled)]
    · have apart := mt (bank.eq_of_id mem mem') here
      obtain ⟨now₁, now₁', matched₁⟩ := shadows.matched other mem'
      exact matched₁.leftAlone (tended.leftAlone apart) (tended'.leftAlone apart) (more other)
  · intro t id apart
    rw [tended.copyAt (apart vault mem), tended'.copyAt (apart vault mem), shadows.others t id apart]

theorem Shadows.run (bank : Bank vaults r g₀) {events : List (WorkEvent κ)}
    (on : ∀ e ∈ events, e.On vaults) (upkeep : Upkeep vaults r mode g₀ calls s) {t : Scene κ}
    (shadows : Shadows vaults calls s.graph t.graph) :
    Shadows vaults (calls ++ events.filter WorkEvent.isCall) (s.run r mode events).graph
      (t.run r mode (events.filter WorkEvent.isCall)).graph := by
  induction events generalizing calls s t with
  | nil =>
    rw [List.filter_nil, List.append_nil]
    exact shadows
  | cons e events ih =>
    have on' : ∀ e ∈ events, e.On vaults := fun e mem => on e (List.mem_cons_of_mem _ mem)
    cases e with
    | update n change =>
      obtain ⟨vault, mem, rfl⟩ := on _ List.mem_cons_self
      have shadows' : Shadows vaults _ (s.step r mode (.update vault.node change)).graph
          (t.step r mode (.update vault.node change)).graph := shadows.update bank mem change
      have next := ih on' (upkeep.update bank mem change) shadows'
      rwa [List.append_assoc] at next
    | schedule n =>
      obtain ⟨vault, mem, rfl⟩ := on _ List.mem_cons_self
      have shadows' : Shadows vaults (calls ++ [.schedule vault.node])
          (s.step r mode (.schedule vault.node)).graph
          (t.step r mode (.schedule vault.node)).graph :=
        shadows.requeue (Graph.scheduleSave_frame _ _) (Graph.scheduleSave_frame _ _)
          fun _ _ unscheduled scheduled => unscheduled (List.mem_append_left _ scheduled)
      have next := ih on' (upkeep.schedule bank mem) shadows'
      rwa [List.append_assoc] at next
    | tick => exact ih on' (upkeep.tick bank) (shadows.tick bank upkeep)

theorem Shadows.ticks (bank : Bank vaults r g₀) (upkeep : Upkeep vaults r mode g₀ calls s)
    (shadows : Shadows vaults calls s.graph g') (n : Nat) :
    Shadows vaults calls (s.ticks r mode n).graph g' := by
  induction n generalizing s with
  | zero => exact shadows
  | succ n ih => exact ih (upkeep.tick bank) (shadows.tick bank upkeep)

end Shadowing

/-- What is left when calls and steps of a worker have been made, and the worker has been stopped. -/
def Graph.afterWork (g : Graph κ) (r : RootRef) (mode : SaveMode) (events : List (WorkEvent κ)) :
    Graph κ :=
  (Scene.run r mode events { graph := g }).stop r mode

/-- The node holds a value if it did, the store has a copy of it, and it is released if saves
release. -/
structure Vault.Secured (vault : Vault κ) (mode : SaveMode) (g₀ g : Graph κ) : Prop where
  held : (g₀.held? vault.node).isSome → ∃ v, g.held? vault.node = some (.single vault.kind v)
  copy : ∀ v, g.held? vault.node = some (.single vault.kind v) → vault.HasCopy g v
  released : mode.releases = true → g.isResident vault.node = false

section Results
variable {vaults : List (Vault κ)} {r : RootRef} {mode : SaveMode} {g g₀ g' : Graph κ}
  {calls : List (WorkEvent κ)} {s t : Scene κ} {vault : Vault κ}

theorem Bank.upkeep (bank : Bank vaults r g₀) (mode : SaveMode) {j : Journal}
    (live : g₀.root? r = some (.journal j .empty)) : Upkeep vaults r mode g₀ [] { graph := g₀ } := by
  have queue : Scene.queue? r { graph := g₀ } = some .empty := by
    rw [Scene.queue?, live]
    rfl
  have waiting : Scene.waiting r { graph := g₀ } = [] := by
    rw [Scene.waiting, queue]
    rfl
  refine ⟨rfl, ⟨.empty, queue, SaveQueue.tidy_empty⟩, ?_, ?_, ?_⟩
  · rintro _ ⟨⟩
  · rw [waiting]
    rintro e ⟨⟩
  · intro vault mem
    have idle := bank.idle vault mem
    obtain ⟨store, found, accepts⟩ := idle.accepts
    have shape := idle.shape
    rw [idle.free] at shape
    obtain ⟨cell, stands⟩ := Vault.exists_stands shape found
    refine ⟨(cell, store), stands, accepts, ?_, ?_⟩
    · rw [stands.held?, Option.isSome_map]
      exact id
    · intro last _
      exact absurd last.scheduled List.not_mem_nil

theorem Upkeep.shadows (upkeep : Upkeep vaults r mode g₀ [] s)
    (finds : ∀ vault ∈ vaults, ∀ store, s.graph.stores[vault.store.index]? = some store →
      store.Finds) : Shadows vaults [] s.graph s.graph := by
  refine ⟨.refl _, ?_, fun _ _ _ => rfl⟩
  intro vault mem
  obtain ⟨now, cared⟩ := upkeep.cared vault mem
  have found := finds vault mem now.2 cared.stands.found
  exact ⟨now, now, cared.stands, cared.stands, found, found, rfl, fun _ => rfl⟩

section Done
variable (upkeep : Upkeep vaults r mode g₀ calls s) (followed : Followed calls)
  (finished : s.waiting r = []) (mem : vault ∈ vaults)
include upkeep followed finished mem

theorem Upkeep.settled (scheduled : .schedule vault.node ∈ calls) :
    ∃ now, vault.Cared r mode g₀ calls s now ∧ vault.Settled mode now := by
  obtain ⟨now, cared⟩ := upkeep.cared vault mem
  refine ⟨now, cared, cared.settled (followed.scheduledLast scheduled) ?_⟩
  rw [finished]
  exact List.not_mem_nil

theorem Upkeep.secured (bank : Bank vaults r g₀) (scheduled : .schedule vault.node ∈ calls) :
    vault.Secured mode g₀ s.graph := by
  obtain ⟨now, cared, kept, released⟩ := upkeep.settled followed finished mem scheduled
  have undoes := (bank.idle vault mem).undoes
  rw [← cared.stands.config] at undoes
  constructor
  · intro held
    obtain ⟨v, logical⟩ := Option.isSome_iff_exists.mp (cared.holds held)
    exact ⟨v, by rw [cared.stands.held?, logical, Option.map_some]⟩
  · intro v held
    rw [cared.stands.held?] at held
    obtain ⟨v', logical, same⟩ := Option.map_eq_some_iff.mp held
    cases same
    refine ⟨now.2, cared.stands.found, ?_⟩
    rw [Cell.copy?, kept, ← Cell.logical?_eq_due undoes, logical]
  · intro releases
    simp only [Graph.isResident, cared.stands.content, released releases]
    rfl

end Done

theorem Shadows.held?_eq (bank : Bank vaults r g₀) (shadows : Shadows vaults calls g g')
    (mem : vault ∈ vaults) : g.held? vault.node = g'.held? vault.node := by
  obtain ⟨now, now', matched⟩ := shadows.matched vault mem
  have undoes := (bank.idle vault mem).undoes
  rw [← matched.stands.config] at undoes
  have logical := Cell.logical?_of_due undoes matched.due
    (matched.stands'.config.trans matched.stands.config.symm)
  rw [matched.stands.held?, matched.stands'.held?, logical]

/-- Two ways of placing the steps of the worker leave the same in the stores. -/
theorem Upkeep.copyAt_eq (followed : Followed calls)
    (upkeep : Upkeep vaults r mode g₀ calls s) (finished : s.waiting r = [])
    (shadows : Shadows vaults calls s.graph g')
    (upkeep' : Upkeep vaults r mode g₀ calls t) (finished' : t.waiting r = [])
    (shadows' : Shadows vaults calls t.graph g') (place : StoreRef) (id : NodeId) :
    s.graph.copyAt place id = t.graph.copyAt place id := by
  by_cases whose : ∃ vault ∈ vaults, vault.store = place ∧ vault.id = id
  · obtain ⟨vault, mem, rfl, rfl⟩ := whose
    obtain ⟨now, now₁, matched⟩ := shadows.matched vault mem
    obtain ⟨now', now₂, matched'⟩ := shadows'.matched vault mem
    obtain rfl := matched.stands'.unique matched'.stands'
    rw [Graph.copyAt, Graph.copyAt, matched.stands.found, matched'.stands.found, Option.map_some,
      Option.map_some]
    by_cases scheduled : .schedule vault.node ∈ calls
    · obtain ⟨_, cared, kept, -⟩ := upkeep.settled followed finished mem scheduled
      obtain ⟨_, cared', kept', -⟩ := upkeep'.settled followed finished' mem scheduled
      obtain rfl := matched.stands.unique cared.stands
      obtain rfl := matched'.stands.unique cared'.stands
      rw [kept, kept', ← matched.due, matched'.due]
    · rw [← matched.copy scheduled, matched'.copy scheduled]
  · have apart : ∀ vault ∈ vaults, ¬ (vault.store = place ∧ vault.id = id) :=
      fun vault mem same => whose ⟨vault, mem, same⟩
    rw [← shadows.others place id apart, shadows'.others place id apart]

/-- The worker's steps may fall anywhere between the calls. When it has been stopped, nothing waits,
and each node that was queued is in its store. If the stores find what they keep, the values are what
the calls have made of them, and the stores are as if the worker had made its last pass only. -/
theorem result_of_any_schedule {vaults : List (Vault κ)} {r : RootRef} {g : Graph κ}
    (bank : Bank vaults r g) {j : Journal} (live : g.root? r = some (.journal j .empty))
    (mode : SaveMode) {calls events : List (WorkEvent κ)}
    (placed : events.filter WorkEvent.isCall = calls) (on : ∀ e ∈ calls, e.On vaults)
    (followed : Followed calls) :
    ((g.afterWork r mode events).root? r).bind Root.queue? = some .empty ∧
      (∀ vault ∈ vaults, .schedule vault.node ∈ calls →
        vault.Secured mode g (g.afterWork r mode events)) ∧
      ((∀ vault ∈ vaults, ∀ store, g.stores[vault.store.index]? = some store → store.Finds) →
        (∀ vault ∈ vaults, (g.afterWork r mode events).held? vault.node =
            (g.afterWork r mode calls).held? vault.node ∧
          (g.afterWork r mode events).held? vault.node =
            (Scene.run r mode calls { graph := g }).graph.held? vault.node) ∧
        ∀ place id, (g.afterWork r mode events).copyAt place id =
          (g.afterWork r mode calls).copyAt place id) := by
  have start := bank.upkeep mode live
  have on' : ∀ e ∈ events, e.On vaults := by
    intro e mem
    cases call : e.isCall with
    | true => exact on e (placed ▸ List.mem_filter.mpr ⟨mem, call⟩)
    | false =>
      cases e with
      | tick => trivial
      | _ => cases call
  have again : calls.filter WorkEvent.isCall = calls := by
    rw [← placed, List.filter_filter]
    simp only [Bool.and_self]
  have upkeep := start.run bank on'
  have upkeep' := start.run bank on
  rw [placed, List.nil_append] at upkeep
  rw [again, List.nil_append] at upkeep'
  obtain ⟨n, graph, queue, finished⟩ := upkeep.stop bank
  obtain ⟨n', graph', -, finished'⟩ := upkeep'.stop bank
  have done := upkeep.ticks bank n
  have done' := upkeep'.ticks bank n'
  unfold Graph.afterWork
  rw [← graph, ← graph']
  refine ⟨queue, fun vault mem => done.secured followed finished mem bank, ?_⟩
  intro finds
  have shadows := (start.shadows finds).run bank on' start
  have shadows' := (start.shadows finds).run bank on start
  rw [placed, List.nil_append] at shadows
  rw [again, List.nil_append] at shadows'
  replace shadows := shadows.ticks bank upkeep n
  replace shadows' := shadows'.ticks bank upkeep' n'
  refine ⟨?_, ?_⟩
  · intro vault mem
    exact ⟨(shadows.held?_eq bank mem).trans (shadows'.held?_eq bank mem).symm,
      shadows.held?_eq bank mem⟩
  · exact done.copyAt_eq followed finished shadows done' finished' shadows'

end Results

section Bytes

theorem undoes_uint8 (layout : Layout) : Codec.uint8.Undoes layout :=
  fun a => ⟨rfl, (Codec.lossless_uint8 layout maxDepth).restores a rfl⟩

/-- One more than it was; anything but a byte is left alone. -/
def countUp : Change ValueType
  | .u8, v => UInt8.add v 1
  | _, old => old

def twoBytes : Graph ValueType where
  nodes := #[
    some {
      content := .persistent .u8 { id := ⟨7⟩, state := .resident (1 : UInt8) } ⟨0⟩
      links := { root := some ⟨0⟩ } },
    some {
      content := .persistent .u8 { id := ⟨8⟩, state := .resident (1 : UInt8) } ⟨0⟩
      links := { root := some ⟨0⟩ } }]
  roots := #[some (.journal { config := .forTesting } {})]
  stores := #[.memory {}]

def secondBox : Vault ValueType := { Vault.strongbox with node := ⟨1⟩, id := ⟨8⟩ }

theorem twoBytes_bank : Bank [Vault.strongbox, secondBox] ⟨0⟩ twoBytes where
  distinct := by decide
  idle := by
    intro vault mem
    rcases List.mem_pair.mp mem with rfl | rfl
    all_goals exact ⟨rfl, rfl, rfl, rfl, undoes_uint8 _, _, rfl, Store.accepts_memory _⟩

/-- The first byte is changed again while a pass is between the two. -/
def busyEvents : List (WorkEvent ValueType) :=
  [.update ⟨0⟩ countUp, .schedule ⟨0⟩, .update ⟨1⟩ countUp, .schedule ⟨1⟩, .tick, .tick,
    .update ⟨0⟩ countUp, .tick, .schedule ⟨0⟩]

def busyCalls : List (WorkEvent ValueType) :=
  [.update ⟨0⟩ countUp, .schedule ⟨0⟩, .update ⟨1⟩ countUp, .schedule ⟨1⟩, .update ⟨0⟩ countUp,
    .schedule ⟨0⟩]

theorem busyCalls_followed : Followed busyCalls := by
  intro n change mem
  simp only [busyCalls, List.mem_cons, WorkEvent.update.injEq, reduceCtorEq, List.not_mem_nil,
    or_false, false_or] at mem
  rcases mem with ⟨rfl, -⟩ | ⟨rfl, -⟩ | ⟨rfl, -⟩
  · exact ⟨busyCalls.take 5, [], rfl, nofun⟩
  · refine ⟨busyCalls.take 3, busyCalls.drop 4, rfl, ?_⟩
    simp [busyCalls]
  · exact ⟨busyCalls.take 5, [], rfl, nofun⟩

/-- Both bytes are counted up as often as was asked, whatever the worker has done meanwhile. -/
theorem twoBytes_saved :
    Bank [Vault.strongbox, secondBox] ⟨0⟩ twoBytes ∧
      busyEvents.filter WorkEvent.isCall = busyCalls ∧ Followed busyCalls ∧
      ((twoBytes.afterWork ⟨0⟩ .tryRelease busyEvents).root? ⟨0⟩).bind Root.queue? = some .empty ∧
      Vault.strongbox.Secured .tryRelease twoBytes
        (twoBytes.afterWork ⟨0⟩ .tryRelease busyEvents) ∧
      (twoBytes.afterWork ⟨0⟩ .tryRelease busyEvents).held? ⟨0⟩ =
        (twoBytes.afterWork ⟨0⟩ .tryRelease busyCalls).held? ⟨0⟩ ∧
      (twoBytes.afterWork ⟨0⟩ .tryRelease busyEvents).held? ⟨0⟩ =
        some (.single .u8 (3 : UInt8)) := by
  have placed : busyEvents.filter WorkEvent.isCall = busyCalls := rfl
  have on : ∀ e ∈ busyCalls, e.On [Vault.strongbox, secondBox] := by
    intro e mem
    simp only [busyCalls, List.mem_cons, List.not_mem_nil, or_false] at mem
    rcases mem with rfl | rfl | rfl | rfl | rfl | rfl
    · exact ⟨_, List.mem_cons_self, rfl⟩
    · exact ⟨_, List.mem_cons_self, rfl⟩
    · exact ⟨_, List.mem_cons_of_mem _ List.mem_cons_self, rfl⟩
    · exact ⟨_, List.mem_cons_of_mem _ List.mem_cons_self, rfl⟩
    · exact ⟨_, List.mem_cons_self, rfl⟩
    · exact ⟨_, List.mem_cons_self, rfl⟩
  have finds : ∀ vault ∈ [Vault.strongbox, secondBox], ∀ store,
      twoBytes.stores[vault.store.index]? = some store → store.Finds := by
    intro vault mem store found
    rcases List.mem_pair.mp mem with rfl | rfl
    all_goals
      cases found
      exact Store.finds_memory _
  obtain ⟨queue, secured, same⟩ := result_of_any_schedule twoBytes_bank rfl .tryRelease placed on
    busyCalls_followed
  obtain ⟨values, -⟩ := same finds
  refine ⟨twoBytes_bank, placed, busyCalls_followed, queue, ?_, ?_, ?_⟩
  · exact secured _ List.mem_cons_self (List.mem_cons_of_mem _ List.mem_cons_self)
  · exact (values _ List.mem_cons_self).1
  · apply Vault.held?_of_byte?
    decide +kernel

end Bytes

section Failing

theorem later_failing {s : Store} (later : Vault.failingOnce.Later s) :
    ∃ store : ScriptedStore, s = .scripted store ∧ store.persists = [] := by
  induction later with
  | here => exact ⟨_, rfl, rfl⟩
  | persist _ id bytes ih =>
    obtain ⟨store, rfl, none⟩ := ih
    obtain ⟨memory, persists, forgets, loads⟩ := store
    cases none
    exact ⟨_, rfl, rfl⟩
  | load _ id ih =>
    obtain ⟨store, rfl, none⟩ := ih
    obtain ⟨memory, persists, forgets, loads⟩ := store
    cases none
    rcases loads with _ | ⟨_ | _ | _, loads⟩ <;> exact ⟨_, rfl, rfl⟩

theorem failingOnce_accepts : Vault.failingOnce.Accepts := by
  intro s later id bytes
  obtain ⟨⟨memory, persists, forgets, loads⟩, rfl, none⟩ := later_failing later
  cases none
  exact ⟨_, rfl⟩

theorem strongroom_bank : Bank [Vault.strongbox] ⟨0⟩ (Vault.strongroom Vault.failingOnce) where
  distinct := List.nodup_singleton _
  idle := by
    intro vault mem
    cases List.mem_singleton.mp mem
    exact ⟨rfl, rfl, rfl, rfl, undoes_uint8 _, _, rfl, failingOnce_accepts⟩

/-- A pass between two changes. -/
def brokenEvents : List (WorkEvent ValueType) :=
  [.update ⟨0⟩ countUp, .schedule ⟨0⟩, .tick, .tick, .tick, .update ⟨0⟩ countUp, .schedule ⟨0⟩]

def brokenCalls : List (WorkEvent ValueType) :=
  [.update ⟨0⟩ countUp, .schedule ⟨0⟩, .update ⟨0⟩ countUp, .schedule ⟨0⟩]

/-- The store accepts every write. But the pass releases the value, and the store fails to give it
back for the second change, which is lost; with the last pass alone it is not. -/
theorem schedule_matters_to_failing_store :
    Bank [Vault.strongbox] ⟨0⟩ (Vault.strongroom Vault.failingOnce) ∧
      (Vault.strongroom Vault.failingOnce).root? ⟨0⟩ =
        some (.journal { config := .forTesting } .empty) ∧
      brokenEvents.filter WorkEvent.isCall = brokenCalls ∧ Followed brokenCalls ∧
      ((Vault.strongroom Vault.failingOnce).afterWork ⟨0⟩ .forceRelease brokenEvents).held? ⟨0⟩ =
        some (.single .u8 (2 : UInt8)) ∧
      ((Vault.strongroom Vault.failingOnce).afterWork ⟨0⟩ .forceRelease brokenCalls).held? ⟨0⟩ =
        some (.single .u8 (3 : UInt8)) := by
  refine ⟨strongroom_bank, rfl, rfl, ?_, ?_, ?_⟩
  · intro n change mem
    simp only [brokenCalls, List.mem_cons, WorkEvent.update.injEq, reduceCtorEq, List.not_mem_nil,
      or_false, false_or] at mem
    rcases mem with ⟨rfl, -⟩ | ⟨rfl, -⟩
    all_goals exact ⟨brokenCalls.take 3, [], rfl, nofun⟩
  · apply Vault.held?_of_byte?
    decide +kernel
  · apply Vault.held?_of_byte?
    decide +kernel

end Failing

end GraphJournal
