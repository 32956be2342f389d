import GraphJournal.Graph.Apply
import GraphJournal.Proofs.Recording

/-!
# Revisions

Calls that change what a node holds and record the change, whatever the hooks on the way write. Such
a call fails and changes nothing, or it succeeds; then the new value is in place, and the journal has
grown by the one entry that ends with it, or the outcome says that it has not. If the hooks only add
to what they are handed, that entry is a record; a hook can also overwrite the header.

Saves and erasures record nothing and are NOT among these calls.
-/
namespace GraphJournal

set_option autoImplicit false

open MessagePack

variable {κ : Type} [Values κ]

/-- What a call changes: what its record says, and what the node holds then. -/
structure Revision (κ : Type) [Values κ] where
  op : Marker
  text : Layout → Encoded
  next : Holding κ

/-- A node of this shape holds a single value. -/
def Shape.IsSingle (shape : Option (Shape κ)) : Prop :=
  (∃ kind, shape = some (.value kind)) ∨
    ∃ kind id config lock s, shape = some (.persistent kind id config lock s)

inductive NodeCall (κ : Type) [Values κ]
  | number (change : UInt64 → UInt64)
  | set (item : Item κ)
  | update (change : Change κ)
  /-- The change is recorded as one of another node. -/
  | updateFor (recorder : NodeRef) (change : Change κ)
  | push (item : Item κ)
  | removeAt (index : UInt64)
  | replaceAll (items : Items κ)

namespace NodeCall

/-- The call where the nodes have these hooks. -/
def runBy (hooks : Graph κ → Hooks) : NodeCall κ → NodeRef → GraphM κ RecordOutcome
  | number change, n => Graph.updateNumberBy hooks n change
  | set item, n => Graph.updateForBy hooks n n fun kind _ => item kind
  | update change, n => Graph.updateForBy hooks n n change
  | updateFor recorder change, n => Graph.updateForBy hooks recorder n change
  | push item, n => Graph.pushBy hooks n item
  | removeAt index, n => (·.2) <$> Graph.removeAtBy hooks n index
  | replaceAll items, n => Graph.replaceAllBy hooks n items

/-- The call of this library. -/
def run (call : NodeCall κ) (n : NodeRef) : GraphM κ RecordOutcome := call.runBy Graph.ownHooks n

/-- The node whose address stands in the record. -/
def recorder : NodeCall κ → NodeRef → NodeRef
  | updateFor recorder _, _ => recorder
  | _, n => n

/-- What the call makes of what a node holds, unless there is nothing at the place it names. -/
def revise? : NodeCall κ → Holding κ → Option (Revision κ)
  | number change, .number value =>
    some ⟨.value, (Codec.uint64.encode · (change value)), .number (change value)⟩
  | set item, .single kind _ =>
    some ⟨.value, ((Values.codec kind).encode · (item kind)), .single kind (item kind)⟩
  | update change, .single kind value | updateFor _ change, .single kind value =>
    some ⟨.value, ((Values.codec kind).encode · (change kind value)),
      .single kind (change kind value)⟩
  | push item, .list kind items =>
    some ⟨.addItem, ((Values.codec kind).encode · (item kind)), .list kind (items ++ [item kind])⟩
  | removeAt index, .list kind items =>
    if index.toNat < items.length then
      some ⟨.deleteItem, (Codec.uint64.encode · index), .list kind (items.eraseIdx index.toNat)⟩
    else none
  | replaceAll items, .list kind _ =>
    some ⟨.value, ((Codec.list (Values.codec kind)).encode · (items kind)), .list kind (items kind)⟩
  | _, _ => none

/-- The call is one for nodes of this shape. -/
def Fits : NodeCall κ → Option (Shape κ) → Prop
  | number _, shape => ∃ b, shape = some (.branch b)
  | set _, shape | update _, shape | updateFor _ _, shape => Shape.IsSingle shape
  | push _, shape | removeAt _, shape | replaceAll _, shape => ∃ kind, shape = some (.list kind)

end NodeCall

namespace Graph

/-- Two graphs with the same nodes, of which the same can be said but for what is in memory. -/
structure Alike (g g' : Graph κ) : Prop where
  skeleton : g'.skeleton = g.skeleton
  stores : ∀ s : StoreRef,
    g'.stores[s.index]?.map LawfulStore.kept = g.stores[s.index]?.map LawfulStore.kept
  held : ∀ m, g'.held? m = g.held? m

/-- The roots have the same entries and numbers. -/
def SameLedgers (g g' : Graph κ) : Prop :=
  ∀ r, (g'.root? r).map Root.ledger = (g.root? r).map Root.ledger

/-- One entry about a node has been appended to the journal of its root, and none elsewhere. It is what
the hooks wrote, then the marker and the new value; if the hooks only add, it is a record. -/
inductive Appended (hooks : Graph κ → Hooks) (g : Graph κ) (n : NodeRef) (rev : Revision κ) :
    RecordOutcome → Graph κ → Prop
  | intro {location : Location} {root : Root} {front : Draft} {f : Frame} {g₁ g' : Graph κ}
      (place : g.locateRoot? n = some (location, root)) (alike : Alike g g₁)
      (written : (hooks g₁).front (location.steps n true) n none (.begin .record) = .ok () front)
      (added : (hooks g₁).Appending → ∃ bytes, front = .record bytes)
      (whole : (rev.text root.layout).fault? = none) (kind : f.kindByte = front.kindByte)
      (payload : f.payload = front.payload ++ rev.op.byte :: (rev.text root.layout).bytes)
      (now : g'.root? location.root = some (root.grow f))
      (others : ∀ r, r ≠ location.root → g'.root? r = g.root? r) :
      Appended hooks g n rev (.committed (root.sequence f)) g'

/-- The ways in which a call that changes a node can end. -/
inductive Changed (hooks : Graph κ → Hooks) (g : Graph κ) (n : NodeRef) (call : NodeCall κ) :
    EStateM.Result Error (Graph κ) RecordOutcome → Prop
  | failed {e : Error} {g' : Graph κ} (alike : Alike g g') (ledgers : SameLedgers g g') :
      Changed hooks g n call (.error e g')
  | done {outcome : RecordOutcome} {g' : Graph κ} {holding : Holding κ} {rev : Revision κ}
      (was : g.held? n = some holding) (revised : call.revise? holding = some rev)
      (now : g'.held? n = some rev.next) (others : ∀ m, m ≠ n → g'.held? m = g.held? m)
      (skeleton : g'.skeleton = g.skeleton)
      (stores : ∀ s : StoreRef,
        g'.stores[s.index]?.map LawfulStore.kept = g.stores[s.index]?.map LawfulStore.kept)
      (appended : outcome.isCommitted = true →
        Appended hooks g (call.recorder n) rev outcome g')
      (missed : outcome.isCommitted = false → SameLedgers g g') :
      Changed hooks g n call (.ok outcome g')

theorem Alike.refl (g : Graph κ) : Alike g g := ⟨rfl, fun _ => rfl, fun _ => rfl⟩

theorem Alike.trans {g₁ g₂ g₃ : Graph κ} (first : Alike g₁ g₂) (second : Alike g₂ g₃) :
    Alike g₁ g₃ := by
  constructor
  · rw [second.skeleton, first.skeleton]
  · intro s
    rw [second.stores, first.stores]
  · intro m
    rw [second.held, first.held]

theorem Quiet.alike {g g' : Graph κ} (quiet : Quiet g g') : Alike g g' :=
  ⟨skeleton_of_nodes quiet.nodes, fun s => by rw [quiet.stores], quiet.held?⟩

/-- With the hooks that branches choose, the entry is a record put together from its parts. -/
theorem Appended.of_branches {g g' : Graph κ} {n : NodeRef} {rev : Revision κ}
    {outcome : RecordOutcome} (appended : Appended ownHooks g n rev outcome g') :
    ∃ location root address ahead, ∃ f : Frame,
      g.locateRoot? n = some (location, root) ∧ g.address n location true = .ok address ∧
      g.recordPrefix n = .ok ahead ∧ (rev.text root.layout).fault? = none ∧
      f.kindByte = EntryKind.record.byte ∧
      f.payload = recordPayload address ahead rev.op (rev.text root.layout).bytes ∧
      g'.root? location.root = some (root.grow f) := by
  cases appended with
  | @intro location root front f g₁ _ place alike written added whole kind payload now others =>
    rw [ownHooks_congr alike.skeleton] at written
    obtain ⟨address, ahead, steps, prefixed, rfl⟩ := front_ownHooks_iff.mp written
    refine ⟨location, root, address, ahead, f, place, steps, prefixed, whole, kind, ?_, now⟩
    simpa [recordPayload] using payload

section Reloading
variable {g : Graph κ} {n : NodeRef} {kind : κ} {cell : Cell (Values.Carrier kind)} {s : StoreRef}
  {store : Store}

/-- Bringing a value back, or trying to, changes nothing that can be said of the graph. -/
theorem alike_putCell (there : g.content? n = some (.persistent kind cell s))
    (found : g.stores[s.index]? = some store) {now : Cell (Values.Carrier kind) × Store}
    (same : LawfulStore.Unchanged store now.2) (framed : Cell.Framed (cell, store) now)
    (logical : Cell.logical? (Values.codec kind) now =
      Cell.logical? (Values.codec kind) (cell, store)) :
    Alike g (g.putCell n kind s now) := by
  refine ⟨skeleton_putCell g there framed, kept_putCell g found same.kept, ?_⟩
  intro m
  by_cases here : m = n
  · rw [here, held?_putCell_self g there found, logical]
    simp only [held?, there, Option.bind_some, holding?, found]
  · exact held?_putCell_other g here found fun _ _ _ => by rw [same.kept]

/-- The ways in which the value of a persistent node can be brought back for a writer. -/
inductive Brought (g : Graph κ) (n : NodeRef) (kind : κ) (cell : Cell (Values.Carrier kind))
    (s : StoreRef) : EStateM.Result Error (Graph κ) (Values.Carrier kind) → Prop
  | here {value : Values.Carrier kind} {store store' : Store}
      (found : g.stores[s.index]? = some store)
      (was : Cell.logical? (Values.codec kind) (cell, store) = some value)
      (alike : Alike g (g.putCell n kind s ({ cell with state := .resident value }, store'))) :
      Brought g n kind cell s
        (.ok value (g.putCell n kind s ({ cell with state := .resident value }, store')))
  | failed {e : Error} {g₁ : Graph κ} (alike : Alike g g₁) (roots : g₁.roots = g.roots) :
      Brought g n kind cell s (.error e g₁)

theorem brought_result (there : g.content? n = some (.persistent kind cell s)) :
    Brought g n kind cell s
      (withCell n kind cell s (Cell.beginWrite (Values.codec kind)) g) := by
  cases found : g.stores[s.index]? with
  | none =>
    simp only [withCell, found]
    exact .failed (Alike.refl g) rfl
  | some store =>
    have answer := Cell.beginWrite_result (Values.codec kind) cell store
    rw [withCell_eq g found]
    generalize Cell.beginWrite (Values.codec kind) (cell, store) = result at answer
    cases answer with
    | here was same =>
      refine .here found was (alike_putCell there found same (Cell.Framed.of_unchanged same _) ?_)
      rw [was]
      rfl
    | failed why same =>
      refine .failed ?_ (roots_putCell g _)
      exact alike_putCell there found same (Cell.Framed.of_unchanged same cell.state)
        (Cell.logical?_of_unchanged same)

end Reloading

theorem locateRoot?_congr {g g₁ : Graph κ} (skeleton : g₁.skeleton = g.skeleton)
    (roots : g₁.roots = g.roots) (n : NodeRef) : g₁.locateRoot? n = g.locateRoot? n := by
  have same := root?_of_roots roots
  have place : g₁.locate? n = g.locate? n :=
    locate?_congr skeleton (fun r => by rw [same]) n
  simp only [locateRoot?, place, same]

section Finish
variable {hooks : Graph κ → Hooks} {g g₁ : Graph κ} {n : NodeRef} {call : NodeCall κ}
  {holding : Holding κ} {rev : Revision κ} {old new : Content κ}

/-- What is left when new content is put in place after the recording has not failed. -/
def thenSet (n : NodeRef) (new : Content κ) :
    EStateM.Result Error (Graph κ) RecordOutcome → EStateM.Result Error (Graph κ) RecordOutcome
  | .ok outcome g => .ok outcome (g.setContent n new)
  | .error e g => .error e g

theorem thenSet_apply (act : GraphM κ RecordOutcome) (n : NodeRef) (new : Content κ) (g : Graph κ) :
    thenSet n new (act g) =
      (do
        let outcome ← act
        modify fun g : Graph κ => g.setContent n new
        return outcome) g := by
  rw [Run.bind_apply]
  cases act g <;> rfl

/-- What is recorded is then put in place; what could not be recorded is not. -/
theorem changed_of_recorded (alike : Alike g g₁) (roots : g₁.roots = g.roots)
    (was : g.held? n = some holding) (revised : call.revise? holding = some rev)
    (content : g₁.content? n = some old) (shape : new.shape = old.shape)
    (next : g₁.holding? new = some rev.next)
    {result : EStateM.Result Error (Graph κ) RecordOutcome}
    (recorded : Recorded (hooks g₁) g₁ (call.recorder n) rev.op rev.text result) :
    Changed hooks g n call (thenSet n new result) := by
  -- What is the same of `g` once the graph that the journal leaves has the nodes and stores of `g₁`.
  have installed (g₂ : Graph κ) (nodes : g₂.nodes = g₁.nodes) (stores : g₂.stores = g₁.stores) :
      (g₂.setContent n new).held? n = some rev.next ∧
        (∀ m, m ≠ n → (g₂.setContent n new).held? m = g.held? m) ∧
        (g₂.setContent n new).skeleton = g.skeleton ∧
        ∀ s : StoreRef, (g₂.setContent n new).stores[s.index]?.map LawfulStore.kept =
          g.stores[s.index]?.map LawfulStore.kept := by
    have content₂ : g₂.content? n = some old := by rw [content?_of_nodes nodes, content]
    refine ⟨held?_setContent_self content₂ (by rw [holding?_of_stores stores, next]), ?_, ?_, ?_⟩
    · intro m apart
      rw [held?_setContent_other apart, held?_of_eq (content?_of_nodes nodes m) stores, alike.held]
    · rw [skeleton_setContent g₂ n content₂ shape, skeleton_of_nodes nodes, alike.skeleton]
    · intro s
      rw [stores_setContent, stores, alike.stores]
  have ledgers (g₂ : Graph κ) (quiet : Quiet g₁ g₂) : SameLedgers g g₂ := by
    intro r
    rw [quiet.ledgers, root?_of_roots roots]
  cases recorded with
  | failed quiet => exact .failed (alike.trans quiet.alike) (ledgers _ quiet)
  | @missed outcome g₂ missed quiet =>
    obtain ⟨now, others, skeleton, stores⟩ := installed g₂ quiet.nodes quiet.stores
    refine .done was revised now others skeleton stores ?_ ?_
    · intro committed
      rw [missed] at committed
      cases committed
    · intro _ r
      rw [root?_of_roots (roots_setContent g₂ n new)]
      exact ledgers g₂ quiet r
  | @appended location root front f place written whole kind payload =>
    obtain ⟨now, others, skeleton, stores⟩ :=
      installed (g₁.setRoot location.root (root.grow f)) (nodes_setRoot _ _ _) (stores_setRoot _ _ _)
    refine .done was revised now others skeleton stores ?_ ?_
    · intro _
      have live := (root?_of_locateRoot? place).2
      rw [locateRoot?_congr alike.skeleton roots] at place
      refine .intro place alike written (fun appending => appending.front written) whole kind payload
        ?_ ?_
      · rw [root?_of_roots (roots_setContent _ n new), root?_setRoot, if_pos rfl, live]
        rfl
      · intro r apart
        rw [root?_of_roots (roots_setContent _ n new), root?_setRoot, if_neg apart,
          root?_of_roots roots]
    · intro missed
      cases missed

end Finish

section Calls
variable {hooks : Graph κ → Hooks} (sound : ∀ g, (hooks g).Sound) {g : Graph κ} {n : NodeRef}

theorem install_eq {kind : κ} {cell : Cell (Values.Carrier kind)} {s : StoreRef}
    (content : g.content? n = some (.persistent kind cell s)) (value : Values.Carrier kind) :
    install n kind value g =
      .ok () (g.setContent n (.persistent kind { cell with state := .resident value } s)) := by
  simp only [install, Run.modify_apply, content]

include sound

/-- A change that is recorded and then made, in memory, is all that the call does. -/
theorem changed_of_value {α : Type} {call : NodeCall κ} {holding : Holding κ} {op : Marker}
    {c : Codec α} {a : α} {old new : Content κ} {next : Holding κ}
    (content : g.content? n = some old) (shape : new.shape = old.shape)
    (was : g.held? n = some holding)
    (revised : call.revise? holding = some ⟨op, (c.encode · a), next⟩)
    (now : g.holding? new = some next) :
    Changed hooks g n call
      (thenSet n new (journalBy hooks (call.recorder n) op true none (Draft.value c · a) g)) :=
  changed_of_recorded (Alike.refl g) rfl was revised content shape now
    (journalWith_result (sound g) g (call.recorder n) op c a)

section Update
variable {call : NodeCall κ} {change : Change κ} {kind : κ}
  (revise : ∀ kind value, call.revise? (.single kind value) =
    some ⟨.value, ((Values.codec kind).encode · (change kind value)),
      .single kind (change kind value)⟩)
include revise

theorem updateForBy_value {value : Values.Carrier kind}
    (content : g.content? n = some (.value kind value)) :
    Changed hooks g n call (updateForBy hooks (call.recorder n) n change g) := by
  have was : g.held? n = some (.single kind value) := by
    simp only [held?, content, Option.bind_some, holding?]
  have whole := changed_of_value sound content
    (rfl : (Content.value kind (change kind value)).shape = _) was (revise kind value) rfl
  rw [thenSet_apply] at whole
  simpa only [updateForBy, Run.bind_apply, Run.get_apply, content] using whole

/-- The value is brought back before it is changed, which is no change of what the node holds. -/
theorem updateForBy_persistent {cell : Cell (Values.Carrier kind)} {s : StoreRef}
    (content : g.content? n = some (.persistent kind cell s)) :
    Changed hooks g n call (updateForBy hooks (call.recorder n) n change g) := by
  have brought := brought_result content
  unfold updateForBy
  simp only [Run.bind_apply, Run.get_apply, content]
  generalize withCell n kind cell s _ g = result at brought
  cases brought with
  | failed alike roots => exact .failed alike fun r => by rw [root?_of_roots roots]
  | @here value store store' found was alike =>
    have held : g.held? n = some (.single kind value) := by
      simp only [held?, content, Option.bind_some, holding?, found, was, Option.map_some]
    have content₁ := content?_putCell_self g content ({ cell with state := .resident value }, store')
    have roots : (g.putCell n kind s ({ cell with state := .resident value }, store')).roots =
        g.roots := roots_putCell g _
    have next : (g.putCell n kind s ({ cell with state := .resident value }, store')).holding?
        (.persistent kind { cell with state := .resident (change kind value) } s) =
          some (.single kind (change kind value)) := by
      simp only [holding?, store_putCell_self g found, Option.bind_some, Cell.logical?,
        Option.map_some]
    generalize g.putCell n kind s ({ cell with state := .resident value }, store') = g₁
      at alike content₁ next roots ⊢
    have recorded := journalWith_result (sound g₁) g₁ (call.recorder n) .value (Values.codec kind)
      (change kind value)
    have shape : (Content.persistent kind { cell with state := .resident (change kind value) }
        s).shape = (Content.persistent kind { cell with state := .resident value } s).shape := rfl
    have whole := changed_of_recorded alike roots held (revise kind value) content₁ shape next
      recorded
    simp only [journalBy]
    cases result : journalWith (hooks g₁) (call.recorder n) .value true none
        (Draft.value (Values.codec kind) · (change kind value)) g₁ with
    | error e g₂ =>
      rw [result] at whole
      exact whole
    | ok outcome g₂ =>
      rw [result] at whole recorded
      have content₂ := content?_of_nodes recorded.nodes n
      rw [content₁] at content₂
      simp only [install_eq content₂]
      exact whole

theorem updateForBy_changed (fits : Shape.IsSingle (g.shape? n)) :
    Changed hooks g n call (updateForBy hooks (call.recorder n) n change g) := by
  rcases content : g.content? n with _ | b | ⟨kind, value⟩ | ⟨kind, items⟩ | ⟨kind, cell, s⟩
  · simp [Shape.IsSingle, shape?, content] at fits
  · simp [Shape.IsSingle, shape?, content, Content.shape] at fits
  · exact updateForBy_value sound revise content
  · simp [Shape.IsSingle, shape?, content, Content.shape] at fits
  · exact updateForBy_persistent sound revise content

end Update

theorem updateNumberBy_changed {change : UInt64 → UInt64} {b : Branch}
    (content : g.content? n = some (.branch b)) :
    Changed hooks g n (.number change) (updateNumberBy hooks n change g) := by
  have was : g.held? n = some (.number b.value) := by
    simp only [held?, content, Option.bind_some, holding?]
  have whole : Changed hooks g n (.number change) (thenSet n _ (journalBy hooks n _ _ _ _ g)) :=
    changed_of_value sound content
      (rfl : (Content.branch { b with value := change b.value }).shape = _) was rfl rfl
  rw [thenSet_apply] at whole
  simpa only [updateNumberBy, Run.bind_apply, Run.get_apply, content] using whole

section Lists
variable {kind : κ} {items : List (Values.Carrier kind)}
  (content : g.content? n = some (.list kind items))
include content

theorem changed_of_list {call : NodeCall κ} {op : Marker} {α : Type} {c : Codec α} {a : α}
    {items' : List (Values.Carrier kind)} (own : call.recorder n = n)
    (revised : call.revise? (.list kind items) = some ⟨op, (c.encode · a), .list kind items'⟩) :
    Changed hooks g n call
      (thenSet n (.list kind items') (journalBy hooks n op true none (Draft.value c · a) g)) := by
  have was : g.held? n = some (.list kind items) := by
    simp only [held?, content, Option.bind_some, holding?]
  have whole := changed_of_value sound content (rfl : (Content.list kind items').shape = _) was
    revised rfl
  rwa [own] at whole

theorem pushBy_changed (item : Item κ) :
    Changed hooks g n (.push item) (pushBy hooks n item g) := by
  have whole : Changed hooks g n (.push item) (thenSet n _ _) :=
    changed_of_list sound content rfl rfl
  rw [thenSet_apply] at whole
  simpa only [pushBy, Run.bind_apply, Run.get_apply, content] using whole

theorem replaceAllBy_changed (items' : Items κ) :
    Changed hooks g n (.replaceAll items') (replaceAllBy hooks n items' g) := by
  have whole : Changed hooks g n (.replaceAll items') (thenSet n _ _) :=
    changed_of_list sound content rfl rfl
  rw [thenSet_apply] at whole
  simpa only [replaceAllBy, Run.bind_apply, Run.get_apply, content] using whole

theorem removeAtBy_changed (index : UInt64) :
    Changed hooks g n (.removeAt index) ((NodeCall.removeAt index).runBy hooks n g) := by
  simp only [NodeCall.runBy, removeAtBy, Run.map_apply, Run.bind_apply, Run.get_apply, content]
  cases there : items[index.toNat]? with
  | none => exact .failed (Alike.refl g) fun _ => rfl
  | some item =>
    have bound := (List.getElem?_eq_some_iff.mp there).1
    have whole : Changed hooks g n (.removeAt index) (thenSet n _ _) :=
      changed_of_list sound content rfl (if_pos bound)
    simp only [Run.bind_apply]
    generalize journalBy _ _ _ _ _ _ g = result at whole ⊢
    cases result <;> exact whole

end Lists

omit sound

theorem exists_list {kind : κ} (shape : g.shape? n = some (.list kind)) :
    ∃ items, g.content? n = some (.list kind items) := by
  obtain ⟨content, found, equal⟩ := Option.map_eq_some_iff.mp shape
  cases content <;> cases equal
  exact ⟨_, found⟩

theorem exists_branch {b : Branch} (shape : g.shape? n = some (.branch b)) :
    ∃ number, g.content? n = some (.branch { b with value := number }) := by
  obtain ⟨content, found, equal⟩ := Option.map_eq_some_iff.mp shape
  cases content <;> cases equal
  exact ⟨_, found⟩

end Calls

/-- Every call that changes a node, on every graph, with whatever hooks and wherever it fails. -/
theorem call_all_or_nothing (hooks : Graph κ → Hooks) (sound : ∀ g, (hooks g).Sound)
    (call : NodeCall κ) (n : NodeRef) (g : Graph κ) (fits : call.Fits (g.shape? n)) :
    Changed hooks g n call (call.runBy hooks n g) := by
  cases call with
  | number change =>
    obtain ⟨b, shape⟩ := fits
    obtain ⟨number, content⟩ := exists_branch shape
    exact updateNumberBy_changed sound content
  | set item => exact updateForBy_changed sound (fun _ _ => rfl) fits
  | update change => exact updateForBy_changed sound (fun _ _ => rfl) fits
  | updateFor recorder change => exact updateForBy_changed sound (fun _ _ => rfl) fits
  | push item =>
    obtain ⟨kind, shape⟩ := fits
    obtain ⟨items, content⟩ := exists_list shape
    exact pushBy_changed sound content item
  | removeAt index =>
    obtain ⟨kind, shape⟩ := fits
    obtain ⟨items, content⟩ := exists_list shape
    exact removeAtBy_changed sound content index
  | replaceAll items =>
    obtain ⟨kind, shape⟩ := fits
    obtain ⟨items', content⟩ := exists_list shape
    exact replaceAllBy_changed sound content items

/-- Overwrites the byte of the entry's kind. -/
def stamp : DraftM Unit := Draft.onWriter fun w =>
  match w.patch lengthFieldSize [EntryKind.startingPoint.byte] with
  | .ok writer => .ok () writer
  | .error e => .error e w

def stamping : Graph κ → Hooks := fun _ => ⟨fun _ => pure (), fun _ => stamp⟩

theorem writes_stamp : Draft.Writes stamp := by
  intro d begun
  simp only [stamp, Draft.onWriter]
  cases patched : d.writer.patch lengthFieldSize [EntryKind.startingPoint.byte] with
  | ok writer => exact begun.patch patched
  | error e => exact begun

theorem sound_stamping (g : Graph κ) : (stamping g).Sound :=
  ⟨fun _ => Draft.writes_pure, fun _ => writes_stamp⟩

/-- A single byte on top of a journal. -/
def perch (config : JournalConfig) : Graph ValueType where
  nodes := #[some { content := .value .u8 (1 : UInt8), links := { root := some ⟨0⟩ } }]
  roots := #[some (.journal { config } .empty)]

/-- There is room for no entry of more than five bytes. -/
def cramped : JournalConfig := { maxEntrySize := 5, strict := true }

def zero : Item ValueType := fun kind => (Values.codec kind).default

def setCramped : Except Error RecordOutcome × Graph ValueType :=
  Run.answered ((NodeCall.set zero).runBy stamping ⟨0⟩ (perch cramped))

/-- The hook has had its turn when the entry turns out too large, and nothing is left of it. -/
theorem cramped_set :
    (∀ g : Graph ValueType, (stamping g).Sound) ∧
      (NodeCall.set zero).Fits ((perch cramped).shape? ⟨0⟩) ∧
      setCramped.1 = .error (.entryTooLarge 6 5) ∧
      setCramped.2.held? ⟨0⟩ = (perch cramped).held? ⟨0⟩ ∧
      SameLedgers (perch cramped) setCramped.2 := by
  have fits : (NodeCall.set zero).Fits ((perch cramped).shape? ⟨0⟩) := Or.inl ⟨.u8, rfl⟩
  have answer : setCramped.1 = .error (.entryTooLarge 6 5) := by rfl
  have changed := call_all_or_nothing stamping sound_stamping (.set zero) ⟨0⟩ (perch cramped) fits
  refine ⟨sound_stamping, fits, answer, ?_⟩
  unfold setCramped at answer ⊢
  cases run : (NodeCall.set zero).runBy stamping ⟨0⟩ (perch cramped) with
  | ok outcome g' =>
    rw [run] at answer
    cases answer
  | error e g' =>
    rw [run] at changed
    cases changed with
    | failed alike ledgers => exact ⟨alike.held ⟨0⟩, ledgers⟩

/-- A byte under a branch whose step of an address is the marker of a value and a five. -/
def babble : Graph ValueType where
  nodes := #[
    some {
      content := .branch { address := .raw [2, 5], keyed := OrderedMap.empty.insert 4 ⟨1⟩ }
      links := { root := some ⟨0⟩ } },
    some {
      content := .value .u8 (1 : UInt8)
      links := { parent := some ⟨0⟩, root := some ⟨0⟩, key := 4 } }]
  roots := #[some (.journal { config := {} } .empty)]

def babbled : Frame := ⟨EntryKind.record.byte, [2, 5, 1, 4, 2, 0], by decide⟩

def setStamped : Except Error RecordOutcome × Graph ValueType :=
  Run.answered ((NodeCall.set zero).runBy stamping ⟨0⟩ (perch {}))

def setBabbled : Except Error RecordOutcome × Graph ValueType :=
  Run.answered ((NodeCall.set zero).run ⟨1⟩ babble)

/-- What the branch that babbles makes of its own record. -/
def heard : Verdict × Graph ValueType :=
  applyRecord ⟨0⟩ (.ofBytes babbled.payload entryHeaderSize) babble

/-- A hook that overwrites the header makes the entry one of another kind, and a hook that writes what
is no step of an address makes it the record of another node. -/
theorem hooks_spoil_record :
    ((∀ g : Graph ValueType, (stamping g).Sound) ∧ setStamped.1.toOption = some (.committed 6) ∧
      ∀ f : Frame, (setStamped.2.root? ⟨0⟩).map Root.data = some f.bytes →
        f.kindByte ≠ EntryKind.record.byte) ∧
    setBabbled.1.toOption = some (.committed 10) ∧
      (setBabbled.2.root? ⟨0⟩).map Root.data = some babbled.bytes ∧
      heard.1 = .applied ∧ heard.2.held? ⟨0⟩ = some (.number 5) ∧
      heard.2.held? ⟨1⟩ = babble.held? ⟨1⟩ := by
  have heard_eq : heard = applyNumber ⟨0⟩ { address := .raw [2, 5], keyed := .insert .empty 4 ⟨1⟩ }
      (.ofBytes [5, 1, 4, 2, 0] 5) babble := by
    rw [heard, applyRecord]
    rfl
  refine ⟨⟨sound_stamping, rfl, ?_⟩, by decide +kernel, by decide +kernel, ?_⟩
  · have stamped : (setStamped.2.root? ⟨0⟩).map Root.data = some [0, 0, 3, 0, 2, 0] := by
      decide +kernel
    intro f bytes record
    rw [stamped] at bytes
    have fourth := congrArg (·[lengthFieldSize]?) (Option.some.inj bytes)
    have there : f.bytes[lengthFieldSize]? = some f.kindByte := by simp [Frame.bytes]
    rw [there, record] at fourth
    exact absurd fourth (by decide)
  · rw [heard_eq]
    exact ⟨rfl, rfl, rfl⟩

end Graph

end GraphJournal
