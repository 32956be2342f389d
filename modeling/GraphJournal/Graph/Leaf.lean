import GraphJournal.Graph.Record

/-!
Changing what nodes hold. A change is journaled first and made only if that was no error, so a node
and its journal never disagree about an operation that failed. What the hooks of the nodes write is an
argument of the changes; the library's own functions are the case of the hooks that branches choose.
-/
namespace GraphJournal

open MessagePack

structure Datum (κ : Type) [Values κ] where
  kind : κ
  value : Values.Carrier kind

namespace Graph

variable {κ : Type} [Values κ]

/-- Does something with a cell in its store, and puts both back in their places. -/
def withCell {β : Type} (n : NodeRef) (kind : κ) (cell : Cell (Values.Carrier kind)) (s : StoreRef)
    (act : CellM (Values.Carrier kind) Store β) : GraphM κ β := fun g =>
  match g.stores[s.index]? with
  | none => .error cell.notResident g
  | some store =>
    let put (cell : Cell (Values.Carrier kind)) (store : Store) : Graph κ :=
      { g with stores := g.stores.setIfInBounds s.index store }.setContent n (.persistent kind cell s)
    match act (cell, store) with
    | .ok b (cell, store) => .ok b (put cell store)
    | .error e (cell, store) => .error e (put cell store)

/-- Does something with the cell of a persistent node. Any other node has none, and answers as
`otherwise` says. -/
def onCell {β : Type} (n : NodeRef) (otherwise : β)
    (act : (kind : κ) → CellM (Values.Carrier kind) Store β) : GraphM κ β := do
  match (← get).content? n with
  | some (.persistent kind cell s) => withCell n kind cell s (act kind)
  | _ => return otherwise

/-- Puts a value in memory in place of the one that a node holds, if it is of the node's kind. -/
def install (n : NodeRef) (kind : κ) (value : Values.Carrier kind) : GraphM κ Unit :=
  modify fun g =>
    match g.content? n with
    | some (.value _ _) => g.setContent n (.value kind value)
    | some (.persistent _ cell s) =>
      g.setContent n (.persistent kind { cell with state := .resident value } s)
    | _ => g

section Hooked
variable (hooks : Graph κ → Hooks)

/-- Changes the number of a branch. Any other node is left alone. -/
def updateNumberBy (n : NodeRef) (change : UInt64 → UInt64) : GraphM κ RecordOutcome := do
  match (← get).content? n with
  | some (.branch b) =>
    let next := change b.value
    let outcome ← journalBy hooks n .value true none (Draft.value .uint64 · next)
    modify (·.setContent n (.branch { b with value := next }))
    return outcome
  | _ => return .unattached

/-- Changes the value of one node and records it under the address of another. A node that holds no
value is left alone. -/
def updateForBy (recorder n : NodeRef) (change : Change κ) : GraphM κ RecordOutcome := do
  match (← get).content? n with
  | some (.value kind value) =>
    let next := change kind value
    let outcome ← journalBy hooks recorder .value true none (Draft.value (Values.codec kind) · next)
    modify (·.setContent n (.value kind next))
    return outcome
  | some (.persistent kind cell s) =>
    let value ← withCell n kind cell s (Cell.beginWrite (Values.codec kind))
    let next := change kind value
    let outcome ← journalBy hooks recorder .value true none (Draft.value (Values.codec kind) · next)
    install n kind next
    return outcome
  | _ => return .unattached

def pushBy (n : NodeRef) (item : Item κ) : GraphM κ RecordOutcome := do
  match (← get).content? n with
  | some (.list kind items) =>
    let outcome ← journalBy hooks n .addItem true none (Draft.value (Values.codec kind) · (item kind))
    modify (·.setContent n (.list kind (items ++ [item kind])))
    return outcome
  | _ => return .unattached

/-- The key that an error shows for a place in a list. -/
def indexKey (index : UInt64) : UInt32 := UInt32.ofNat (min index.toNat 0xffffffff)

def removeAtBy (n : NodeRef) (index : UInt64) : GraphM κ (Datum κ × RecordOutcome) := do
  match (← get).content? n with
  | some (.list kind items) =>
    match items[index.toNat]? with
    | none => throw (.invalidKey (indexKey index))
    | some item =>
      let outcome ← journalBy hooks n .deleteItem true none (Draft.value .uint64 · index)
      modify (·.setContent n (.list kind (items.eraseIdx index.toNat)))
      return (⟨kind, item⟩, outcome)
  | _ => throw (.invalidKey (indexKey index))

def replaceAllBy (n : NodeRef) (items : Items κ) : GraphM κ RecordOutcome := do
  match (← get).content? n with
  | some (.list kind _) =>
    let outcome ← journalBy hooks n .value true none
      (Draft.value (.list (Values.codec kind)) · (items kind))
    modify (·.setContent n (.list kind (items kind)))
    return outcome
  | _ => return .unattached

end Hooked

def updateNumber (n : NodeRef) (change : UInt64 → UInt64) : GraphM κ RecordOutcome :=
  updateNumberBy ownHooks n change

def updateFor (recorder n : NodeRef) (change : Change κ) : GraphM κ RecordOutcome :=
  updateForBy ownHooks recorder n change

/-- Changes the value of a node. A node that holds no value is left alone. -/
def update (n : NodeRef) (change : Change κ) : GraphM κ RecordOutcome := updateFor n n change

def setValue (n : NodeRef) (item : Item κ) : GraphM κ RecordOutcome :=
  update n fun kind _ => item kind

def push (n : NodeRef) (item : Item κ) : GraphM κ RecordOutcome := pushBy ownHooks n item

def removeAt (n : NodeRef) (index : UInt64) : GraphM κ (Datum κ × RecordOutcome) :=
  removeAtBy ownHooks n index

def replaceAll (n : NodeRef) (items : Items κ) : GraphM κ RecordOutcome :=
  replaceAllBy ownHooks n items

/-- The value of a node, which is brought back to memory if it is released. -/
def readValue (n : NodeRef) : GraphM κ (Option (Datum κ)) := do
  match (← get).content? n with
  | some (.value kind value) => return some ⟨kind, value⟩
  | some (.persistent kind cell s) =>
    return some ⟨kind, ← withCell n kind cell s (Cell.read (Values.codec kind))⟩
  | _ => return none

end Graph

end GraphJournal
