import GraphJournal.Graph.Persistence
import GraphJournal.Proofs.CellHistory

/-!
# Skeletons and holdings

A graph falls into its skeleton, which says how its nodes are linked and what kinds of nodes they
are, and into what the nodes hold. Addresses depend on the skeleton alone. What a persistent node
holds is the logical value of its cell; whether that is in memory is NOT part of it.
-/
namespace GraphJournal

set_option autoImplicit false

open MessagePack

/-- What a node is, apart from the values in it and from where they are. -/
inductive Shape (κ : Type)
  | branch (branch : Branch)
  | value (kind : κ)
  | list (kind : κ)
  | persistent (kind : κ) (id : NodeId) (config : LifecycleConfig) (lock : LockState)
    (store : StoreRef)

inductive Holding (κ : Type) [Values κ]
  | number (value : UInt64)
  | single (kind : κ) (value : Values.Carrier kind)
  | list (kind : κ) (items : List (Values.Carrier kind))

namespace Content

variable {κ : Type} [Values κ]

def shape : Content κ → Shape κ
  | branch b => .branch { b with value := 0 }
  | value kind _ => .value kind
  | list kind _ => .list kind
  | persistent kind cell s => .persistent kind cell.id cell.config cell.lock s

end Content

namespace Graph

variable {κ : Type} [Values κ]

def shape? (g : Graph κ) (n : NodeRef) : Option (Shape κ) := (g.content? n).map Content.shape

def skeleton (g : Graph κ) (n : NodeRef) : Option (Shape κ × Links) :=
  (g.node? n).map fun node => (node.content.shape, node.links)

/-- What a node with the given content holds, if its store still has what it has released. -/
def holding? (g : Graph κ) : Content κ → Option (Holding κ)
  | .branch b => some (.number b.value)
  | .value kind value => some (.single kind value)
  | .list kind items => some (.list kind items)
  | .persistent kind cell s =>
    g.stores[s.index]?.bind fun store =>
      (Cell.logical? (Values.codec kind) (cell, store)).map (.single kind)

def held? (g : Graph κ) (n : NodeRef) : Option (Holding κ) := (g.content? n).bind g.holding?

theorem shape?_eq (g : Graph κ) (n : NodeRef) : g.shape? n = (g.skeleton n).map (·.1) := by
  simp only [shape?, content?, skeleton, Option.map_map]
  rfl

theorem links_eq (g : Graph κ) (n : NodeRef) :
    g.links n = ((g.skeleton n).map (·.2)).getD {} := by
  simp only [links, skeleton, Option.map_map]
  rfl

/-- What a node of some shape writes where it has no key. -/
def Shape.ownAddress : Option (Shape κ) → Except Error Bytes
  | some (.branch b) =>
    match b.address with
    | .nothing => .ok []
    | .locator address => .ok (Draft.locatorSegment address)
    | .raw bytes => .ok bytes
    | .unavailable => .error (.serialization (.unavailable "locator"))
  | _ => .ok []

/-- What a node of some shape writes ahead of the marker in its records. -/
def Shape.recordPrefix : Option (Shape κ) → Except Error Bytes
  | some (.branch b) =>
    if b.prefixFails then .error (.serialization (.unavailable "prefix")) else .ok b.recordPrefix
  | _ => .ok []

theorem ownAddress_eq (g : Graph κ) (n : NodeRef) :
    g.ownAddress n = Shape.ownAddress (g.shape? n) := by
  unfold ownAddress shape?
  rcases g.content? n with _ | _ | _ | _ | _ <;> rfl

theorem recordPrefix_eq (g : Graph κ) (n : NodeRef) :
    g.recordPrefix n = Shape.recordPrefix (g.shape? n) := by
  unfold recordPrefix shape?
  rcases g.content? n with _ | _ | _ | _ | _ <;> rfl

section SameSkeleton
variable {g g' : Graph κ} (same : g'.skeleton = g.skeleton)
include same

theorem shape?_congr (n : NodeRef) : g'.shape? n = g.shape? n := by
  rw [shape?_eq, shape?_eq, same]

theorem links_congr (n : NodeRef) : g'.links n = g.links n := by
  rw [links_eq, links_eq, same]

/-- Climbing looks at the links of nodes that are there. -/
theorem climb_congr (height : Nat) (links : Links) (below : List (NodeRef × Int32)) :
    g'.climb height links below = g.climb height links below := by
  induction height generalizing links below with
  | zero =>
    unfold climb
    cases links.parent <;> rfl
  | succ height ih =>
    unfold climb
    cases parent : links.parent with
    | none => rfl
    | some p =>
      have here := congrFun same p
      simp only [skeleton] at here
      dsimp only
      cases node : g.node? p with
      | none =>
        rw [node, Option.map_none, Option.map_eq_none_iff] at here
        rw [here]
      | some found =>
        rw [node] at here
        obtain ⟨found', node', equal⟩ := Option.map_eq_some_iff.mp here
        have links : found'.links = found.links := congrArg Prod.snd equal
        rw [node']
        simp only [links, ih]

theorem locate?_congr (alive : ∀ r, (g'.root? r).isSome = (g.root? r).isSome) (n : NodeRef) :
    g'.locate? n = g.locate? n := by
  simp only [locate?, links_congr same, climb_congr same, alive]

theorem ownAddress_congr (n : NodeRef) : g'.ownAddress n = g.ownAddress n := by
  rw [ownAddress_eq, ownAddress_eq, shape?_congr same]

theorem recordPrefix_congr (n : NodeRef) : g'.recordPrefix n = g.recordPrefix n := by
  rw [recordPrefix_eq, recordPrefix_eq, shape?_congr same]

theorem ownHooks_congr : g'.ownHooks = g.ownHooks := by
  simp only [ownHooks, ownAddress_congr same, recordPrefix_congr same]

end SameSkeleton

section Content
variable (g : Graph κ) (n : NodeRef)

theorem node?_setContent (m : NodeRef) (content : Content κ) :
    (g.setContent n content).node? m =
      if m = n then (g.node? m).map ({ · with content }) else g.node? m :=
  node?_modifyNode g n m _

theorem content?_setContent_self {old : Content κ} (there : g.content? n = some old)
    (content : Content κ) : (g.setContent n content).content? n = some content := by
  obtain ⟨node, found, -⟩ := Option.map_eq_some_iff.mp there
  simp only [content?, node?_setContent, if_true, found, Option.map_some]

theorem content?_setContent_other {m : NodeRef} (apart : m ≠ n) (content : Content κ) :
    (g.setContent n content).content? m = g.content? m := by
  simp only [content?, node?_setContent, if_neg apart]

@[simp] theorem roots_setContent (content : Content κ) : (g.setContent n content).roots = g.roots := by
  unfold setContent modifyNode
  split <;> rfl

@[simp] theorem stores_setContent (content : Content κ) :
    (g.setContent n content).stores = g.stores := by
  unfold setContent modifyNode
  split <;> rfl

/-- New content of the same shape leaves the skeleton as it is. -/
theorem skeleton_setContent {old content : Content κ} (there : g.content? n = some old)
    (shape : content.shape = old.shape) : (g.setContent n content).skeleton = g.skeleton := by
  funext m
  simp only [skeleton, node?_setContent]
  split
  · rename_i here
    obtain ⟨node, found, rfl⟩ := Option.map_eq_some_iff.mp there
    simp only [here, found, Option.map_some, shape]
  · rfl

end Content

section Roots
variable (g : Graph κ) (r : RootRef) (root : Root)

@[simp] theorem nodes_setRoot : (g.setRoot r root).nodes = g.nodes := by
  unfold setRoot
  split <;> rfl

@[simp] theorem stores_setRoot : (g.setRoot r root).stores = g.stores := by
  unfold setRoot
  split <;> rfl

theorem root?_setRoot (other : RootRef) :
    (g.setRoot r root).root? other =
      if other = r then (g.root? r).map fun _ => root else g.root? other := by
  unfold setRoot
  split
  · rename_i old found
    have here : g.roots[r.index]? = some (some old) := Option.join_eq_some_iff.mp found
    obtain ⟨bound, -⟩ := Array.getElem?_eq_some_iff.mp here
    by_cases h : other = r
    · subst h
      rw [if_pos rfl, found]
      simp [root?, bound]
    · have : r.index ≠ other.index := fun e => h (by cases other; cases r; exact congrArg _ e.symm)
      simp [root?, h, this]
  · rename_i missing
    split
    · rename_i h
      rw [h, missing]
      rfl
    · rfl

end Roots

section SameNodes
variable {g g' : Graph κ}

theorem content?_of_nodes (nodes : g'.nodes = g.nodes) (n : NodeRef) :
    g'.content? n = g.content? n := by
  simp only [content?, node?, nodes]

theorem skeleton_of_nodes (nodes : g'.nodes = g.nodes) : g'.skeleton = g.skeleton := by
  funext n
  simp only [skeleton, node?, nodes]

theorem root?_of_roots (roots : g'.roots = g.roots) (r : RootRef) : g'.root? r = g.root? r := by
  simp only [root?, roots]

theorem holding?_of_stores (stores : g'.stores = g.stores) : g'.holding? = g.holding? := by
  funext content
  cases content <;> simp only [holding?, stores]

theorem held?_of_eq {n : NodeRef} (content : g'.content? n = g.content? n)
    (stores : g'.stores = g.stores) : g'.held? n = g.held? n := by
  rw [held?, held?, content, holding?_of_stores stores]

theorem held?_setContent_self {n : NodeRef} {old new : Content κ} {next : Holding κ}
    (there : g.content? n = some old) (now : g.holding? new = some next) :
    (g.setContent n new).held? n = some next := by
  rw [held?, content?_setContent_self g n there, Option.bind_some,
    holding?_of_stores (stores_setContent g n new), now]

theorem held?_setContent_other {n m : NodeRef} (apart : m ≠ n) (new : Content κ) :
    (g.setContent n new).held? m = g.held? m :=
  held?_of_eq (content?_setContent_other g n apart new) (stores_setContent g n new)

end SameNodes

section Cells
variable (g : Graph κ) (n : NodeRef) (kind : κ) (s : StoreRef)

/-- The graph with a cell and its store put in their places. -/
def putCell (now : Cell (Values.Carrier kind) × Store) : Graph κ :=
  { g with stores := g.stores.setIfInBounds s.index now.2 }.setContent n (.persistent kind now.1 s)

variable {n kind s} {cell : Cell (Values.Carrier kind)} {store : Store}

/-- What is done with a cell is done in its store, and both are put back. -/
theorem withCell_eq {β : Type} (found : g.stores[s.index]? = some store)
    (act : CellM (Values.Carrier kind) Store β) :
    withCell n kind cell s act g =
      match act (cell, store) with
      | .ok b now => .ok b (g.putCell n kind s now)
      | .error e now => .error e (g.putCell n kind s now) := by
  simp only [withCell, found]
  cases act (cell, store) <;> rfl

theorem stores_putCell (now : Cell (Values.Carrier kind) × Store) :
    (g.putCell n kind s now).stores = g.stores.setIfInBounds s.index now.2 := stores_setContent _ _ _

theorem roots_putCell (now : Cell (Values.Carrier kind) × Store) :
    (g.putCell n kind s now).roots = g.roots := roots_setContent _ _ _

theorem setIfInBounds_same {α : Type} {xs : Array α} {i : Nat} {x : α} (there : xs[i]? = some x) :
    xs.setIfInBounds i x = xs := by
  apply Array.ext_getElem?
  intro j
  by_cases here : i = j
  · have bound := (Array.getElem?_eq_some_iff.mp there).1
    rw [← here, Array.getElem?_setIfInBounds_self_of_lt bound, there]
  · rw [Array.getElem?_setIfInBounds_ne here]

section Stored
variable (found : g.stores[s.index]? = some store)
include found

theorem store_putCell_self (now : Cell (Values.Carrier kind) × Store) :
    (g.putCell n kind s now).stores[s.index]? = some now.2 := by
  have bound := (Array.getElem?_eq_some_iff.mp found).1
  rw [stores_putCell, Array.getElem?_setIfInBounds_self_of_lt bound]

theorem stores_putCell_same (cell : Cell (Values.Carrier kind)) :
    (g.putCell n kind s (cell, store)).stores = g.stores := by
  rw [stores_putCell, setIfInBounds_same found]

/-- A store that keeps what it kept is put in its place. -/
theorem kept_putCell {now : Cell (Values.Carrier kind) × Store}
    (same : LawfulStore.kept now.2 = LawfulStore.kept store) (t : StoreRef) :
    (g.putCell n kind s now).stores[t.index]?.map LawfulStore.kept =
      g.stores[t.index]?.map LawfulStore.kept := by
  by_cases here : s.index = t.index
  · rw [← here, store_putCell_self g found, found, Option.map_some, Option.map_some, same]
  · rw [stores_putCell, Array.getElem?_setIfInBounds_ne here]

end Stored

section Placed
variable (there : g.content? n = some (.persistent kind cell s))
include there

theorem content?_putCell_self (now : Cell (Values.Carrier kind) × Store) :
    (g.putCell n kind s now).content? n = some (.persistent kind now.1 s) :=
  content?_setContent_self { g with stores := g.stores.setIfInBounds s.index now.2 } n there _

theorem skeleton_putCell {now : Cell (Values.Carrier kind) × Store}
    (framed : Cell.Framed (cell, store) now) : (g.putCell n kind s now).skeleton = g.skeleton := by
  have shape : (Content.persistent kind now.1 s).shape = (Content.persistent kind cell s).shape := by
    simp only [Content.shape, framed.id, framed.config, framed.lock]
  exact skeleton_setContent { g with stores := _ } n there shape

theorem held?_putCell_self (found : g.stores[s.index]? = some store)
    (now : Cell (Values.Carrier kind) × Store) :
    (g.putCell n kind s now).held? n =
      (Cell.logical? (Values.codec kind) now).map (.single kind) := by
  simp only [held?, content?_putCell_self g there, Option.bind_some, holding?,
    store_putCell_self g found]

end Placed

/-- A node whose copy in the store is not touched holds what it held. -/
theorem held?_putCell_other {m : NodeRef} (apart : m ≠ n) (found : g.stores[s.index]? = some store)
    {now : Cell (Values.Carrier kind) × Store}
    (untouched : ∀ kind' (c : Cell (Values.Carrier kind')),
      g.content? m = some (.persistent kind' c s) →
        LawfulStore.kept now.2 c.id = LawfulStore.kept store c.id) :
    (g.putCell n kind s now).held? m = g.held? m := by
  have content : (g.putCell n kind s now).content? m = g.content? m :=
    content?_setContent_other { g with stores := _ } n apart _
  rw [held?, held?, content]
  cases holder : g.content? m with
  | none => rfl
  | some holder' =>
    cases holder' with
    | branch b => rfl
    | value kind value => rfl
    | list kind items => rfl
    | persistent kind' c t =>
      simp only [Option.bind_some, holding?]
      by_cases same : t = s
      · subst same
        rw [store_putCell_self g found, found]
        simp only [Option.bind_some, Cell.logical?, Cell.copy?, untouched kind' c holder]
      · have index : s.index ≠ t.index := fun e => same (by cases s; cases t; exact congrArg _ e.symm)
        rw [stores_putCell, Array.getElem?_setIfInBounds_ne index]

end Cells

/-- What is read of a node, wherever its value is, is what the node holds. -/
theorem held?_of_readValue {g g' : Graph κ} {n : NodeRef} {d : Datum κ}
    (read : readValue n g = .ok (some d) g') : g.held? n = some (.single d.kind d.value) := by
  unfold readValue at read
  simp only [Run.bind_apply, Run.get_apply] at read
  rcases content : g.content? n with _ | b | ⟨kind, value⟩ | ⟨kind, items⟩ | ⟨kind, cell, s⟩
  · rw [content] at read
    cases read
  · rw [content] at read
    cases read
  · rw [content] at read
    cases read
    rw [held?, content]
    rfl
  · rw [content] at read
    cases read
  · rw [content] at read
    dsimp only at read
    cases found : g.stores[s.index]? with
    | none => simp [withCell, found] at read
    | some store =>
      have answer := Cell.read_result (Values.codec kind) cell store
      rw [Run.bind_apply, withCell_eq g found] at read
      generalize Cell.read (Values.codec kind) (cell, store) = result at answer read
      cases answer with
      | here was same =>
        cases read
        simp only [held?, content, Option.bind_some, holding?, found, was, Option.map_some]
      | failed why same => cases read

end Graph

end GraphJournal
