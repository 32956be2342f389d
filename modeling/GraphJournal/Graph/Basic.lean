import GraphJournal.Cell
import GraphJournal.Graph.Root
import GraphJournal.Store
import GraphJournal.Values

/-!
Graphs of nodes that journal their changes.

Ownership in a graph goes downward: a branch holds its children, and who works with a graph holds
some of its nodes from outside. A node is alive as long as somebody holds it. The links of a node
upward, to its parent and its root, hold nothing; they are handles, behind which there may be nobody
any more.
-/
namespace GraphJournal

/-- The links of a node upward. -/
structure Links where
  /-- The node above, if the node has been put under one. -/
  parent : Option NodeRef := none
  /-- The root that the node was last told. -/
  root : Option RootRef := none
  /-- The node's place in its parent; negative if it has none. -/
  key : Int32 := noKey
  deriving DecidableEq, Repr

/-- What a branch without a key writes as its part of an address. -/
inductive AddressHook
  /-- Nothing: it shares its parent's address. -/
  | nothing
  | locator (address : Bytes)
  | raw (bytes : Bytes)
  | unavailable
  deriving DecidableEq, Repr

/-- A node with a number and children, some under keys and some under names. -/
structure Branch where
  value : UInt64 := 0
  keyed : OrderedMap UInt32 NodeRef := .empty
  named : OrderedMap Bytes NodeRef := .empty
  address : AddressHook := .nothing
  /-- What the branch writes ahead of the marker in its records. -/
  recordPrefix : Bytes := []
  /-- Whether writing that fails. -/
  prefixFails : Bool := false
  /-- The number at which applying a record breaks off. -/
  breaksAt : Option UInt64 := none

namespace Branch

/-- The children: those under keys, then those under names. -/
def children (b : Branch) : List NodeRef := b.keyed.values ++ b.named.values

end Branch

inductive Content (κ : Type) [Values κ]
  | branch (branch : Branch)
  | value (kind : κ) (value : Values.Carrier kind)
  | list (kind : κ) (items : List (Values.Carrier kind))
  /-- A value that can be released to a store. -/
  | persistent (kind : κ) (cell : Cell (Values.Carrier kind)) (store : StoreRef)

namespace Content

variable {κ : Type} [Values κ]

def children : Content κ → List NodeRef
  | branch b => b.children
  | value _ _ | list _ _ | persistent _ _ _ => []

end Content

structure Node (κ : Type) [Values κ] where
  content : Content κ
  links : Links := {}
  /-- The number of those who hold the node. -/
  holders : Nat := 1

structure Graph (κ : Type) [Values κ] where
  /-- Every node ever made; `none` where nobody holds it any more. -/
  nodes : Array (Option (Node κ)) := #[]
  /-- Every root ever made; `none` where it has been given up. -/
  roots : Array (Option Root) := #[]
  stores : Array Store := #[]

/-- Something done with a graph, which keeps the graph it reached when it fails. -/
abbrev GraphM (κ : Type) [Values κ] (α : Type) := EStateM Error (Graph κ) α

namespace Graph

variable {κ : Type} [Values κ]

def node? (g : Graph κ) (n : NodeRef) : Option (Node κ) := g.nodes[n.index]?.join

def root? (g : Graph κ) (r : RootRef) : Option Root := g.roots[r.index]?.join

def content? (g : Graph κ) (n : NodeRef) : Option (Content κ) := (g.node? n).map (·.content)

def links (g : Graph κ) (n : NodeRef) : Links := ((g.node? n).map (·.links)).getD {}

def children (g : Graph κ) (n : NodeRef) : List NodeRef :=
  ((g.content? n).map Content.children).getD []

def modifyNode (g : Graph κ) (n : NodeRef) (change : Node κ → Node κ) : Graph κ :=
  match g.node? n with
  | some node => { g with nodes := g.nodes.setIfInBounds n.index (some (change node)) }
  | none => g

/-- The graph in which a node is no longer alive. -/
def bury (g : Graph κ) (n : NodeRef) : Graph κ :=
  { g with nodes := g.nodes.setIfInBounds n.index none }

def setLinks (g : Graph κ) (n : NodeRef) (links : Links) : Graph κ :=
  g.modifyNode n ({ · with links })

def setContent (g : Graph κ) (n : NodeRef) (content : Content κ) : Graph κ :=
  g.modifyNode n ({ · with content })

def setRoot (g : Graph κ) (r : RootRef) (root : Root) : Graph κ :=
  match g.root? r with
  | some _ => { g with roots := g.roots.setIfInBounds r.index (some root) }
  | none => g

/-- The graph with one more node, held by whoever made it. -/
def addNode (g : Graph κ) (content : Content κ) : NodeRef × Graph κ :=
  (⟨g.nodes.size⟩, { g with nodes := g.nodes.push (some { content }) })

def addRoot (g : Graph κ) (root : Root) : RootRef × Graph κ :=
  (⟨g.roots.size⟩, { g with roots := g.roots.push (some root) })

def addStore (g : Graph κ) (store : Store) : StoreRef × Graph κ :=
  (⟨g.stores.size⟩, { g with stores := g.stores.push store })

def dropRoot (g : Graph κ) (r : RootRef) : Graph κ :=
  { g with roots := g.roots.setIfInBounds r.index none }

/-- The root a node was told, if it is still alive. -/
def liveRoot? (g : Graph κ) (n : NodeRef) : Option (RootRef × Root) := do
  let r ← (g.links n).root
  return (r, ← g.root? r)

/-- Does something with a root. One that is gone answers as `otherwise` says. -/
def onRoot {α : Type} (r : RootRef) (otherwise : α) (act : EStateM Error Root α) : GraphM κ α :=
  fun g =>
    match g.root? r with
    | none => .ok otherwise g
    | some root =>
      match act root with
      | .ok a root => .ok a (g.setRoot r root)
      | .error e root => .error e (g.setRoot r root)

/-- Does something with a store. One that was never made answers as `otherwise` says. -/
def onStore {α : Type} (s : StoreRef) (otherwise : α) (act : EStateM Error Store α) :
    GraphM κ α := fun g =>
  match g.stores[s.index]? with
  | none => .ok otherwise g
  | some store =>
    match act store with
    | .ok a store => .ok a { g with stores := g.stores.setIfInBounds s.index store }
    | .error e store => .error e { g with stores := g.stores.setIfInBounds s.index store }

theorem node?_eq_some_iff {g : Graph κ} {n : NodeRef} {node : Node κ} :
    g.node? n = some node ↔ g.nodes[n.index]? = some (some node) := by
  rw [node?, Option.join_eq_some_iff]

/-- Changing a node changes that node only. -/
theorem node?_modifyNode (g : Graph κ) (n m : NodeRef) (change : Node κ → Node κ) :
    (g.modifyNode n change).node? m =
      if m = n then (g.node? m).map change else g.node? m := by
  unfold modifyNode
  split
  · rename_i node found
    obtain ⟨bound, here⟩ := Array.getElem?_eq_some_iff.1 (node?_eq_some_iff.1 found)
    by_cases h : m = n
    · subst h
      simp [node?, bound, here]
    · have : n.index ≠ m.index := fun e => h (by cases m; cases n; exact congrArg _ e.symm)
      simp [node?, h, this]
  · rename_i missing
    split <;> simp_all

end Graph

end GraphJournal
