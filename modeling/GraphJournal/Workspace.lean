import GraphJournal.Graph.Links
import GraphJournal.Graph.Ownership
import GraphJournal.Graph.Persistence
import Std.Data.TreeMap

/-!
Names for the things that somebody works with: nodes, roots and stores of one graph, and byte
strings put aside. A name holds what it stands for. When it is dropped, or given to something else,
a node that nobody else holds is gone, and so is a root, since a graph never holds its root.
-/
namespace GraphJournal

structure NamedNode where
  node : NodeRef
  /-- Whether it can be a member of a graph, and is not just a cell. -/
  member : Bool

structure NamedStore where
  store : StoreRef
  /-- The identities for which somebody has asked the store. -/
  mentioned : OrderedMap NodeId Unit := .empty

/-- A graph and the names of its parts. -/
structure Workspace (κ : Type) [Values κ] where
  graph : Graph κ := {}
  nodes : Std.TreeMap String NamedNode := {}
  roots : Std.TreeMap String RootRef := {}
  stores : Std.TreeMap String NamedStore := {}
  /-- Byte strings put aside. -/
  slots : Std.TreeMap String Bytes := {}

namespace Workspace

variable {κ : Type} [Values κ]

def onGraph {α : Type} (act : GraphM κ α) : EStateM Error (Workspace κ) α :=
  fun ⟨graph, nodes, roots, stores, slots⟩ =>
    match act graph with
    | .ok a graph => .ok a ⟨graph, nodes, roots, stores, slots⟩
    | .error e graph => .error e ⟨graph, nodes, roots, stores, slots⟩

def mapGraph {α : Type} (w : Workspace κ) (change : Graph κ → α × Graph κ) : α × Workspace κ :=
  match w with
  | ⟨graph, nodes, roots, stores, slots⟩ =>
    match change graph with
    | (a, graph) => (a, ⟨graph, nodes, roots, stores, slots⟩)

def dropNode (w : Workspace κ) (name : String) : Workspace κ :=
  match w.nodes[name]? with
  | none => w
  | some old => { w with nodes := w.nodes.erase name, graph := w.graph.release old.node }

def dropRoot (w : Workspace κ) (name : String) : Workspace κ :=
  match w.roots[name]? with
  | none => w
  | some old => { w with roots := w.roots.erase name, graph := w.graph.dropRoot old }

/-- Takes a name away from its store, which stays as long as a cell is kept in it. -/
def dropStore (w : Workspace κ) (name : String) : Workspace κ :=
  { w with stores := w.stores.erase name }

/-- Takes a name away from all that it stands for, and tells whether that was anything. -/
def drop (w : Workspace κ) (name : String) : Bool × Workspace κ :=
  (w.nodes.contains name || w.roots.contains name || w.stores.contains name,
    ((w.dropNode name).dropRoot name).dropStore name)

/-- Gives a name to a node that the caller holds, and that the name holds from now on. -/
def nameNode (w : Workspace κ) (name : String) (node : NamedNode) : Workspace κ :=
  match w.dropNode name with
  | ⟨graph, nodes, roots, stores, slots⟩ => ⟨graph, nodes.insert name node, roots, stores, slots⟩

def addNode (w : Workspace κ) (name : String) (content : Content κ) (member : Bool) :
    NodeRef × Workspace κ :=
  match w.mapGraph (·.addNode content) with
  | (node, w) => (node, w.nameNode name { node, member })

def addRoot (w : Workspace κ) (name : String) (root : Root) : Workspace κ :=
  match (w.dropRoot name).mapGraph (·.addRoot root) with
  | (r, w) => { w with roots := w.roots.insert name r }

def addStore (w : Workspace κ) (name : String) (store : Store) : Workspace κ :=
  match (w.dropStore name).mapGraph (·.addStore store) with
  | (s, w) => { w with stores := w.stores.insert name { store := s } }

/-- Notes that somebody asks a store for an identity. -/
def mention (w : Workspace κ) (name : String) (id : NodeId) : Workspace κ :=
  match w.stores[name]? with
  | none => w
  | some s => { w with
      stores := w.stores.insert name { s with mentioned := s.mentioned.insert id () } }

/-- Makes `n` branches named by `stem` and their place from `start` on, each of them put under the
one before, the first under `parent`. A branch takes its name once it is in place, so a parent that
loses its name to it is still there to be joined. -/
def addChain (w : Workspace κ) (parent : NodeRef) (stem : String) (key : Int32) (start : Nat) :
    Nat → Workspace κ
  | 0 => w
  | n + 1 =>
    match w.mapGraph (·.addNode (.branch {})) with
    | (node, w) =>
      match w.mapGraph fun g => ((), g.attachChild node parent key) with
      | (_, w) =>
        (w.nameNode (stem ++ toString start) { node, member := true }).addChain node stem key
          (start + 1) n

/-- What a store keeps for the identities it was asked for, in their order. -/
def kept (w : Workspace κ) (s : NamedStore) : List (NodeId × Bytes) :=
  s.mentioned.keys.filterMap fun id =>
    (w.graph.stores[s.store.index]?.bind (·.kept? id)).map (id, ·)

end Workspace

end GraphJournal
