import GraphJournal.Graph.Basic
import GraphJournal.Limits

/-!
Putting nodes into a graph and taking them out.

A node that is put under another one takes over the root which that one was told, and so does
everything below it. What lies below is found by following children level by level; no node is
visited twice, so circles do no harm, and nothing further down than `maxWalkDepth` is reached.
-/
namespace GraphJournal

/-- The members of `seen`, and all that can be reached from `frontier` by at least one and at most
`depth` steps without passing through `seen`. -/
def reachableFrom (children : NodeRef → List NodeRef) :
    Nat → List NodeRef → List NodeRef → List NodeRef
  | 0, _, seen => seen
  | depth + 1, frontier, seen =>
    match ((frontier.flatMap children).filter (· ∉ seen)).eraseDups with
    | [] => seen
    | fresh => reachableFrom children depth fresh (seen ++ fresh)

namespace Graph

variable {κ : Type} [Values κ]

/-- The nodes below a node, down to the depth that walks go. The node itself is among them only if
it lies on a circle. -/
def descendants (g : Graph κ) (n : NodeRef) : List NodeRef :=
  reachableFrom g.children maxWalkDepth [n] []

def tellRoot (root : Option RootRef) (g : Graph κ) (n : NodeRef) : Graph κ :=
  g.modifyNode n fun node => { node with links := { node.links with root } }

def spread (g : Graph κ) (n : NodeRef) (root : Option RootRef) : Graph κ :=
  (g.descendants n).foldl (tellRoot root) g

/-- Makes a node the top of a root's graph. It keeps its key. -/
def attachToRoot (g : Graph κ) (n : NodeRef) (root : RootRef) : Graph κ :=
  (g.setLinks n { parent := none, root := some root, key := (g.links n).key }).spread n (some root)

def attachChild (g : Graph κ) (child parent : NodeRef) (key : Int32) : Graph κ :=
  let root := (g.links parent).root
  (g.setLinks child { parent := some parent, root, key }).spread child root

def detach (g : Graph κ) (n : NodeRef) : Graph κ :=
  (g.setLinks n {}).spread n none

end Graph

end GraphJournal
