import GraphJournal.Entry.Draft
import GraphJournal.Graph.Links

/-!
Where a node is in its graph, and the address that says so.

A node is found by climbing from parent to parent to the top, which knows the root. The climb fails
where a parent or the root is no longer alive, and above `maxWalkDepth` ancestors, which only a
circle can have. The address lists one step for each level from the top down to the node: a key
segment if the level has a key, otherwise what the branch there chooses to write.
-/
namespace GraphJournal

structure Location where
  root : RootRef
  key : Int32
  /-- The nodes above it with their keys, the top of the graph first. -/
  ancestors : List (NodeRef × Int32)
  deriving DecidableEq, Repr

namespace Location

def depth (l : Location) : Nat := l.ancestors.length

def isTop (l : Location) : Bool := l.ancestors.isEmpty

/-- The keys of all levels, from the top down to the node itself. -/
def pathKeys (l : Location) : List Int32 := l.ancestors.map (·.2) ++ [l.key]

end Location

namespace Graph

variable {κ : Type} [Values κ]

/-- Climbs from a node with the given links, at most `height` levels high. Gives the root that the
top was told, and the nodes on the way in front of those in `below`. -/
def climb (g : Graph κ) (height : Nat) (links : Links) (below : List (NodeRef × Int32)) :
    Option (Option RootRef × List (NodeRef × Int32)) :=
  match links.parent, height with
  | none, _ => some (links.root, below)
  | some _, 0 => none
  | some parent, height + 1 =>
    match g.node? parent with
    | none => none
    | some node => g.climb height node.links ((parent, node.links.key) :: below)

/-- Where a node is, if a live root can be reached from it. -/
def locate? (g : Graph κ) (n : NodeRef) : Option Location :=
  match g.climb maxWalkDepth (g.links n) [] with
  | some (some root, ancestors) =>
    if (g.root? root).isSome then some { root, key := (g.links n).key, ancestors } else none
  | _ => none

/-- What a node without a key writes as its step of an address. -/
def ownAddress (g : Graph κ) (n : NodeRef) : Except Error Bytes :=
  match g.content? n with
  | some (.branch b) =>
    match b.address with
    | .nothing => .ok []
    | .locator address => .ok (Draft.locatorSegment address)
    | .raw bytes => .ok bytes
    | .unavailable => .error (.serialization (.unavailable "locator"))
  | _ => .ok []

/-- The step of an address that leads to a node with the given key. -/
def segment (g : Graph κ) (n : NodeRef) (key : Int32) : Except Error Bytes :=
  if 0 ≤ key then .ok (Draft.keySegment key.toUInt32) else g.ownAddress n

/-- The address of a node, with or without its own step. -/
def address (g : Graph κ) (n : NodeRef) (location : Location) (withOwn : Bool) :
    Except Error Bytes := do
  let above ← location.ancestors.mapM fun a => g.segment a.1 a.2
  let own ← if withOwn then g.segment n location.key else pure []
  return above.flatten ++ own

/-- A record about a node that holds only its address so far, if the node is in a graph. -/
def beginRecord (g : Graph κ) (n : NodeRef) (withOwn : Bool) : Except Error (Option Draft) :=
  match g.locate? n with
  | none => .ok none
  | some location => do
    let address ← g.address n location withOwn
    return some ((Draft.begin .record).append address)

end Graph

end GraphJournal
