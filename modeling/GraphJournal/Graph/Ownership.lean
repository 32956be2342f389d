import GraphJournal.Graph.Basic

/-!
Who keeps nodes alive. A node is gone when its last holder lets go; if it is a branch, it then lets
go of its children. Nodes that hold each other in a circle stay alive when nobody else holds them.
-/
namespace GraphJournal.Graph

variable {κ : Type} [Values κ]

def liveCount (g : Graph κ) : Nat := g.nodes.countP Option.isSome

theorem liveCount_bury {g : Graph κ} {n : NodeRef} {node : Node κ} (h : g.node? n = some node) :
    (g.bury n).liveCount < g.liveCount := by
  obtain ⟨bound, found⟩ := Array.getElem?_eq_some_iff.1 (node?_eq_some_iff.1 h)
  have positive : 0 < g.nodes.countP Option.isSome :=
    Array.countP_pos_iff.2 ⟨_, Array.getElem_mem bound, by rw [found]; rfl⟩
  simp only [liveCount, bury, Array.setIfInBounds_def, bound, ↓reduceDIte, Array.countP_set, found,
    Option.isSome_some, Option.isSome_none, if_true, Bool.false_eq_true, if_false]
  omega

theorem liveCount_modifyNode (g : Graph κ) (n : NodeRef) (change : Node κ → Node κ) :
    (g.modifyNode n change).liveCount = g.liveCount := by
  unfold modifyNode
  split
  · rename_i node h
    obtain ⟨bound, found⟩ := Array.getElem?_eq_some_iff.1 (node?_eq_some_iff.1 h)
    have positive : 0 < g.nodes.countP Option.isSome :=
      Array.countP_pos_iff.2 ⟨_, Array.getElem_mem bound, by rw [found]; rfl⟩
    simp only [liveCount, Array.setIfInBounds_def, bound, ↓reduceDIte, Array.countP_set, found,
      Option.isSome_some, if_true]
    omega
  · rfl

def hold (g : Graph κ) (n : NodeRef) : Graph κ :=
  g.modifyNode n fun node => { node with holders := node.holders + 1 }

/-- For each handle in turn, one holder of its node lets go. -/
def releaseAll (ns : List NodeRef) (g : Graph κ) : Graph κ :=
  match ns with
  | [] => g
  | n :: rest =>
    match h : g.node? n with
    | none => releaseAll rest g
    | some node =>
      if node.holders ≤ 1 then
        have := liveCount_bury h
        releaseAll (node.content.children ++ rest) (g.bury n)
      else
        have := liveCount_modifyNode g n fun node => { node with holders := node.holders - 1 }
        releaseAll rest (g.modifyNode n fun node => { node with holders := node.holders - 1 })
termination_by (g.liveCount, ns.length)
decreasing_by
  all_goals simp_wf
  · exact Prod.Lex.right _ (by simp)
  · exact Prod.Lex.left _ _ (by assumption)
  · rw [this]
    exact Prod.Lex.right _ (by simp)

def release (g : Graph κ) (n : NodeRef) : Graph κ := releaseAll [n] g

/-- The graph with another branch in place of a node that is one, whose children are held by others
from now on: `new` is held by the branch, `old` no longer. -/
def rehold (g : Graph κ) (new old : Option NodeRef) : Graph κ :=
  let g := match new with
    | some n => g.hold n
    | none => g
  match old with
  | some n => g.release n
  | none => g

/-- Puts a child under a key of a branch, instead of the one that is there. -/
def putKeyed (g : Graph κ) (n : NodeRef) (key : UInt32) (child : NodeRef) : Graph κ :=
  match g.content? n with
  | some (.branch b) =>
    (g.setContent n (.branch { b with keyed := b.keyed.insert key child })).rehold
      (some child) (b.keyed.get? key)
  | _ => g

/-- Puts a child under a name of a branch, instead of the one that is there. -/
def putNamed (g : Graph κ) (n : NodeRef) (name : Bytes) (child : NodeRef) : Graph κ :=
  match g.content? n with
  | some (.branch b) =>
    (g.setContent n (.branch { b with named := b.named.insert name child })).rehold
      (some child) (b.named.get? name)
  | _ => g

/-- Takes the child under a key from a branch, and tells whether there was one. -/
def removeKeyed (g : Graph κ) (n : NodeRef) (key : UInt32) : Bool × Graph κ :=
  match g.content? n with
  | some (.branch b) =>
    ((b.keyed.get? key).isSome,
      (g.setContent n (.branch { b with keyed := b.keyed.erase key })).rehold none
        (b.keyed.get? key))
  | _ => (false, g)

end GraphJournal.Graph
