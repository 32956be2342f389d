import Mathlib.Logic.Function.Iterate
import GraphJournal.Proofs.Descent

/-!
# A worklist without a memory

The root that a graph is told spreads to every node below, and each of them is told once. A worklist
that does not know what it has seen tells shared nodes again for each way that leads to them, and it
goes round circles until it is too deep. It ends all the same, with the same graph. What becomes of
that graph when nodes are attached and detached is told for every node and link.

How many turns the worklist takes is NOT told: it can be as many as there are ways down.
-/
namespace GraphJournal

set_option autoImplicit false

namespace Descends
variable {Down : NodeRef → NodeRef → Prop} {n m : NodeRef} {k : Nat}

/-- A way down starts with a step to a child. -/
theorem succ_iff : Descends Down n (k + 1) m ↔ ∃ c, Down n c ∧ Descends Down c k m := by
  constructor
  · intro h
    induction k generalizing m with
    | zero =>
      cases h with
      | step above last =>
        rw [above.eq_of_zero] at last
        exact ⟨m, last, here⟩
    | succ k ih =>
      cases h with
      | step above last =>
        obtain ⟨c, child, below⟩ := ih above
        exact ⟨c, child, below.step last⟩
  · rintro ⟨c, child, below⟩
    rw [Nat.add_comm]
    exact (first child).trans below

end Descends

namespace Graph

variable {κ : Type} [Values κ]

/-- The first node is above the second, and no walk is too short to get from one to the other. -/
def Above (g : Graph κ) (n m : NodeRef) : Prop :=
  ∃ k, 1 ≤ k ∧ k ≤ maxWalkDepth ∧ Descends g.Holds n k m

section Loop

/-- The children of a node as they lie on a stack: the last of them comes off first. -/
def stacked (g : Graph κ) (n : NodeRef) (depth : Nat) : List (NodeRef × Nat) :=
  ((g.children n).map (·, depth)).reverse

/-- One turn of the loop: the node on top of the stack is told the root, and its children take its
place unless it is too deep for that. -/
def turn (root : Option RootRef) :
    Graph κ × List (NodeRef × Nat) → Graph κ × List (NodeRef × Nat)
  | (g, []) => (g, [])
  | (g, (n, depth) :: pending) =>
    let g := tellRoot root g n
    (g, (if depth < maxWalkDepth then g.stacked n (depth + 1) else []) ++ pending)

/-- Some number of turns leads from one state of the loop to the other. -/
def TurnsInto (root : Option RootRef) (s s' : Graph κ × List (NodeRef × Nat)) : Prop :=
  ∃ turns, (turn root)^[turns] s = s'

variable {root : Option RootRef} {s s' s'' : Graph κ × List (NodeRef × Nat)}

theorem TurnsInto.refl : TurnsInto root s s := ⟨0, rfl⟩

theorem TurnsInto.trans (first : TurnsInto root s s') (then' : TurnsInto root s' s'') :
    TurnsInto root s s'' := by
  obtain ⟨j, rfl⟩ := first
  obtain ⟨k, rfl⟩ := then'
  exact ⟨k + j, Function.iterate_add_apply _ k j s⟩

theorem turnsInto_turn : TurnsInto root s (turn root s) := ⟨1, rfl⟩

end Loop

section Visits

/-- The nodes that come off the stack after `n`, which included, until all that was put there for it
is gone, if `further` more steps down may be taken from it. -/
def visits (children : NodeRef → List NodeRef) : Nat → NodeRef → List NodeRef
  | 0, n => [n]
  | further + 1, n => n :: (children n).reverse.flatMap (visits children further)

theorem mem_visits (children : NodeRef → List NodeRef) (further : Nat) (n m : NodeRef) :
    m ∈ visits children further n ↔
      ∃ k ≤ further, Descends (fun p m => m ∈ children p) n k m := by
  induction further generalizing n with
  | zero =>
    rw [visits, List.mem_singleton]
    constructor
    · rintro rfl
      exact ⟨0, Nat.le_refl 0, .here⟩
    · rintro ⟨k, low, descent⟩
      rw [Nat.le_zero.mp low] at descent
      exact descent.eq_of_zero
  | succ further ih =>
    rw [visits, List.mem_cons, List.mem_flatMap]
    constructor
    · rintro (rfl | ⟨c, child, mem⟩)
      · exact ⟨0, Nat.zero_le _, .here⟩
      · obtain ⟨k, low, descent⟩ := (ih c).mp mem
        refine ⟨k + 1, Nat.succ_le_succ low, Descends.succ_iff.mpr ⟨c, ?_, descent⟩⟩
        exact List.mem_reverse.mp child
    · rintro ⟨k, low, descent⟩
      cases k with
      | zero => exact Or.inl descent.eq_of_zero
      | succ k =>
        obtain ⟨c, child, below⟩ := Descends.succ_iff.mp descent
        refine Or.inr ⟨c, List.mem_reverse.mpr child, (ih c).mpr ⟨k, ?_, below⟩⟩
        exact Nat.succ_le_succ_iff.mp low

variable {root : Option RootRef}

theorem children_foldl_tellRoot (g : Graph κ) (ns : List NodeRef) :
    (ns.foldl (tellRoot root) g).children = g.children := by
  induction ns generalizing g with
  | nil => rfl
  | cons n ns ih =>
    rw [List.foldl_cons, ih]
    funext m
    exact g.children_modifyNode n m _ fun _ => rfl

/-- What is on the stack at one depth is worked off node by node, each with all that is below it. -/
theorem turnsInto_each {depth : Nat} {children : NodeRef → List NodeRef} {walk : NodeRef → List NodeRef}
    (one : ∀ (g : Graph κ) (n : NodeRef) (pending : List (NodeRef × Nat)), g.children = children →
      TurnsInto root (g, (n, depth) :: pending) ((walk n).foldl (tellRoot root) g, pending))
    (ns : List NodeRef) (g : Graph κ) (pending : List (NodeRef × Nat)) (same : g.children = children) :
    TurnsInto root (g, ns.map (·, depth) ++ pending)
      ((ns.flatMap walk).foldl (tellRoot root) g, pending) := by
  induction ns generalizing g with
  | nil => exact .refl
  | cons n ns ih =>
    rw [List.flatMap_cons, List.foldl_append]
    exact (one g n _ same).trans (ih _ ((children_foldl_tellRoot g _).trans same))

theorem turnsInto_visits {further depth : Nat} (room : depth + further = maxWalkDepth) (g : Graph κ)
    (n : NodeRef) (pending : List (NodeRef × Nat)) :
    TurnsInto root (g, (n, depth) :: pending)
      ((visits g.children further n).foldl (tellRoot root) g, pending) := by
  -- By the steps down that are left: what a node puts on the stack comes off with one less, and the
  -- children are those of the graph at the start, since telling changes none.
  induction further generalizing depth g n pending with
  | zero =>
    have deep : ¬ depth < maxWalkDepth := by omega
    have ended : turn root (g, (n, depth) :: pending) = (tellRoot root g n, pending) := by
      rw [turn, if_neg deep, List.nil_append]
    exact ended ▸ turnsInto_turn
  | succ further ih =>
    have shallow : depth < maxWalkDepth := by omega
    have kept : (tellRoot root g n).children = g.children := children_foldl_tellRoot g [n]
    have first : turn root (g, (n, depth) :: pending) =
        (tellRoot root g n, (g.children n).reverse.map (·, depth + 1) ++ pending) := by
      rw [turn, if_pos shallow, stacked, kept, List.map_reverse]
    have room' : depth + 1 + further = maxWalkDepth := by omega
    have rest := turnsInto_each (fun g' c pending same => same ▸ ih room' g' c pending)
      (g.children n).reverse (tellRoot root g n) pending kept
    rw [visits, List.foldl_cons]
    exact turnsInto_turn.trans (first ▸ rest)

end Visits

/-- All that a graph is besides what its nodes are. -/
structure SameElsewhere (g g' : Graph κ) : Prop where
  size : g'.nodes.size = g.nodes.size
  roots : g'.roots = g.roots
  stores : g'.stores = g.stores

section Telling
variable {root : Option RootRef} {g g' : Graph κ}

theorem SameElsewhere.trans {g'' : Graph κ} (first : SameElsewhere g g')
    (then' : SameElsewhere g' g'') : SameElsewhere g g'' :=
  ⟨then'.size.trans first.size, then'.roots.trans first.roots, then'.stores.trans first.stores⟩

theorem sameElsewhere_modifyNode (g : Graph κ) (n : NodeRef) (change : Node κ → Node κ) :
    SameElsewhere g (g.modifyNode n change) := by
  unfold modifyNode
  split
  · exact ⟨Array.size_setIfInBounds, rfl, rfl⟩
  · exact ⟨rfl, rfl, rfl⟩

theorem eq_of_sameElsewhere (same : SameElsewhere g g') (nodes : ∀ n, g'.node? n = g.node? n) :
    g' = g := by
  obtain ⟨ns, rs, ss⟩ := g
  obtain ⟨ns', rs', ss'⟩ := g'
  obtain ⟨size, rfl, rfl⟩ := same
  have each : ns' = ns := by
    refine Array.ext size fun i bound' bound => ?_
    have at_i := nodes ⟨i⟩
    simpa [node?, bound, bound'] using at_i
  rw [each]

theorem sameElsewhere_foldl_tellRoot (g : Graph κ) (ns : List NodeRef) :
    SameElsewhere g (ns.foldl (tellRoot root) g) := by
  induction ns generalizing g with
  | nil => exact ⟨rfl, rfl, rfl⟩
  | cons n ns ih => exact (sameElsewhere_modifyNode g n _).trans (ih _)

/-- It does not matter in what order nodes are told, nor how often. -/
theorem foldl_tellRoot_congr {ns ns' : List NodeRef} (same : ∀ m, m ∈ ns ↔ m ∈ ns') (g : Graph κ) :
    ns.foldl (tellRoot root) g = ns'.foldl (tellRoot root) g := by
  refine eq_of_sameElsewhere ?_ fun m => ?_
  · have one : SameElsewhere g (ns.foldl (tellRoot root) g) := sameElsewhere_foldl_tellRoot g ns
    have other : SameElsewhere g (ns'.foldl (tellRoot root) g) := sameElsewhere_foldl_tellRoot g ns'
    exact ⟨one.size.trans other.size.symm, one.roots.trans other.roots.symm,
      one.stores.trans other.stores.symm⟩
  · simp only [node?_foldl_tellRoot, same m]

end Telling

section Spreading

/-- A root spreads from the node to the nodes below it, by the worklist as well. -/
structure Spreads (g : Graph κ) (n : NodeRef) (root : Option RootRef) : Prop where
  ends : TurnsInto root (g, g.stacked n 1) (g.spread n root, [])
  below : ∀ m, g.Above n m → (g.spread n root).node? m = (g.node? m).map (withRoot root)
  others : ∀ m, ¬ g.Above n m → (g.spread n root).node? m = g.node? m
  upward : ∀ m, ((g.spread n root).links m).parent = (g.links m).parent ∧
    ((g.spread n root).links m).key = (g.links m).key
  elsewhere : SameElsewhere g (g.spread n root)

/-- The second graph is the first one where the node has been given the links, and all that is below
it has been told their root. -/
structure Relinked (g : Graph κ) (n : NodeRef) (links : Links) (g' : Graph κ) : Prop where
  ends : TurnsInto links.root (g.setLinks n links, (g.setLinks n links).stacked n 1) (g', [])
  self : g'.node? n = (g.node? n).map fun node => { node with links }
  below : ∀ m, m ≠ n → g.Above n m → g'.node? m = (g.node? m).map (withRoot links.root)
  others : ∀ m, m ≠ n → ¬ g.Above n m → g'.node? m = g.node? m
  elsewhere : SameElsewhere g g'

variable (g : Graph κ) (n : NodeRef)

theorem above_iff_mem_visits (m : NodeRef) :
    g.Above n m ↔ m ∈ (g.children n).reverse.flatMap (visits g.children (maxWalkDepth - 1)) := by
  rw [List.mem_flatMap]
  constructor
  · rintro ⟨k, low, high, descent⟩
    obtain ⟨k, rfl⟩ := Nat.exists_eq_add_of_le' low
    obtain ⟨c, child, below⟩ := Descends.succ_iff.mp descent
    refine ⟨c, List.mem_reverse.mpr child, (mem_visits _ _ _ _).mpr ⟨k, ?_, below⟩⟩
    exact Nat.le_sub_one_of_lt high
  · rintro ⟨c, child, mem⟩
    obtain ⟨k, high, below⟩ := (mem_visits _ _ _ _).mp mem
    refine ⟨k + 1, Nat.succ_pos k, ?_, Descends.succ_iff.mpr ⟨c, List.mem_reverse.mp child, below⟩⟩
    exact Nat.add_le_of_le_sub (by decide) high

theorem turnsInto_spread (root : Option RootRef) :
    TurnsInto root (g, g.stacked n 1) (g.spread n root, []) := by
  have one (g' : Graph κ) (c : NodeRef) (pending : List (NodeRef × Nat))
      (same : g'.children = g.children) : TurnsInto root (g', (c, 1) :: pending)
        ((visits g.children (maxWalkDepth - 1) c).foldl (tellRoot root) g', pending) :=
    same ▸ turnsInto_visits rfl g' c pending
  have walk := turnsInto_each one (g.children n).reverse g [] rfl
  have same (m : NodeRef) := (above_iff_mem_visits g n m).symm.trans (g.mem_descendants n m).symm
  rw [List.append_nil, List.map_reverse, foldl_tellRoot_congr same] at walk
  exact walk

theorem spreads (root : Option RootRef) : Spreads g n root := by
  refine ⟨turnsInto_spread g n root, ?_, ?_, ?_, sameElsewhere_foldl_tellRoot g _⟩
  · intro m above
    rw [spread, node?_foldl_tellRoot, if_pos ((g.mem_descendants n m).mpr above)]
  · intro m notAbove
    rw [spread, node?_foldl_tellRoot, if_neg fun mem => notAbove ((g.mem_descendants n m).mp mem)]
  · intro m
    rw [links_spread]
    split <;> exact ⟨rfl, rfl⟩

theorem above_setLinks (links : Links) (m : NodeRef) : (g.setLinks n links).Above n m ↔ g.Above n m := by
  have same : (g.setLinks n links).Holds = g.Holds := by
    funext p m
    rw [Holds, Holds, g.children_setLinks]
  rw [Above, Above, same]

theorem relinked (links : Links) : Relinked g n links ((g.setLinks n links).spread n links.root) := by
  have spread := (g.setLinks n links).spreads n links.root
  have there (m : NodeRef) : (g.setLinks n links).node? m =
      if m = n then (g.node? m).map fun node => { node with links } else g.node? m :=
    g.node?_modifyNode n m _
  refine ⟨spread.ends, ?_, ?_, ?_, (sameElsewhere_modifyNode g n _).trans spread.elsewhere⟩
  · by_cases circle : g.Above n n
    · rw [spread.below n ((above_setLinks g n links n).mpr circle), there, if_pos rfl, Option.map_map]
      rfl
    · rw [spread.others n (mt (above_setLinks g n links n).mp circle), there, if_pos rfl]
  · intro m other above
    rw [spread.below m ((above_setLinks g n links m).mpr above), there, if_neg other]
  · intro m other notAbove
    rw [spread.others m (mt (above_setLinks g n links m).mp notAbove), there, if_neg other]

/-- What is told to a graph, by a worklist or by the search for what is below, and what becomes of
links when a node is attached to a root, attached to a parent, or detached. -/
theorem root_propagation :
    (∀ root, Spreads g n root) ∧
      (∀ root, Relinked g n { parent := none, root := some root, key := (g.links n).key }
        (g.attachToRoot n root)) ∧
      (∀ parent key, Relinked g n { parent := some parent, root := (g.links parent).root, key }
        (g.attachChild n parent key)) ∧
      Relinked g n {} (g.detach n) :=
  ⟨spreads g n, fun _ => relinked g n _, fun _ _ => relinked g n _, relinked g n _⟩

end Spreading

end Graph

end GraphJournal
