import GraphJournal.Graph.Links

/-!
# Descents

The nodes below a node are those that some number of steps from a node to one of its children leads
to. The search for them goes level by level and passes over what it has seen, in any graph, also one
with shared children or circles. From this comes what the root that a graph is told does to links.
Whether the lists of children are sensible is no matter of this module.
-/
namespace GraphJournal

set_option autoImplicit false

/-- So many steps down lead from `n` to a node. -/
inductive Descends (Down : NodeRef → NodeRef → Prop) (n : NodeRef) : Nat → NodeRef → Prop
  | here : Descends Down n 0 n
  | step {k : Nat} {p m : NodeRef} : Descends Down n k p → Down p m → Descends Down n (k + 1) m

namespace Descends

variable {Down Down' : NodeRef → NodeRef → Prop} {n p m : NodeRef} {j k : Nat}

theorem trans (above : Descends Down n j p) (below : Descends Down p k m) :
    Descends Down n (j + k) m := by
  induction below with
  | here => exact above
  | step _ down ih => exact ih.step down

theorem first (down : Down n p) : Descends Down n 1 p := here.step down

theorem eq_of_zero (h : Descends Down n 0 m) : m = n := by
  cases h
  rfl

/-- Another way to step down leads to a node as well if it agrees with the first on the way. -/
theorem imp (h : Descends Down n k m)
    (same : ∀ k p m, Descends Down n k p → Descends Down' n k p → Down p m → Down' p m) :
    Descends Down' n k m := by
  induction h with
  | here => exact here
  | step above down ih => exact ih.step (same _ _ _ above ih down)

end Descends

/-- A search from `n` that has gone down so many levels. Whatever it has seen, it has also looked at
the children of, except for the frontier. -/
structure Explored (children : NodeRef → List NodeRef) (n : NodeRef) (level : Nat)
    (frontier seen : List NodeRef) : Prop where
  reached : ∀ m ∈ frontier, Descends (fun p m => m ∈ children p) n level m
  sound : ∀ m ∈ seen, ∃ k, 1 ≤ k ∧ k ≤ level ∧ Descends (fun p m => m ∈ children p) n k m
  complete : ∀ k m, 1 ≤ k → k ≤ level → Descends (fun p m => m ∈ children p) n k m → m ∈ seen
  closed : ∀ p, p = n ∨ p ∈ seen → p ∈ frontier ∨ ∀ m ∈ children p, m ∈ seen

section Search
variable {children : NodeRef → List NodeRef} {n : NodeRef}

theorem explored_start : Explored children n 0 [n] [] := by
  refine ⟨?_, ?_, ?_, ?_⟩
  · intro m mem
    rw [List.mem_singleton.mp mem]
    exact .here
  · intro m mem
    cases mem
  · intro k m low high
    omega
  · intro p start
    rcases start with rfl | mem
    · exact Or.inl List.mem_cons_self
    · cases mem

variable {level : Nat} {frontier seen fresh : List NodeRef}

theorem mem_fresh {m : NodeRef} :
    m ∈ ((frontier.flatMap children).filter (· ∉ seen)).eraseDups ↔
      (∃ p ∈ frontier, m ∈ children p) ∧ m ∉ seen := by
  rw [List.mem_eraseDups, List.mem_filter, List.mem_flatMap, decide_eq_true_iff]

/-- One more level: the new frontier is what the old one leads to and was not seen before. -/
theorem Explored.next (h : Explored children n level frontier seen)
    (new : ∀ m, m ∈ fresh ↔ (∃ p ∈ frontier, m ∈ children p) ∧ m ∉ seen) :
    Explored children n (level + 1) fresh (seen ++ fresh) := by
  have down : ∀ m ∈ fresh, Descends (fun p m => m ∈ children p) n (level + 1) m := by
    intro m mem
    obtain ⟨⟨p, there, child⟩, -⟩ := (new m).mp mem
    exact (h.reached p there).step child
  have opened : ∀ p ∈ frontier, ∀ m ∈ children p, m ∈ seen ++ fresh := by
    intro p there m child
    by_cases old : m ∈ seen
    · exact List.mem_append_left _ old
    · exact List.mem_append_right _ ((new m).mpr ⟨⟨p, there, child⟩, old⟩)
  refine ⟨down, ?_, ?_, ?_⟩
  · intro m mem
    rcases List.mem_append.mp mem with old | here
    · obtain ⟨k, low, high, descent⟩ := h.sound m old
      exact ⟨k, low, Nat.le_succ_of_le high, descent⟩
    · exact ⟨level + 1, by omega, Nat.le_refl _, down m here⟩
  · intro k m low high descent
    cases descent with
    | here => omega
    | @step k p _ above child =>
      have met : p = n ∨ p ∈ seen := by
        cases above with
        | here => exact Or.inl rfl
        | step above' child' =>
          exact Or.inr (h.complete _ p (by omega) (by omega) (above'.step child'))
      rcases h.closed p met with there | done
      · exact opened p there m child
      · exact List.mem_append_left _ (done m child)
  · intro p met
    by_cases here : p ∈ fresh
    · exact Or.inl here
    · refine Or.inr ?_
      have before : p = n ∨ p ∈ seen :=
        met.imp_right fun mem => (List.mem_append.mp mem).resolve_right here
      rcases h.closed p before with there | done
      · exact opened p there
      · intro m child
        exact List.mem_append_left _ (done m child)

theorem Explored.ended (h : Explored children n level frontier seen)
    (none : ∀ p ∈ frontier, ∀ m ∈ children p, m ∈ seen) {k : Nat} {m : NodeRef}
    (descent : Descends (fun p m => m ∈ children p) n (k + 1) m) : m ∈ seen := by
  -- With a frontier that leads nowhere, the seen nodes are closed under children.
  have done : ∀ p, p = n ∨ p ∈ seen → ∀ m ∈ children p, m ∈ seen := by
    intro p met
    rcases h.closed p met with there | done
    · exact none p there
    · exact done
  induction k generalizing m with
  | zero =>
    cases descent with
    | step above child =>
      rw [above.eq_of_zero] at child
      exact done n (Or.inl rfl) m child
  | succ k ih =>
    cases descent with
    | step above child => exact done _ (Or.inr (ih above)) m child

theorem mem_reachableFrom (depth : Nat) (h : Explored children n level frontier seen)
    (m : NodeRef) :
    m ∈ reachableFrom children depth frontier seen ↔
      ∃ k, 1 ≤ k ∧ k ≤ level + depth ∧ Descends (fun p m => m ∈ children p) n k m := by
  induction depth generalizing level frontier seen with
  | zero =>
    rw [reachableFrom, Nat.add_zero]
    constructor
    · exact h.sound m
    · rintro ⟨k, low, high, descent⟩
      exact h.complete k m low high descent
  | succ depth ih =>
    rw [reachableFrom]
    split
    · rename_i nothing
      have none : ∀ p ∈ frontier, ∀ m ∈ children p, m ∈ seen := by
        intro p there m child
        apply Decidable.byContradiction
        intro unseen
        have mem := mem_fresh.mpr ⟨⟨p, there, child⟩, unseen⟩
        rw [nothing] at mem
        cases mem
      constructor
      · intro mem
        obtain ⟨k, low, high, descent⟩ := h.sound m mem
        exact ⟨k, low, by omega, descent⟩
      · rintro ⟨k, low, -, descent⟩
        obtain ⟨k, rfl⟩ := Nat.exists_eq_add_of_le' low
        exact h.ended none descent
    · rw [ih (h.next fun _ => mem_fresh), Nat.add_assoc, Nat.add_comm 1]

end Search

namespace Graph

variable {κ : Type} [Values κ] (g : Graph κ)

def Holds (p m : NodeRef) : Prop := m ∈ g.children p

theorem mem_descendants (n m : NodeRef) :
    m ∈ g.descendants n ↔ ∃ k, 1 ≤ k ∧ k ≤ maxWalkDepth ∧ Descends g.Holds n k m := by
  rw [descendants, mem_reachableFrom maxWalkDepth explored_start, Nat.zero_add]
  rfl

theorem links_of_node? {g : Graph κ} {n : NodeRef} {node : Node κ} (there : g.node? n = some node) :
    g.links n = node.links := by
  rw [links, there]
  rfl

theorem links_of_dead {g : Graph κ} {n : NodeRef} (dead : g.node? n = none) : g.links n = {} := by
  rw [links, dead]
  rfl

section Relinking
variable (n m : NodeRef) (change : Node κ → Node κ)

theorem isSome_node?_modifyNode :
    ((g.modifyNode n change).node? m).isSome = (g.node? m).isSome := by
  rw [node?_modifyNode]
  split <;> simp

theorem children_modifyNode (kept : ∀ node, (change node).content = node.content) :
    (g.modifyNode n change).children m = g.children m := by
  rw [children, children, content?, content?, node?_modifyNode]
  split
  · simp [Function.comp_def, kept]
  · rfl

theorem children_setLinks (links : Links) : (g.setLinks n links).children = g.children := by
  funext m
  exact g.children_modifyNode n m _ fun _ => rfl

theorem links_setLinks (links : Links) :
    (g.setLinks n links).links m = if m = n ∧ (g.node? n).isSome then links else g.links m := by
  rw [Graph.links, setLinks, node?_modifyNode]
  by_cases here : m = n
  · subst here
    cases there : g.node? m with
    | none => simp [Graph.links, there]
    | some node => simp
  · rw [if_neg here, if_neg fun both => here both.1]
    rfl

end Relinking

/-- The node once it has been told a root. -/
def withRoot (root : Option RootRef) (node : Node κ) : Node κ :=
  { node with links := { node.links with root } }

/-- A root that some nodes are told: those that are alive take note of it, however often they are
told, and the others stay as they are. -/
theorem node?_foldl_tellRoot (root : Option RootRef) (ns : List NodeRef) (m : NodeRef) :
    (ns.foldl (tellRoot root) g).node? m =
      if m ∈ ns then (g.node? m).map (withRoot root) else g.node? m := by
  induction ns generalizing g with
  | nil => rw [if_neg List.not_mem_nil, List.foldl_nil]
  | cons n ns ih =>
    rw [List.foldl_cons, ih, tellRoot, node?_modifyNode]
    by_cases here : m = n
    · rw [if_pos here, if_pos (List.mem_cons.mpr (Or.inl here)), Option.map_map]
      -- told twice is told once
      split <;> rfl
    · rw [if_neg here]
      simp only [List.mem_cons, here, false_or]

theorem links_foldl_tellRoot (root : Option RootRef) (ns : List NodeRef) (m : NodeRef) :
    (ns.foldl (tellRoot root) g).links m =
      if m ∈ ns ∧ (g.node? m).isSome then { g.links m with root } else g.links m := by
  rw [links, links, node?_foldl_tellRoot]
  by_cases told : m ∈ ns
  · rw [if_pos told]
    cases g.node? m with
    | none => simp
    | some node => simp [told, withRoot]
  · rw [if_neg told, if_neg fun both => told both.1]

theorem links_spread (n : NodeRef) (root : Option RootRef) (m : NodeRef) :
    (g.spread n root).links m =
      if m ∈ g.descendants n ∧ (g.node? m).isSome then { g.links m with root } else g.links m :=
  g.links_foldl_tellRoot root _ m

end Graph

end GraphJournal
