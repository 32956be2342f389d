import GraphJournal.Proofs.Descent
import GraphJournal.Proofs.RecordGrammar

/-!
# Ascents

A node is located exactly if its parents lead, in no more than `maxWalkDepth` hops over nodes that
are alive, to a top that was told a live root. Nothing else about the links of a graph matters, and a
circle has no top. A node that is not located journals nothing, whatever is asked of it. What the
parents of a node ought to be is NOT treated; links are arbitrary here.
-/
namespace GraphJournal

set_option autoImplicit false

open MessagePack

namespace Graph

variable {κ : Type} [Values κ]

/-- One hop up from a node leads to another. -/
def Up (g : Graph κ) (n p : NodeRef) : Prop := (g.links n).parent = some p

/-- A place in a graph is the end of a chain that starts at a live root. -/
structure Placed (g : Graph κ) (n : NodeRef) (l : Location) (above : List NodeRef) : Prop where
  chain : Chain g l.root above n
  alive : ∀ m ∈ above, (g.node? m).isSome
  near : above.length ≤ maxWalkDepth
  live : (g.root? l.root).isSome
  ancestors : l.ancestors = g.withKeys above
  depth : l.depth = above.length
  pathKeys : l.pathKeys = (above ++ [n]).map fun m => (g.links m).key

section Chains
variable {g g' : Graph κ} {r r' : RootRef} {above above' : List NodeRef} {n m : NodeRef}

theorem Chain.alive_above (chain : Chain g r above n) : ∀ m ∈ above, (g.node? m).isSome := by
  induction chain with
  | top parent root =>
    intro m mem
    cases mem
  | under chain parent ih =>
    intro m mem
    rcases List.mem_append.mp mem with higher | here
    · exact ih m higher
    · rw [List.mem_singleton.mp here]
      obtain ⟨node, there⟩ := chain.alive
      rw [there]
      rfl

/-- There is one way up from a node. -/
theorem Chain.unique (chain : Chain g r above n) (other : Chain g r' above' n) : above' = above := by
  induction chain generalizing above' with
  | top parent root =>
    cases other with
    | top => rfl
    | under _ parent' =>
      rw [parent] at parent'
      cases parent'
  | under chain parent ih =>
    obtain ⟨higher, rfl, chain'⟩ := other.parent_eq parent
    rw [ih chain']

/-- On the way from a node to the top there are nodes nearer to the top. -/
theorem Chain.after {k : Nat} (chain : Chain g r above n) (hops : Descends g.Up n k m) :
    ∃ higher, Chain g r higher m ∧ above.length = higher.length + k := by
  induction hops with
  | here => exact ⟨above, chain, rfl⟩
  | step _ up ih =>
    obtain ⟨higher, reached, length⟩ := ih
    obtain ⟨highest, rfl, chain'⟩ := reached.parent_eq up
    refine ⟨highest, chain', ?_⟩
    rw [length, List.length_append, List.length_singleton]
    omega

/-- No chain runs into a circle, which has no top. -/
theorem Chain.not_circular {j k : Nat} (chain : Chain g r above n) (into : Descends g.Up n j m) :
    ¬ Descends g.Up m (k + 1) m := by
  intro round
  obtain ⟨higher, reached, -⟩ := chain.after into
  obtain ⟨again, reached', length⟩ := reached.after round
  rw [reached.unique reached'] at length
  omega

/-- Chains look at parents, and at what root the top was told. -/
theorem Chain.congr (chain : Chain g r above n)
    (parents : ∀ m, (g'.links m).parent = (g.links m).parent)
    (tops : ∀ m, (g.links m).parent = none → (g'.links m).root = (g.links m).root) :
    Chain g' r above n := by
  induction chain with
  | @top n parent root => exact .top (by rw [parents, parent]) (by rw [tops n parent, root])
  | @under above p n chain parent ih => exact ih.under (by rw [parents, parent])

theorem withKeys_congr (keys : ∀ m, (g'.links m).key = (g.links m).key) :
    g'.withKeys above = g.withKeys above := by
  simp only [withKeys, keys]

/-- A climb that ends at a root has followed a chain. -/
theorem chain_of_climb {height : Nat} {below all : List (NodeRef × Int32)}
    (climbed : g.climb height (g.links n) below = some (some r, all)) :
    ∃ above, Chain g r above n ∧ above.length ≤ height ∧ all = g.withKeys above ++ below := by
  induction height generalizing n below with
  | zero =>
    unfold climb at climbed
    cases parent : (g.links n).parent with
    | none =>
      simp only [parent, Option.some.injEq, Prod.mk.injEq] at climbed
      exact ⟨[], .top parent climbed.1, Nat.le_refl 0, climbed.2.symm⟩
    | some p => simp [parent] at climbed
  | succ height ih =>
    unfold climb at climbed
    cases parent : (g.links n).parent with
    | none =>
      simp only [parent, Option.some.injEq, Prod.mk.injEq] at climbed
      exact ⟨[], .top parent climbed.1, Nat.zero_le _, climbed.2.symm⟩
    | some p =>
      cases there : g.node? p with
      | none => simp [parent, there] at climbed
      | some node =>
        have links : node.links = g.links p := by simp [Graph.links, there]
        simp only [parent, there, links] at climbed
        obtain ⟨higher, chain, near, told⟩ := ih climbed
        refine ⟨higher ++ [p], chain.under parent, ?_, ?_⟩
        · rw [List.length_append, List.length_singleton]
          omega
        · rw [told, withKeys, withKeys, List.map_append, List.append_assoc]
          rfl

end Chains

section Places
variable {g g' : Graph κ} {n : NodeRef} {l : Location}

theorem placed_of_locate (found : g.locate? n = some l) : ∃ above, Placed g n l above := by
  unfold locate? at found
  split at found
  · rename_i r ancestors climbed
    split at found
    · rename_i live
      cases found
      obtain ⟨above, chain, near, told⟩ := chain_of_climb climbed
      rw [List.append_nil] at told
      refine ⟨above, chain, chain.alive_above, near, live, told, ?_, ?_⟩
      · simp only [Location.depth, told, withKeys, List.length_map]
      · simp only [Location.pathKeys, told, withKeys, List.map_map, List.map_append]
        rfl
    · cases found
  · cases found

theorem locate_of_placed {above : List NodeRef} (placed : Placed g n l above) :
    g.locate? n = some l := by
  obtain ⟨root, live⟩ := Option.isSome_iff_exists.mp placed.live
  rw [locate?_chain placed.chain live, if_pos placed.near, ← placed.ancestors]
  have keys := placed.pathKeys
  rw [Location.pathKeys, List.map_append] at keys
  have key : [l.key] = [(g.links n).key] := (List.append_inj' keys rfl).2
  rw [← List.head_eq_of_cons_eq key]

theorem Placed.congr {above : List NodeRef} (placed : Placed g n l above)
    (parents : ∀ m, (g'.links m).parent = (g.links m).parent)
    (keys : ∀ m, (g'.links m).key = (g.links m).key)
    (tops : ∀ m, (g.links m).parent = none → (g'.links m).root = (g.links m).root)
    (roots : ∀ r, (g'.root? r).isSome = (g.root? r).isSome) : Placed g' n l above := by
  have chain := placed.chain.congr parents tops
  refine ⟨chain, chain.alive_above, placed.near, ?_, ?_, placed.depth, ?_⟩
  · rw [roots, placed.live]
  · rw [withKeys_congr keys, placed.ancestors]
  · simp only [keys, placed.pathKeys]

/-- Where nodes are depends on the parents and keys, on the roots that the tops were told, and on
which roots are live. -/
theorem locate_of_same_parents (parents : ∀ m, (g'.links m).parent = (g.links m).parent)
    (keys : ∀ m, (g'.links m).key = (g.links m).key)
    (tops : ∀ m, (g.links m).parent = none → (g'.links m).root = (g.links m).root)
    (roots : ∀ r, (g'.root? r).isSome = (g.root? r).isSome) (n : NodeRef) :
    g'.locate? n = g.locate? n := by
  have back : ∀ m, (g'.links m).parent = none → (g.links m).root = (g'.links m).root := by
    intro m top
    rw [parents] at top
    exact (tops m top).symm
  cases found : g.locate? n with
  | some l =>
    obtain ⟨above, placed⟩ := placed_of_locate found
    exact locate_of_placed (placed.congr parents keys tops roots)
  | none =>
    cases found' : g'.locate? n with
    | none => rfl
    | some l =>
      obtain ⟨above, placed⟩ := placed_of_locate found'
      have same := locate_of_placed (placed.congr (fun m => (parents m).symm)
        (fun m => (keys m).symm) back fun r => (roots r).symm)
      rw [found] at same
      cases same

theorem not_located_of_circle {m : NodeRef} {j k : Nat} (into : Descends g.Up n j m)
    (round : Descends g.Up m (k + 1) m) : g.locate? n = none := by
  cases found : g.locate? n with
  | none => rfl
  | some l =>
    obtain ⟨above, placed⟩ := placed_of_locate found
    exact absurd round (placed.chain.not_circular into)

end Places

section Nowhere
variable {g : Graph κ} {n : NodeRef} (nowhere : g.locate? n = none)
include nowhere

theorem journal_nowhere (op : Marker) (withOwn : Bool) (field : Option UInt32)
    (payload : Layout → DraftM Unit) : journal n op withOwn field payload g = .ok .unattached g := by
  rw [journal, journalBy, journalWith, locateRoot?, nowhere]
  rfl

theorem beginRecord_nowhere (withOwn : Bool) : g.beginRecord n withOwn = .ok none := by
  rw [beginRecord, nowhere]

end Nowhere

/-- The ways in which a change of a node that is in no graph can end. -/
inductive ChangedApart (g : Graph κ) (n : NodeRef) :
    EStateM.Result Error (Graph κ) RecordOutcome → Prop
  | done {g' : Graph κ} (roots : g'.roots = g.roots) : ChangedApart g n (.ok .unattached g')
  /-- The value of the node could not be brought back to memory. -/
  | lost {kind : κ} {cell : Cell (Values.Carrier kind)} {s : StoreRef} {e : Error} {g' : Graph κ}
      (content : g.content? n = some (.persistent kind cell s))
      (failed : withCell n kind cell s (Cell.beginWrite (Values.codec kind)) g = .error e g')
      (roots : g'.roots = g.roots) : ChangedApart g n (.error e g')

theorem update_nowhere {g : Graph κ} {n : NodeRef} (nowhere : g.locate? n = none)
    (change : Change κ) : ChangedApart g n (update n change g) := by
  rcases content : g.content? n with _ | b | ⟨kind, value⟩ | ⟨kind, items⟩ | ⟨kind, cell, s⟩ <;>
    simp only [update, updateFor, updateForBy, journalBy_ownHooks, Run.bind_apply, Run.get_apply,
      content]
  · exact .done rfl
  · exact .done rfl
  · simp only [journal_nowhere nowhere]
    exact .done (roots_setContent _ _ _)
  · exact .done rfl
  · have brought := brought_result content
    generalize run : withCell n kind cell s (Cell.beginWrite (Values.codec kind)) g = result
      at brought ⊢
    cases brought with
    | failed alike roots => exact .lost content run roots
    | @here value store store' found was alike =>
      have roots : (g.putCell n kind s ({ cell with state := .resident value }, store')).roots =
          g.roots := roots_putCell g _
      have nowhere' := locate?_congr alike.skeleton (fun r => by rw [root?_of_roots roots]) n
      rw [nowhere] at nowhere'
      have there := content?_putCell_self g content ({ cell with state := .resident value }, store')
      simp only [journal_nowhere nowhere', install_eq there]
      exact .done (by rw [roots_setContent, roots])

/-- The walk up from a node is exact. It finds the chain that leads from a live root down to the node
if there is one of no more than `maxWalkDepth` hops, and else nothing, as on a circle. The roots that
nodes below a top were told are nothing to it. Without a place, nothing is recorded. -/
theorem walk_exact (g : Graph κ) (n : NodeRef) :
    (∀ l, g.locate? n = some l ↔ ∃ above, Placed g n l above) ∧
      (∀ m j k, Descends g.Up n j m → Descends g.Up m (k + 1) m → g.locate? n = none) ∧
      (∀ g' : Graph κ, (∀ m, (g'.links m).parent = (g.links m).parent) →
        (∀ m, (g'.links m).key = (g.links m).key) →
        (∀ m, (g.links m).parent = none → (g'.links m).root = (g.links m).root) →
        (∀ r, (g'.root? r).isSome = (g.root? r).isSome) → g'.locate? n = g.locate? n) ∧
      (g.locate? n = none →
        (∀ op withOwn field payload,
          journal n op withOwn field payload g = .ok .unattached g) ∧
        (∀ {α : Type} (c : Codec α) (helper : Helper α), helper.run n c g = .ok .unattached g) ∧
        (∀ change, ChangedApart g n (update n change g)) ∧
        ∀ withOwn, g.beginRecord n withOwn = .ok none) := by
  refine ⟨?_, ?_, ?_, ?_⟩
  · intro l
    constructor
    · exact placed_of_locate
    · rintro ⟨above, placed⟩
      exact locate_of_placed placed
  · intro m j k into round
    exact not_located_of_circle into round
  · intro g' parents keys tops roots
    exact locate_of_same_parents parents keys tops roots n
  · intro nowhere
    refine ⟨journal_nowhere nowhere, ?_, update_nowhere nowhere, beginRecord_nowhere nowhere⟩
    intro α c helper
    rw [Helper.run_eq]
    exact journal_nowhere nowhere _ _ _ _

end Graph

end GraphJournal
