import GraphJournal.Graph.Location
import GraphJournal.Graph.Persistence
import GraphJournal.Proofs.Descent

/-!
# Root links of a forest

Every node keeps the root that it was told, but addresses are found by a climb to the top of its
parent chain. This module shows that the two agree after any calls that put nodes into a forest, take
them out and move them with all that is below. What a branch lists as its children is brought up to
date around each call, some time before or after it. Graphs with circles, and lists that stay wrong,
are NOT treated.
-/
namespace GraphJournal

set_option autoImplicit false

variable {κ : Type} [Values κ]

/-- A call that changes where a node is. -/
inductive LinkCall
  | attachToRoot (root : RootRef)
  | attachChild (parent : NodeRef) (key : Int32)
  | detach

namespace LinkCall

def parent? : LinkCall → Option NodeRef
  | attachChild parent _ => some parent
  | attachToRoot _ | detach => none

def root? : LinkCall → Option RootRef
  | attachToRoot root => some root
  | attachChild _ _ | detach => none

/-- The root that the node and everything below it are told. -/
def told (g : Graph κ) : LinkCall → Option RootRef
  | attachToRoot root => some root
  | attachChild parent _ => (g.links parent).root
  | detach => none

def run (n : NodeRef) (g : Graph κ) : LinkCall → Graph κ
  | attachToRoot root => g.attachToRoot n root
  | attachChild parent key => g.attachChild n parent key
  | detach => g.detach n

/-- The last call for a node, where the latest calls come first. A node without any stands where
detaching puts it. -/
def last : List (NodeRef × LinkCall) → NodeRef → LinkCall
  | [], _ => detach
  | (m, call) :: earlier, n => if n = m then call else last earlier n

end LinkCall

def Under (links : NodeRef → Links) (p m : NodeRef) : Prop := (links m).parent = some p

/-- The parent chain of `m` goes through `n`. -/
def Within (links : NodeRef → Links) (n m : NodeRef) : Prop := ∃ k, Descends (Under links) n k m

/-- What a branch lists as its children are the nodes whose parent it is. -/
def Lists (g : Graph κ) (p : NodeRef) : Prop := ∀ m, g.Holds p m ↔ Under g.links p m

/-- A call in a forest. `mid` is the graph at the call, in which the old parent and the new one may
have been brought up to date already, and `g'` the graph when all lists are. The new parent is not
part of what moves, and no walk is too short to get to the end of that. -/
structure Moves (n : NodeRef) (call : LinkCall) (g mid g' : Graph κ) : Prop where
  before : mid.links = g.links
  alive : (mid.node? n).isSome
  apart : ∀ p, call.parent? = some p → ¬ Within mid.links n p
  shallow : ∀ d m, Descends (Under mid.links) n d m → d ≤ maxWalkDepth
  listed : ∀ p, (mid.links n).parent ≠ some p → call.parent? ≠ some p → Lists mid p
  after : g'.links = (call.run n mid).links
  lists : ∀ p, Lists g' p

def Fresh (g : Graph κ) : Prop :=
  ∀ n, (g.links n).parent = none ∧ (g.links n).root = none ∧ g.children n = []

/-- A run of calls in a forest, the latest first. -/
inductive ForestRun (start : Graph κ) : List (NodeRef × LinkCall) → Graph κ → Prop
  | start : ForestRun start [] start
  | call {calls : List (NodeRef × LinkCall)} {n : NodeRef} {call : LinkCall} {g mid g' : Graph κ} :
      ForestRun start calls g → Moves n call g mid g' → ForestRun start ((n, call) :: calls) g'

structure Rooted (links : NodeRef → Links) (calls : List (NodeRef × LinkCall)) : Prop where
  parent : ∀ n, (links n).parent = (LinkCall.last calls n).parent?
  top : ∀ n, (links n).parent = none → (links n).root = (LinkCall.last calls n).root?
  inherits : ∀ p m, Under links p m → (links m).root = (links p).root
  grounded : ∀ n, ∃ top d, Descends (Under links) top d n ∧ (links top).parent = none

theorem rooted_of_fresh {g : Graph κ} (fresh : Fresh g) : Rooted g.links [] := by
  refine ⟨fun n => (fresh n).1, fun n _ => (fresh n).2.1, ?_, fun n => ⟨n, 0, .here, (fresh n).1⟩⟩
  intro p m under
  rw [Under, (fresh m).1] at under
  cases under

theorem lists_of_fresh {g : Graph κ} (fresh : Fresh g) (p : NodeRef) : Lists g p := by
  intro m
  rw [Graph.Holds, (fresh p).2.2, Under, (fresh m).1]
  simp

section Chains
variable {links : NodeRef → Links} {top n p m : NodeRef} {d k : Nat}

theorem descends_of_under (under : Under links p n) (chain : Descends (Under links) n k m) :
    Descends (Under links) p (k + 1) m := by
  rw [Nat.add_comm]
  exact (Descends.first under).trans chain

theorem no_circle (chain : Descends (Under links) top d n) (topmost : (links top).parent = none) :
    ¬ Descends (Under links) n (k + 1) n := by
  induction chain with
  | here =>
    intro circle
    cases circle with
    | step _ under =>
      rw [Under, topmost] at under
      cases under
  | @step d p m _ above ih =>
    intro circle
    cases circle with
    | step chain under =>
      have same := under.symm.trans above
      rw [Option.some.inj same] at chain
      exact ih (descends_of_under above chain)

theorem within_iff_of_under (under : Under links p m) (other : m ≠ n) :
    Within links n m ↔ Within links n p := by
  constructor
  · rintro ⟨k, chain⟩
    cases chain with
    | here => exact absurd rfl other
    | @step k q _ above last =>
      have same := last.symm.trans under
      rw [← Option.some.inj same]
      exact ⟨k, above⟩
  · rintro ⟨k, chain⟩
    exact ⟨k + 1, chain.step under⟩

theorem root_of_chain {calls : List (NodeRef × LinkCall)} (rooted : Rooted links calls)
    (chain : Descends (Under links) top d n) : (links n).root = (links top).root := by
  induction chain with
  | here => rfl
  | step _ under ih => rw [rooted.inherits _ _ under, ih]

end Chains

namespace LinkCall
variable (g : Graph κ) (n m : NodeRef) (call : LinkCall)

/-- Every call sets the links of its node and lets the root spread to what is below. -/
theorem run_eq : ∃ key, call.run n g =
    (g.setLinks n { parent := call.parent?, root := call.told g, key }).spread n (call.told g) := by
  cases call with
  | attachToRoot root => exact ⟨_, rfl⟩
  | attachChild parent key => exact ⟨_, rfl⟩
  | detach => exact ⟨_, rfl⟩

theorem descendants_setLinks (links : Links) : (g.setLinks n links).descendants = g.descendants := by
  funext m
  rw [Graph.descendants, Graph.descendants, g.children_setLinks]

variable {g n}

theorem parent_run (alive : (g.node? n).isSome) :
    ((call.run n g).links m).parent = if m = n then call.parent? else (g.links m).parent := by
  obtain ⟨key, same⟩ := call.run_eq g n
  rw [same, Graph.links_spread, apply_ite Links.parent, ite_self, g.links_setLinks]
  by_cases here : m = n
  · rw [if_pos ⟨here, alive⟩, if_pos here]
  · rw [if_neg fun both => here both.1, if_neg here]

theorem root_run (alive : (g.node? n).isSome) (below : m ∈ g.descendants n → (g.node? m).isSome) :
    ((call.run n g).links m).root =
      if m = n ∨ m ∈ g.descendants n then call.told g else (g.links m).root := by
  obtain ⟨key, same⟩ := call.run_eq g n
  rw [same, Graph.links_spread, descendants_setLinks, Graph.setLinks, Graph.isSome_node?_modifyNode,
    ← Graph.setLinks, g.links_setLinks]
  by_cases reached : m ∈ g.descendants n
  · rw [if_pos ⟨reached, below reached⟩, if_pos (Or.inr reached)]
  · rw [if_neg fun both => reached both.1]
    by_cases here : m = n
    · rw [if_pos ⟨here, alive⟩, if_pos (Or.inl here)]
    · rw [if_neg fun both => here both.1, if_neg (not_or.mpr ⟨here, reached⟩)]

end LinkCall

theorem alive_of_under {g : Graph κ} {p m : NodeRef} (under : Under g.links p m) :
    (g.node? m).isSome := by
  cases there : g.node? m with
  | some node => rfl
  | none =>
    rw [Under, Graph.links_of_dead there] at under
    cases under

theorem alive_of_holds {g : Graph κ} {p m : NodeRef} (holds : g.Holds p m) :
    ∃ node, g.node? p = some node := by
  cases there : g.node? p with
  | some node => exact ⟨node, rfl⟩
  | none =>
    rw [Graph.Holds, Graph.children, Graph.content?, there] at holds
    cases holds

section Step
variable {n : NodeRef} {call : LinkCall} {g mid g' : Graph κ} {calls : List (NodeRef × LinkCall)}

namespace Moves
variable (moves : Moves n call g mid g')
include moves

theorem parent_self : (g'.links n).parent = call.parent? := by
  rw [moves.after, call.parent_run n moves.alive, if_pos rfl]

theorem parent_other {m : NodeRef} (other : m ≠ n) :
    (g'.links m).parent = (mid.links m).parent := by
  rw [moves.after, call.parent_run m moves.alive, if_neg other]

theorem under_iff {p m : NodeRef} (other : m ≠ n) : Under g'.links p m ↔ Under mid.links p m := by
  rw [Under, Under, moves.parent_other other]

/-- Chains that do not touch what moves stay. -/
theorem descends_outside {top m : NodeRef} {d : Nat} (chain : Descends (Under mid.links) top d m)
    (outside : ¬ Within mid.links n m) : Descends (Under g'.links) top d m := by
  induction chain with
  | here => exact .here
  | @step d p m _ under ih =>
    have other : m ≠ n := by
      rintro rfl
      exact outside ⟨0, .here⟩
    rw [within_iff_of_under under other] at outside
    exact (ih outside).step ((moves.under_iff other).mpr under)

variable (rooted : Rooted mid.links calls)
include rooted

/-- The branches in the subtree that moves list their children rightly at the call, since neither
the old parent nor the new one is among them. -/
theorem lists_within {p : NodeRef} (inside : Within mid.links n p) : Lists mid p := by
  obtain ⟨top, d, above, topmost⟩ := rooted.grounded n
  apply moves.listed p
  · intro under
    obtain ⟨k, chain⟩ := inside
    exact no_circle above topmost (chain.step under)
  · intro new
    exact moves.apart p new inside

theorem mem_descendants (m : NodeRef) :
    m ∈ mid.descendants n ↔ ∃ k, 1 ≤ k ∧ Descends (Under mid.links) n k m := by
  rw [Graph.mem_descendants]
  constructor
  · rintro ⟨k, low, -, descent⟩
    refine ⟨k, low, descent.imp ?_⟩
    intro j p q _ chain holds
    exact (moves.lists_within rooted ⟨j, chain⟩ q).mp holds
  · rintro ⟨k, low, chain⟩
    refine ⟨k, low, moves.shallow k m chain, chain.imp ?_⟩
    intro j p q chain _ under
    exact (moves.lists_within rooted ⟨j, chain⟩ q).mpr under

theorem alive_of_mem_descendants (m : NodeRef) (mem : m ∈ mid.descendants n) :
    (mid.node? m).isSome := by
  obtain ⟨k, low, chain⟩ := (moves.mem_descendants rooted m).mp mem
  cases chain with
  | here => omega
  | step _ under => exact alive_of_under under

theorem root_inside {m : NodeRef} (inside : Within mid.links n m) :
    (g'.links m).root = call.told mid := by
  rw [moves.after, call.root_run m moves.alive (moves.alive_of_mem_descendants rooted m)]
  apply if_pos
  obtain ⟨k, chain⟩ := inside
  cases k with
  | zero => exact Or.inl chain.eq_of_zero
  | succ k => exact Or.inr ((moves.mem_descendants rooted m).mpr ⟨k + 1, by omega, chain⟩)

theorem root_outside {m : NodeRef} (outside : ¬ Within mid.links n m) :
    (g'.links m).root = (mid.links m).root := by
  rw [moves.after, call.root_run m moves.alive (moves.alive_of_mem_descendants rooted m)]
  apply if_neg
  rintro (rfl | mem)
  · exact outside ⟨0, .here⟩
  · obtain ⟨k, -, chain⟩ := (moves.mem_descendants rooted m).mp mem
    exact outside ⟨k, chain⟩

theorem descends_inside {k : Nat} {m : NodeRef} (chain : Descends (Under mid.links) n k m) :
    Descends (Under g'.links) n k m := by
  obtain ⟨top, d, above, topmost⟩ := rooted.grounded n
  apply chain.imp
  intro j p q chain _ under
  have other : q ≠ n := by
    rintro rfl
    exact no_circle above topmost (chain.step under)
  exact (moves.under_iff other).mpr under

theorem grounded_outside {m : NodeRef} (outside : ¬ Within mid.links n m) :
    ∃ top d, Descends (Under g'.links) top d m ∧ (g'.links top).parent = none := by
  obtain ⟨top, d, chain, topmost⟩ := rooted.grounded m
  refine ⟨top, d, moves.descends_outside chain outside, ?_⟩
  have other : top ≠ n := by
    rintro rfl
    exact outside ⟨d, chain⟩
  rw [moves.parent_other other, topmost]

theorem grounded_self : ∃ top d, Descends (Under g'.links) top d n ∧ (g'.links top).parent = none := by
  cases parent : call.parent? with
  | none => exact ⟨n, 0, .here, by rw [moves.parent_self, parent]⟩
  | some p =>
    obtain ⟨top, d, chain, topmost⟩ := moves.grounded_outside rooted (moves.apart p parent)
    refine ⟨top, d + 1, chain.step ?_, topmost⟩
    rw [Under, moves.parent_self, parent]

theorem grounded_after (m : NodeRef) :
    ∃ top d, Descends (Under g'.links) top d m ∧ (g'.links top).parent = none := by
  by_cases inside : Within mid.links n m
  · obtain ⟨k, chain⟩ := inside
    obtain ⟨top, d, above, topmost⟩ := moves.grounded_self rooted
    exact ⟨top, d + k, above.trans (moves.descends_inside rooted chain), topmost⟩
  · exact moves.grounded_outside rooted inside

theorem inherits_after (p m : NodeRef) (under : Under g'.links p m) :
    (g'.links m).root = (g'.links p).root := by
  by_cases here : m = n
  · -- The node itself takes over the root of its new parent, which does not move.
    subst here
    have parent : call.parent? = some p := by
      rw [← moves.parent_self]
      exact under
    rw [moves.root_inside rooted ⟨0, .here⟩, moves.root_outside rooted (moves.apart p parent)]
    cases call with
    | attachChild q key =>
      cases parent
      rfl
    | attachToRoot _ | detach => cases parent
  · have before : Under mid.links p m := (moves.under_iff here).mp under
    have both := within_iff_of_under before here
    by_cases inside : Within mid.links n m
    · rw [moves.root_inside rooted inside, moves.root_inside rooted (both.mp inside)]
    · rw [moves.root_outside rooted inside, moves.root_outside rooted (mt both.mpr inside),
        rooted.inherits p m before]

theorem top_after (m : NodeRef) (topmost : (g'.links m).parent = none) :
    (g'.links m).root = (LinkCall.last ((n, call) :: calls) m).root? := by
  rw [LinkCall.last]
  by_cases here : m = n
  · subst here
    rw [moves.parent_self] at topmost
    rw [if_pos rfl, moves.root_inside rooted ⟨0, .here⟩]
    cases call with
    | attachChild => cases topmost
    | attachToRoot _ | detach => rfl
  · rw [moves.parent_other here] at topmost
    have outside : ¬ Within mid.links n m := by
      rintro ⟨k, chain⟩
      cases chain with
      | here => exact here rfl
      | step _ under =>
        rw [Under, topmost] at under
        cases under
    rw [if_neg here, moves.root_outside rooted outside, rooted.top m topmost]

theorem rooted_after : Rooted g'.links ((n, call) :: calls) := by
  refine ⟨?_, moves.top_after rooted, moves.inherits_after rooted, moves.grounded_after rooted⟩
  intro m
  rw [LinkCall.last]
  by_cases here : m = n
  · rw [if_pos here, here, moves.parent_self]
  · rw [if_neg here, moves.parent_other here, rooted.parent m]

end Moves

end Step

theorem rooted_run {start g : Graph κ} {calls : List (NodeRef × LinkCall)} (fresh : Fresh start)
    (run : ForestRun start calls g) : Rooted g.links calls ∧ ∀ p, Lists g p := by
  induction run with
  | start => exact ⟨rooted_of_fresh fresh, lists_of_fresh fresh⟩
  | call _ moves ih =>
    have rooted := ih.1
    rw [← moves.before] at rooted
    exact ⟨moves.rooted_after rooted, moves.lists⟩

section Climbing
variable {g : Graph κ} {top n : NodeRef} {d : Nat}

theorem climb_of_chain (lists : ∀ p, Lists g p) (topmost : (g.links top).parent = none)
    (chain : Descends (Under g.links) top d n) {height : Nat} (enough : d ≤ height)
    (below : List (NodeRef × Int32)) :
    ∃ ancestors, g.climb height (g.links n) below = some ((g.links top).root, ancestors) := by
  induction chain generalizing height below with
  | here =>
    unfold Graph.climb
    rw [topmost]
    exact ⟨below, rfl⟩
  | @step d p m _ under ih =>
    obtain ⟨node, there⟩ := alive_of_holds ((lists p m).mpr under)
    obtain ⟨height, rfl⟩ := Nat.exists_eq_add_of_le' (Nat.lt_of_lt_of_le (Nat.succ_pos d) enough)
    unfold Graph.climb
    rw [under]
    dsimp only
    rw [there]
    dsimp only
    rw [← Graph.links_of_node? there]
    exact ih (by omega) _

theorem locate?_of_chain (lists : ∀ p, Lists g p) (topmost : (g.links top).parent = none)
    (chain : Descends (Under g.links) top d n) (near : d ≤ maxWalkDepth)
    (same : (g.links n).root = (g.links top).root) :
    (g.locate? n).map (·.root) = (g.liveRoot? n).map (·.1) := by
  obtain ⟨ancestors, climbed⟩ := climb_of_chain lists topmost chain near []
  rw [Graph.locate?, climbed, Graph.liveRoot?, same]
  cases told : (g.links top).root with
  | none => rfl
  | some r => cases there : g.root? r <;> simp [there]

theorem scheduleSave_eq : g.scheduleSave n =
    match (g.liveRoot? n).map (·.1) with
    | some r => g.enqueue r n
    | none => (false, g) := by
  rw [Graph.scheduleSave, Graph.liveRoot?]
  cases (g.links n).root with
  | none => rfl
  | some r =>
    cases there : g.root? r with
    | none => simp [Graph.enqueue, there]
    | some root => simp [there]

theorem scheduleSave_of_located
    (located : (g.locate? n).map (·.root) = (g.liveRoot? n).map (·.1)) :
    g.scheduleSave n =
      match g.locate? n with
      | some location => g.enqueue location.root n
      | none => (false, g) := by
  rw [scheduleSave_eq, ← located]
  cases g.locate? n <;> rfl

end Climbing

/-- What a node and the top of its graph, so many levels above it, have to do with each other. -/
structure Agrees (g : Graph κ) (calls : List (NodeRef × LinkCall)) (n top : NodeRef) (d : Nat) :
    Prop where
  chain : Descends (Under g.links) top d n
  topmost : (g.links top).parent = none
  root : (g.links n).root = (g.links top).root
  given : (g.links top).root = (LinkCall.last calls top).root?
  located : d ≤ maxWalkDepth → (g.locate? n).map (·.root) = (g.liveRoot? n).map (·.1)
  queued : d ≤ maxWalkDepth → g.scheduleSave n =
    match g.locate? n with
    | some location => g.enqueue location.root n
    | none => (false, g)

/-- After any calls in a forest, a node has the root of its parent, and so that of the top of its
graph: the one that the last call for the top attached it to, or none. Unless the node is too far
down for a climb, its address leads to that root and its saves are queued there. -/
theorem forest_run_roots {start g : Graph κ} {calls : List (NodeRef × LinkCall)}
    (fresh : Fresh start) (run : ForestRun start calls g) (n : NodeRef) :
    (∀ p, (g.links n).parent = some p → (g.links n).root = (g.links p).root) ∧
      ∃ top d, Agrees g calls n top d := by
  obtain ⟨rooted, lists⟩ := rooted_run fresh run
  obtain ⟨top, d, chain, topmost⟩ := rooted.grounded n
  have same := root_of_chain rooted chain
  have located : d ≤ maxWalkDepth → (g.locate? n).map (·.root) = (g.liveRoot? n).map (·.1) :=
    fun near => locate?_of_chain lists topmost chain near same
  refine ⟨fun p => rooted.inherits p n, top, d, chain, topmost, same, rooted.top top topmost,
    located, ?_⟩
  intro near
  exact scheduleSave_of_located (located near)

section Errands

def relist (g : Graph κ) (branches : List (NodeRef × Branch)) : Graph κ :=
  branches.foldl (fun g b => g.setContent b.1 (.branch b.2)) g

/-- A call with the branches that are brought up to date before and after it. -/
structure Errand where
  node : NodeRef
  call : LinkCall
  early : List (NodeRef × Branch) := []
  late : List (NodeRef × Branch) := []

def Errand.run (g : Graph κ) (e : Errand) : Graph κ :=
  relist (e.call.run e.node (relist g e.early)) e.late

/-- As `Lists` for all branches, but to be found out by looking at the nodes there are. -/
abbrev ListsAll (g : Graph κ) : Prop :=
  (∀ i < g.nodes.size, ∀ m ∈ g.children ⟨i⟩, (g.links m).parent = some ⟨i⟩) ∧
    ∀ i < g.nodes.size, ∀ p ∈ (g.links ⟨i⟩).parent, ⟨i⟩ ∈ g.children p

/-- An errand in a small forest in which parents are older than their children. -/
abbrev Errand.Fits (g : Graph κ) (e : Errand) : Prop :=
  (g.node? e.node).isSome ∧
    (∀ p ∈ e.call.parent?, p.index < e.node.index) ∧
    (∀ b ∈ e.early, (g.links e.node).parent = some b.1 ∨ e.call.parent? = some b.1) ∧
    g.nodes.size ≤ maxWalkDepth ∧
    (∀ i < g.nodes.size, ∀ p ∈ (g.links ⟨i⟩).parent, p.index < i) ∧
    ListsAll (e.run g)

variable {g : Graph κ}

theorem index_lt_of_alive {n : NodeRef} (alive : (g.node? n).isSome) : n.index < g.nodes.size := by
  obtain ⟨node, there⟩ := Option.isSome_iff_exists.mp alive
  exact (Array.getElem?_eq_some_iff.mp (Graph.node?_eq_some_iff.mp there)).1

theorem lists_of_listsAll (all : ListsAll g) (p : NodeRef) : Lists g p := by
  intro m
  constructor
  · intro holds
    obtain ⟨node, there⟩ := alive_of_holds holds
    exact all.1 p.index (index_lt_of_alive (by rw [there]; rfl)) m holds
  · intro under
    exact all.2 m.index (index_lt_of_alive (alive_of_under under)) p under

theorem links_relist (branches : List (NodeRef × Branch)) : (relist g branches).links = g.links := by
  induction branches generalizing g with
  | nil => rfl
  | cons b branches ih =>
    rw [relist, List.foldl_cons, ← relist, ih]
    funext m
    rw [Graph.links, Graph.setContent, Graph.node?_modifyNode]
    split
    · cases there : g.node? m <;> simp [Graph.links, there]
    · rfl

theorem isSome_node?_relist (branches : List (NodeRef × Branch)) (m : NodeRef) :
    ((relist g branches).node? m).isSome = (g.node? m).isSome := by
  induction branches generalizing g with
  | nil => rfl
  | cons b branches ih =>
    rw [relist, List.foldl_cons, ← relist, ih, Graph.setContent, Graph.isSome_node?_modifyNode]

theorem children_relist {branches : List (NodeRef × Branch)} {p : NodeRef}
    (other : ∀ b ∈ branches, b.1 ≠ p) : (relist g branches).children p = g.children p := by
  induction branches generalizing g with
  | nil => rfl
  | cons b branches ih =>
    have here : p ≠ b.1 := (other b List.mem_cons_self).symm
    rw [relist, List.foldl_cons, ← relist, ih fun b mem => other b (List.mem_cons_of_mem _ mem)]
    rw [Graph.children, Graph.children, Graph.content?, Graph.content?, Graph.setContent,
      Graph.node?_modifyNode, if_neg here]

theorem index_of_descends {n m : NodeRef} {k : Nat}
    (older : ∀ i < g.nodes.size, ∀ p ∈ (g.links ⟨i⟩).parent, p.index < i)
    (chain : Descends (Under g.links) n k m) :
    n.index + k ≤ m.index ∧ (k = 0 ∨ m.index < g.nodes.size) := by
  induction chain with
  | here => exact ⟨Nat.le_refl _, Or.inl rfl⟩
  | @step k p m _ under ih =>
    have bound := index_lt_of_alive (alive_of_under under)
    have less : p.index < m.index := older m.index bound p under
    exact ⟨by omega, Or.inr bound⟩

theorem moves_of_fits (lists : ∀ p, Lists g p) {e : Errand} (fits : e.Fits g) :
    Moves e.node e.call g (relist g e.early) (e.run g) := by
  obtain ⟨alive, target, early, small, older, after⟩ := fits
  have same := links_relist (g := g) e.early
  refine ⟨same, ?_, ?_, ?_, ?_, links_relist e.late, lists_of_listsAll after⟩
  · rw [isSome_node?_relist, alive]
  · rintro p new ⟨k, chain⟩
    rw [same] at chain
    have low := target p new
    have high := (index_of_descends older chain).1
    omega
  · intro k m chain
    rw [same] at chain
    obtain ⟨high, rfl | bound⟩ := index_of_descends older chain
    · exact Nat.zero_le _
    · omega
  · intro p old new m
    have other : ∀ b ∈ e.early, b.1 ≠ p := by
      rintro b mem rfl
      rw [same] at old
      exact (early b mem).elim old new
    rw [Graph.Holds, children_relist other, same]
    exact lists p m

def runErrands (es : List Errand) (g : Graph κ) : Graph κ := es.foldl Errand.run g

def callsOf (es : List Errand) (calls : List (NodeRef × LinkCall)) : List (NodeRef × LinkCall) :=
  es.foldl (fun calls e => (e.node, e.call) :: calls) calls

def AllFit : List Errand → Graph κ → Prop
  | [], _ => True
  | e :: es, g => e.Fits g ∧ AllFit es (e.run g)

theorem forestRun_of_allFit {start : Graph κ} {calls : List (NodeRef × LinkCall)}
    (run : ForestRun start calls g) (lists : ∀ p, Lists g p) {es : List Errand}
    (fit : AllFit es g) : ForestRun start (callsOf es calls) (runErrands es g) := by
  induction es generalizing g calls with
  | nil => exact run
  | cons e es ih =>
    have moves := moves_of_fits lists fit.1
    exact ih (run.call moves) moves.lists fit.2

end Errands

/-- Three branches and a root, on their own. -/
def grove : Graph ValueType where
  nodes := #[some { content := .branch {} }, some { content := .branch {} },
    some { content := .branch {} }]
  roots := #[some (.journal { config := .forTesting } {})]

def holding (children : List (UInt32 × NodeRef)) : Branch where
  keyed := children.foldl (fun keyed child => keyed.insert child.1 child.2) .empty

/-- A chain of three is put together from below, attached by its top, and then its last link is moved
up, and its middle link taken out. -/
def groveErrands : List Errand :=
  [{ node := ⟨2⟩, call := .attachChild ⟨1⟩ 7, early := [(⟨1⟩, holding [(7, ⟨2⟩)])] },
   { node := ⟨1⟩, call := .attachChild ⟨0⟩ 5, late := [(⟨0⟩, holding [(5, ⟨1⟩)])] },
   { node := ⟨0⟩, call := .attachToRoot ⟨0⟩ },
   { node := ⟨2⟩, call := .attachChild ⟨0⟩ 6, early := [(⟨1⟩, holding [])],
     late := [(⟨0⟩, holding [(5, ⟨1⟩), (6, ⟨2⟩)])] },
   { node := ⟨1⟩, call := .detach, early := [(⟨0⟩, holding [(6, ⟨2⟩)])] }]

theorem fresh_grove : Fresh grove := by
  rintro ⟨_ | _ | _ | i⟩ <;> exact ⟨rfl, rfl, rfl⟩

theorem grove_fits : AllFit groveErrands grove := by
  refine ⟨?_, ?_, ?_, ?_, ?_, trivial⟩ <;> decide +kernel

theorem grove_roots : Fresh grove ∧
    ForestRun grove (callsOf groveErrands []) (runErrands groveErrands grove) ∧
    ((runErrands groveErrands grove).liveRoot? ⟨2⟩).map (·.1) = some ⟨0⟩ ∧
    (∀ p, ((runErrands groveErrands grove).links ⟨2⟩).parent = some p →
      ((runErrands groveErrands grove).links ⟨2⟩).root =
        ((runErrands groveErrands grove).links p).root) ∧
    ∃ top d, Agrees (runErrands groveErrands grove) (callsOf groveErrands []) ⟨2⟩ top d := by
  have run := forestRun_of_allFit .start (lists_of_fresh fresh_grove) grove_fits
  have roots := forest_run_roots fresh_grove run ⟨2⟩
  exact ⟨fresh_grove, run, by decide +kernel, roots.1, roots.2⟩

end GraphJournal
