import GraphJournal.Graph.Record
import GraphJournal.Proofs.Skeleton
import GraphJournal.Segment

/-!
# Trees and paths

Paths downward from the top of a tree, and what the links upward have to say for the address of a
node to be the path that leads to it. Who puts the links there is no matter of this module, and
neither are nodes that can be reached from nowhere.
-/
namespace GraphJournal

set_option autoImplicit false

/-- One level of a path downward. -/
inductive PathStep
  | key (key : UInt32)
  | locator (address : Bytes)

namespace PathStep

def segment : PathStep → Segment
  | key k => .key k
  | locator address => .locator address

def bytes (step : PathStep) : Bytes := step.segment.encode

theorem segment_injective (step other : PathStep) (same : step.segment = other.segment) :
    step = other := by
  cases step <;> cases other <;> cases same <;> rfl

end PathStep

namespace Graph

variable {κ : Type} [Values κ]

def Shape.child? : Option (Shape κ) → PathStep → Option NodeRef
  | some (.branch b), .key k => b.keyed.get? k
  | some (.branch b), .locator address => b.named.get? address
  | _, _ => none

def child? (g : Graph κ) (n : NodeRef) (step : PathStep) : Option NodeRef :=
  Shape.child? (g.shape? n) step

/-- A path leads from the top to a node. -/
inductive Reaches (g : Graph κ) (top : NodeRef) : List PathStep → NodeRef → Prop
  | top : Reaches g top [] top
  | child {path : List PathStep} {n m : NodeRef} {step : PathStep} :
      Reaches g top path n → g.child? n step = some m → Reaches g top (path ++ [step]) m

/-- A node says by itself which step leads to it. -/
def Answers (g : Graph κ) (m : NodeRef) : PathStep → Prop
  | .key k => 0 ≤ (g.links m).key ∧ (g.links m).key.toUInt32 = k
  | .locator address =>
    (g.links m).key < 0 ∧ ∃ b, g.shape? m = some (.branch b) ∧ b.address = .locator address

/-- A tree under a root, whose nodes know their places in it. -/
structure Attached (g : Graph κ) (top : NodeRef) (r : RootRef) : Prop where
  parent : (g.links top).parent = none
  root : (g.links top).root = some r
  key : (g.links top).key < 0
  plain : g.ownAddress top = .ok []
  members : ∀ path n step m, Reaches g top path n → g.child? n step = some m →
    (g.links m).parent = some n ∧ Answers g m step

section Deterministic
variable {g : Graph κ} {top n m : NodeRef} {path : List PathStep}

theorem eq_top_of_reaches (h : Reaches g top [] n) : n = top := by
  generalize whole : ([] : List PathStep) = path at h
  cases h with
  | top => rfl
  | child above found => simp at whole

/-- A path that leads somewhere leads to the node above on the way. -/
theorem above_of_reaches {step : PathStep} (h : Reaches g top (path ++ [step]) m) :
    ∃ n, Reaches g top path n ∧ g.child? n step = some m := by
  generalize whole : path ++ [step] = longer at h
  cases h with
  | top => simp at whole
  | child above found =>
    obtain ⟨rfl, last⟩ := List.append_inj' whole rfl
    cases last
    exact ⟨_, above, found⟩

/-- A path leads to one node. -/
theorem node_unique (h : Reaches g top path n) (h' : Reaches g top path m) : n = m := by
  induction h generalizing m with
  | top => exact (eq_top_of_reaches h').symm
  | child above found ih =>
    obtain ⟨p, above', found'⟩ := above_of_reaches h'
    rw [ih above', found'] at found
    exact (Option.some.inj found).symm

end Deterministic

section SameSkeleton
variable {g g' : Graph κ} (same : g'.skeleton = g.skeleton)
include same

theorem child?_congr (n : NodeRef) (step : PathStep) : g'.child? n step = g.child? n step := by
  rw [child?, child?, shape?_congr same]

theorem reaches_congr {top n : NodeRef} {path : List PathStep} (h : Reaches g top path n) :
    Reaches g' top path n := by
  induction h with
  | top => exact .top
  | child _ found ih => exact ih.child (by rw [child?_congr same, found])

theorem answers_congr {m : NodeRef} {step : PathStep} (h : Answers g m step) :
    Answers g' m step := by
  cases step with
  | key k => simpa only [Answers, links_congr same] using h
  | locator address => simpa only [Answers, links_congr same, shape?_congr same] using h

theorem attached_congr {top : NodeRef} {r : RootRef} (h : Attached g top r) :
    Attached g' top r := by
  constructor
  · rw [links_congr same, h.parent]
  · rw [links_congr same, h.root]
  · rw [links_congr same]
    exact h.key
  · rw [ownAddress_congr same, h.plain]
  · intro path n step m reaches found
    rw [child?_congr same] at found
    obtain ⟨parent, answers⟩ := h.members path n step m (reaches_congr same.symm reaches) found
    exact ⟨by rw [links_congr same, parent], answers_congr same answers⟩

end SameSkeleton

section Attached
variable {g : Graph κ} {top : NodeRef} {r : RootRef} (attached : Attached g top r)

theorem segment_of_answers {m : NodeRef} {step : PathStep} (h : Answers g m step) :
    g.segment m (g.links m).key = .ok step.bytes := by
  cases step with
  | key k =>
    obtain ⟨nonnegative, rfl⟩ := h
    rw [segment, if_pos nonnegative]
    rfl
  | locator address =>
    obtain ⟨negative, b, shape, hook⟩ := h
    rw [segment, if_neg (Int32.not_le.mpr negative), ownAddress_eq, shape, Shape.ownAddress, hook]
    rfl

theorem answers_unique {m : NodeRef} {step other : PathStep} (h : Answers g m step)
    (h' : Answers g m other) : step = other := by
  cases step with
  | key k =>
    cases other with
    | key k' => rw [← h.2, ← h'.2]
    | locator address => exact absurd h.1 (Int32.not_le.mpr h'.1)
  | locator address =>
    cases other with
    | key k' => exact absurd h'.1 (Int32.not_le.mpr h.1)
    | locator address' =>
      obtain ⟨-, b, shape, hook⟩ := h
      obtain ⟨-, b', shape', hook'⟩ := h'
      rw [shape] at shape'
      cases shape'
      rw [hook] at hook'
      cases hook'
      rfl

include attached

/-- No two paths lead to one node: its links give the last step and the node above. -/
theorem path_unique {n : NodeRef} {path other : List PathStep} (h : Reaches g top path n)
    (h' : Reaches g top other n) : path = other := by
  induction h generalizing other with
  | top =>
    cases h' with
    | top => rfl
    | child above found =>
      have linked := (attached.members _ _ _ _ above found).1
      rw [attached.parent] at linked
      cases linked
  | child above found ih =>
    have here := attached.members _ _ _ _ above found
    cases h' with
    | top =>
      rw [attached.parent] at here
      cases here.1
    | child above' found' =>
      have there := attached.members _ _ _ _ above' found'
      have parent := here.1
      rw [there.1, Option.some.injEq] at parent
      subst parent
      rw [ih above', answers_unique here.2 there.2]

/-- A climb from a node goes through the nodes of its path, and their steps make up the path. -/
theorem climb_of_reaches {n : NodeRef} {path : List PathStep} (reaches : Reaches g top path n)
    {height : Nat} {below ancestors : List (NodeRef × Int32)} {found : Option RootRef}
    (climbed : g.climb height (g.links n) below = some (found, ancestors)) :
    found = some r ∧ ∃ above steps own, ancestors = above ++ below ∧
      above.mapM (fun a => g.segment a.1 a.2) = .ok steps ∧
      g.segment n (g.links n).key = .ok own ∧ steps.flatten ++ own = path.flatMap PathStep.bytes := by
  induction reaches generalizing height below with
  | top =>
    unfold climb at climbed
    rw [attached.parent] at climbed
    simp only [Option.some.injEq, Prod.mk.injEq] at climbed
    obtain ⟨rfl, rfl⟩ := climbed
    refine ⟨attached.root, [], [], [], rfl, rfl, ?_, rfl⟩
    rw [segment, if_neg (Int32.not_le.mpr attached.key), attached.plain]
  | @child path p m step above child ih =>
    obtain ⟨parent, answers⟩ := attached.members _ _ _ _ above child
    unfold climb at climbed
    rw [parent] at climbed
    cases height with
    | zero => cases climbed
    | succ height =>
      dsimp only at climbed
      cases node : g.node? p with
      | none =>
        rw [node] at climbed
        cases climbed
      | some node' =>
        have links : g.links p = node'.links := by simp only [Graph.links, node]; rfl
        rw [node] at climbed
        dsimp only at climbed
        rw [← links] at climbed
        obtain ⟨root, higher, steps, own, rfl, ran, last, whole⟩ := ih climbed
        refine ⟨root, higher ++ [(p, (g.links p).key)], steps ++ [own], step.bytes, ?_, ?_,
          segment_of_answers answers, ?_⟩
        · rw [List.append_assoc]
          rfl
        · rw [List.mapM_append, ran]
          simp [last, bind, Except.bind, pure, Except.pure]
        · rw [List.flatten_append, List.flatMap_append, ← whole]
          simp

/-- The address of a node in a tree is the path that leads to it. -/
theorem address_of_reaches {n : NodeRef} {path : List PathStep} (reaches : Reaches g top path n)
    {location : Location} (place : g.locate? n = some location) :
    location.root = r ∧ g.address n location true = .ok (path.flatMap PathStep.bytes) := by
  unfold locate? at place
  cases climbed : g.climb maxWalkDepth (g.links n) [] with
  | none =>
    rw [climbed] at place
    cases place
  | some found =>
    obtain ⟨root, ancestors⟩ := found
    obtain ⟨rfl, above, steps, own, rfl, ran, last, whole⟩ :=
      climb_of_reaches attached reaches climbed
    rw [climbed] at place
    dsimp only at place
    split at place
    · cases place
      refine ⟨rfl, ?_⟩
      rw [List.append_nil]
      simp only [address, ran, last, if_true, bind, Except.bind, pure, Except.pure, whole]
    · cases place

end Attached

section Listing

def Shape.steps : Option (Shape κ) → List (PathStep × NodeRef)
  | some (.branch b) =>
    b.keyed.entries.map (fun e => (.key e.1, e.2)) ++
      b.named.entries.map fun e => (.locator e.1, e.2)
  | _ => []

/-- Every step down from a node that there is, so that a given graph can be looked through. -/
def steps (g : Graph κ) : List (NodeRef × PathStep × NodeRef) :=
  (List.range g.nodes.size).flatMap fun i => (Shape.steps (g.shape? ⟨i⟩)).map (⟨i⟩, ·)

omit [Values κ] in
theorem mem_shape_steps {shape : Option (Shape κ)} {step : PathStep} {m : NodeRef}
    (child : Shape.child? shape step = some m) : (step, m) ∈ Shape.steps shape := by
  rcases shape with _ | b | _ | _ | _
  · cases step <;> cases child
  · cases step with
    | key k =>
      apply List.mem_append_left
      exact List.mem_map.mpr ⟨(k, m), OrderedMap.mem_of_get? child, rfl⟩
    | locator address =>
      apply List.mem_append_right
      exact List.mem_map.mpr ⟨(address, m), OrderedMap.mem_of_get? child, rfl⟩
  all_goals cases step <;> cases child

theorem mem_steps {g : Graph κ} {n m : NodeRef} {step : PathStep}
    (child : g.child? n step = some m) : (n, step, m) ∈ g.steps := by
  have bound : n.index < g.nodes.size := by
    apply Nat.lt_of_not_le
    intro beyond
    have missing : g.shape? n = none := by
      rw [shape?, content?, node?, Array.getElem?_eq_none beyond]
      rfl
    rw [child?, missing] at child
    cases step <;> cases child
  apply List.mem_flatMap.mpr
  exact ⟨n.index, List.mem_range.mpr bound, List.mem_map.mpr ⟨_, mem_shape_steps child, rfl⟩⟩

/-- A node that is reached is the top, or a step leads to it. -/
theorem mem_of_reaches {g : Graph κ} {top n : NodeRef} {path : List PathStep}
    (reaches : Reaches g top path n) : n = top ∨ n ∈ g.steps.map (·.2.2) := by
  cases reaches with
  | top => exact Or.inl rfl
  | child above child => exact Or.inr (List.mem_map.mpr ⟨_, mem_steps child, rfl⟩)

/-- Which nodes are reached can be read off the steps. -/
theorem among_steps {g : Graph κ} {top n : NodeRef} {path : List PathStep} {below : List NodeRef}
    (steps : g.steps.map (·.2.2) = below) (reaches : Reaches g top path n) : n ∈ top :: below := by
  rw [List.mem_cons, ← steps]
  exact mem_of_reaches reaches

theorem attached_of_steps {g : Graph κ} {top : NodeRef} {r : RootRef}
    (parent : (g.links top).parent = none) (root : (g.links top).root = some r)
    (key : (g.links top).key < 0) (plain : g.ownAddress top = .ok [])
    (members : ∀ e ∈ g.steps, (g.links e.2.2).parent = some e.1 ∧ Answers g e.2.2 e.2.1) :
    Attached g top r :=
  ⟨parent, root, key, plain, fun _ _ _ _ _ child => members _ (mem_steps child)⟩

instance (g : Graph κ) (m : NodeRef) : (step : PathStep) → Decidable (Answers g m step)
  | .key k => inferInstanceAs (Decidable (0 ≤ (g.links m).key ∧ (g.links m).key.toUInt32 = k))
  | .locator address =>
    match shape : g.shape? m with
    | some (.branch b) =>
      decidable_of_iff ((g.links m).key < 0 ∧ b.address = .locator address) (by
        simp only [Answers, shape, Option.some.injEq, Shape.branch.injEq, exists_eq_left'])
    | some (.value _) | some (.list _) | some (.persistent _ _ _ _ _) | none =>
      isFalse (by simp [Answers, shape])

end Listing

end Graph

end GraphJournal
