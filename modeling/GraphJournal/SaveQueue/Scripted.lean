import GraphJournal.SaveQueue

/-!
Nodes that only act being saved: each answers its saves as a script says, and may push other nodes
onto the queue while it does. With them a queue can be run through every course that its passes can
take.
-/
namespace GraphJournal

/-- What a scripted node answers when it is saved. -/
inductive ScriptedAnswer
  | outcome (outcome : SaveOutcome)
  | fail
  deriving DecidableEq, Repr

/-- One line of a script: the node to push first, if any, and the answer. -/
structure ScriptLine where
  answer : ScriptedAnswer
  pushes? : Option String := none
  deriving DecidableEq, Repr

namespace ScriptLine

def answer? : String → Option ScriptedAnswer
  | "stored" => some (.outcome .stored)
  | "released" => some (.outcome .released)
  | "skipped" => some (.outcome .skipped)
  | "rejected" => some (.outcome .rejected)
  | "error" => some .fail
  | _ => none

/-- The line written as a word, or as a word, a plus sign and the name of the node to push. -/
def ofText? (text : String) : Option ScriptLine :=
  match text.splitOn "+" with
  | [] => none
  | [word] => (answer? word).map ({ answer := · })
  | word :: name => (answer? word).map ({ answer := ·, pushes? := some ("+".intercalate name) })

end ScriptLine

/-- A node that only acts being saved. -/
structure ScriptedNode where
  id : NodeId
  /-- The coming answers; after them the node is always stored. `none` for a node without a store of
  its own, which is not counted among the saves. -/
  script? : Option (List ScriptLine)
  deriving DecidableEq, Repr

/-- A queue and the nodes that can be on it. -/
structure SaveStage where
  /-- Every node ever made, by handle. -/
  nodes : Array ScriptedNode := #[]
  names : List (String × Nat) := []
  saves : List (NodeId × SaveMode) := []

namespace SaveStage

def handle? (s : SaveStage) (name : String) : Option Nat :=
  (s.names.find? (·.1 = name)).map (·.2)

/-- Whether a node still has a name, without which it is dropped. -/
def isAlive (s : SaveStage) (handle : Nat) : Bool := s.names.any (·.2 == handle)

def drop (s : SaveStage) (name : String) : Bool × SaveStage :=
  ((s.handle? name).isSome, { s with names := s.names.filter (·.1 ≠ name) })

def add (s : SaveStage) (name : String) (node : ScriptedNode) : SaveStage :=
  let s := (s.drop name).2
  { s with nodes := s.nodes.push node, names := (name, s.nodes.size) :: s.names }

/-- Pushes the node of a name onto the queue, if there is one. -/
def push (name : String) (s : SaveStage × SaveQueue Nat) : Option Bool × (SaveStage × SaveQueue Nat) :=
  match s.1.handle? name with
  | none => (none, s)
  | some handle =>
    match s.1.nodes[handle]? with
    | none => (none, s)
    | some node =>
      let (fresh, queue) := s.2.push node.id handle
      (some fresh, (s.1, queue))

def save (handle : Nat) (mode : SaveMode) (s : SaveStage × SaveQueue Nat) :
    Except Error SaveOutcome × (SaveStage × SaveQueue Nat) :=
  match s.1.nodes[handle]? with
  | none => (.ok .stored, s)
  | some { script? := none, .. } => (.ok .stored, s)
  | some { script? := some script, id } =>
    let stage := { s.1 with
      nodes := s.1.nodes.setIfInBounds handle { id, script? := some script.tail }
      saves := (id, mode) :: s.1.saves }
    let line := script.headD { answer := .outcome .stored }
    let (_, s) := match line.pushes? with
      | some name => push name (stage, s.2)
      | none => (none, (stage, s.2))
    match line.answer with
    | .outcome outcome => (.ok outcome, s)
    | .fail => (.error (.config (.reported "scripted failure")), s)

/-- The stage as the place where the queue's nodes live. -/
def nodesOf : SaveQueue.Nodes Nat SaveStage := { isAlive, save }

end SaveStage

end GraphJournal
