import GraphJournal.OrderedMap
import GraphJournal.Vocabulary

/-!
Stores keep the bytes of nodes whose data is not in memory. A store that fails keeps the state it
reached, so what a failed call has already done stays done.
-/
namespace GraphJournal

instance : Std.TransOrd NodeId where
  eq_swap {a b} := Std.OrientedOrd.eq_swap (a := a.raw) (b := b.raw)
  isLE_trans {a b c} := Std.TransOrd.isLE_trans (a := a.raw) (b := b.raw) (c := c.raw)

instance : Std.LawfulEqOrd NodeId where
  compare_self {a} := Std.ReflOrd.compare_self (a := a.raw)
  eq_of_compare {a b} h := by
    cases a
    cases b
    exact congrArg NodeId.mk (Std.LawfulEqOrd.eq_of_compare h)

/-- What a node's data needs of the place where it is kept. -/
class ByteStore (σ : Type) where
  /-- Keeps `bytes` for a node instead of what was kept before. `false` if the store declines. -/
  persist : NodeId → Bytes → EStateM Error σ Bool
  /-- Forgets what is kept for a node, and tells whether there was anything. -/
  forget : NodeId → EStateM Error σ Bool
  load : NodeId → EStateM Error σ (Option Bytes)

/-- A store in memory, which does whatever it is asked. -/
structure MemoryStore where
  entries : OrderedMap NodeId Bytes := .empty

namespace MemoryStore

def size (s : MemoryStore) : Nat := s.entries.entries.length

def isEmpty (s : MemoryStore) : Bool := s.entries.entries.isEmpty

def contains (s : MemoryStore) (id : NodeId) : Bool := (s.entries.get? id).isSome

instance : ByteStore MemoryStore where
  persist id bytes s := .ok true { s with entries := s.entries.insert id bytes }
  forget id s := .ok (s.contains id) { s with entries := s.entries.erase id }
  load id s := .ok (s.entries.get? id) s

end MemoryStore

/-- How a scripted store answers a call. -/
inductive Answer
  /-- It does what it is asked. -/
  | act
  /-- It does nothing, and says so. -/
  | decline
  | fail
  deriving DecidableEq, Repr

def Answer.ofWord? : String → Option Answer
  | "ok" => some act
  | "decline" => some decline
  | "error" => some fail
  | _ => none

/-- A store that answers its calls as a script says, and does what it is asked when the script has
run out. -/
structure ScriptedStore where
  memory : MemoryStore := {}
  /-- The answers to the coming calls that keep something. -/
  persists : List Answer := []
  /-- The answers to the coming calls that forget something. -/
  forgets : List Answer := []
  /-- The answers to the coming calls that look something up. -/
  loads : List Answer := []

namespace ScriptedStore

/-- The failure that a script asks for. -/
def offline : Error := .io (.reported "store offline")

/-- Answers a call as the script says; `call` is what the call does otherwise. -/
def follow {α : Type} (answer : Option Answer) (declined : α) (call : EStateM Error MemoryStore α) :
    EStateM Error ScriptedStore α := fun s =>
  match answer with
  | some .decline => .ok declined s
  | some .fail => .error offline s
  | some .act | none =>
    match call s.memory with
    | .ok a memory => .ok a { s with memory }
    | .error e memory => .error e { s with memory }

instance : ByteStore ScriptedStore where
  persist id bytes s :=
    follow s.persists.head? false (ByteStore.persist id bytes) { s with persists := s.persists.tail }
  forget id s := follow s.forgets.head? false (ByteStore.forget id) { s with forgets := s.forgets.tail }
  load id s := follow s.loads.head? none (ByteStore.load id) { s with loads := s.loads.tail }

end ScriptedStore

end GraphJournal
