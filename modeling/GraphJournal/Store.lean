import GraphJournal.Store.Directory

/-!
The kinds of stores together, so that the nodes of one graph can be kept in different ones.
-/
namespace GraphJournal

inductive Store
  | memory (store : MemoryStore)
  | scripted (store : ScriptedStore)
  | directory (store : Directory)

namespace Store

def within {σ α : Type} (kind : σ → Store) (call : EStateM Error σ α) (s : σ) :
    EStateM.Result Error Store α :=
  match call s with
  | .ok a s => .ok a (kind s)
  | .error e s => .error e (kind s)

def each {α : Type} (call : {σ : Type} → [ByteStore σ] → EStateM Error σ α) :
    EStateM Error Store α
  | memory s => within memory call s
  | scripted s => within scripted call s
  | directory s => within directory call s

instance : ByteStore Store where
  persist id bytes := each (ByteStore.persist id bytes)
  forget id := each (ByteStore.forget id)
  load id := each (ByteStore.load id)

/-- What the store keeps for a node, whatever a script or the disk would answer. -/
def kept? (s : Store) (id : NodeId) : Option Bytes :=
  match s with
  | memory s => s.entries.get? id
  | scripted s => s.memory.entries.get? id
  | directory d =>
    match d.entries.get? (Directory.fileName id) with
    | some (.file bytes) => some bytes
    | _ => none

end Store

end GraphJournal
