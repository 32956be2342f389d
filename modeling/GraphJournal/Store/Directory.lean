import GraphJournal.Store.Basic

/-!
A store that keeps one file for each node in a directory. Bytes are first written to a temporary
file, which then takes the place of the node's file, so that a write that fails half-way never
touches what was kept before.

The directory is a finite map from names to files. Any of its operations may fail, as a list of
events still to come says; a failed operation on a temporary file may leave anything in it.
-/
namespace GraphJournal

/-- What a name in a directory stands for. -/
inductive DirectoryEntry
  | file (bytes : Bytes)
  | directory
  deriving DecidableEq, Repr

/-- What happens to an operation on a directory. -/
inductive DiskEvent
  | works
  /-- The operation fails. If it was changing a file, that file now holds `left`, or is gone. -/
  | breaks (left : Option Bytes)
  deriving DecidableEq, Repr

/-- A directory, and what happens to the coming operations on it; after these, all work. -/
structure Directory where
  entries : OrderedMap String DirectoryEntry := .empty
  events : List DiskEvent := []

namespace Directory

def failure : Error := .io .system

def names (d : Directory) : List String := d.entries.keys

/-- The directory in which a name stands for something else, or for nothing. -/
def put (d : Directory) (name : String) (held : Option DirectoryEntry) : Directory :=
  match held with
  | some entry => { d with entries := d.entries.insert name entry }
  | none => { d with entries := d.entries.erase name }

/-- Takes the next event: an operation that works goes on, one that breaks leaves a directory as
`broken` says. -/
def attempt (broken : Option Bytes → Directory → Directory) : EStateM Error Directory Unit := fun d =>
  match d.events with
  | .breaks left :: events => .error failure (broken left { d with events })
  | .works :: events => .ok () { d with events }
  | [] => .ok () d

/-- What a broken operation on a file leaves behind. -/
def leave (name : String) (left : Option Bytes) (d : Directory) : Directory :=
  d.put name (left.map .file)

def create (name : String) : EStateM Error Directory Unit := do
  attempt (leave name)
  match (← get).entries.get? name with
  | some .directory => throw failure
  | _ => modify (·.put name (some (.file [])))

def write (name : String) (bytes : Bytes) : EStateM Error Directory Unit := do
  attempt (leave name)
  modify (·.put name (some (.file bytes)))

/-- Waits until a file is safely on disk. -/
def sync (name : String) : EStateM Error Directory Unit :=
  attempt (leave name)

/-- Gives a file another name, under which no directory may be; a file of that name is replaced. -/
def rename (old new : String) : EStateM Error Directory Unit := do
  attempt fun _ d => d
  let d ← get
  match d.entries.get? old, d.entries.get? new with
  | none, _ | _, some .directory => throw failure
  | some entry, _ => set ((d.put new (some entry)).put old none)

def remove (name : String) : EStateM Error Directory Bool := do
  attempt fun _ d => d
  let d ← get
  match d.entries.get? name with
  | none => return false
  | some .directory => throw failure
  | some (.file _) =>
    set (d.put name none)
    return true

def read (name : String) : EStateM Error Directory (Option Bytes) := do
  attempt fun _ d => d
  match (← get).entries.get? name with
  | none => return none
  | some .directory => throw failure
  | some (.file bytes) => return some bytes

/-- Sees to it that a name stands for a directory, which it cannot where there is a file. -/
def makeDirectory (name : String) : EStateM Error Directory Unit := do
  match (← get).entries.get? name with
  | some (.file _) => throw failure
  | some .directory | none => modify (·.put name (some .directory))

/-- Opens a store in a directory that is there, which it leaves as it is. -/
def reopen : EStateM Error Directory Unit := attempt fun _ d => d

def fileName (id : NodeId) : String := id.text ++ ".node"

/-- The name of the file in which a node's bytes are prepared. -/
def temporaryName (id : NodeId) : String := id.text ++ ".node.tmp"

instance : ByteStore Directory where
  persist id bytes := do
    create (temporaryName id)
    write (temporaryName id) bytes
    sync (temporaryName id)
    rename (temporaryName id) (fileName id)
    return true
  forget id := remove (fileName id)
  load id := read (fileName id)

end Directory

end GraphJournal
