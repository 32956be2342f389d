import GraphJournal.Lock
import GraphJournal.MessagePack.Codec
import GraphJournal.Store.Basic

/-!
Cells: values that are in memory or only in a store. Reading or writing a released value brings it
back first. Saving writes the value to the store and may release it; the value itself never changes
by that.

Who uses the value holds the cell's lock meanwhile. Releasing needs the lock for itself: it is given
up at once or after a bounded wait, as the mode of the save says.
-/
namespace GraphJournal

open MessagePack

/-- How a cell waits and how its value is written to the store. -/
structure LifecycleConfig where
  lockTimeoutMs : Nat := 5000
  layout : Layout := .compact
  deriving DecidableEq, Repr

/-- Refuses a configuration that never waits. -/
def LifecycleConfig.validate (c : LifecycleConfig) : Except Error Unit :=
  if c.lockTimeoutMs = 0 then .error (.config .zeroLockTimeout) else .ok ()

/-- Where the value of a cell is. -/
inductive Residency (α : Type)
  | resident (value : α)
  | released
  deriving DecidableEq, Repr

namespace Residency

variable {α : Type}

def value? : Residency α → Option α
  | resident value => some value
  | released => none

def isResident (r : Residency α) : Bool := r.value?.isSome

end Residency

/-- A value that can be released to a store. -/
structure Cell (α : Type) where
  id : NodeId
  config : LifecycleConfig := {}
  state : Residency α
  lock : LockState := {}
  deriving DecidableEq, Repr

/-- Something done with a cell and the store it is kept in. -/
abbrev CellM (α σ β : Type) := EStateM Error (Cell α × σ) β

namespace Cell

variable {α σ β : Type}

/-- The error for a value that is neither in memory nor in the store. -/
def notResident (c : Cell α) : Error := .notResident c.id.raw

/-- The error for a wait that has run out. It tells how long the wait was, which no clock measures
here: the least that it can have been. -/
def waited (c : Cell α) : Error := .lockTimeout c.config.lockTimeoutMs

def onStore (call : EStateM Error σ β) : CellM α σ β := fun (c, s) =>
  match call s with
  | .ok b s => .ok b (c, s)
  | .error e s => .error e (c, s)

def setState (state : Residency α) : CellM α σ Unit :=
  modify fun (c, s) => ({ c with state }, s)

/-- Fails unless one more reader may hold the lock. -/
def awaitReader : CellM α σ Unit := do
  let (c, _) ← get
  if c.lock.admitsReader then return () else throw c.waited

/-- Fails unless a writer may hold the lock. -/
def awaitWriter : CellM α σ Unit := do
  let (c, _) ← get
  if c.lock.admitsWriter then return () else throw c.waited

def setLock (change : LockState → LockState) : CellM α σ Unit :=
  modify fun (c, s) => ({ c with lock := change c.lock }, s)

variable [ByteStore σ]

/-- The value, which is brought back from the store if it is released. -/
def reload (codec : Codec α) : CellM α σ α := do
  let (c, _) ← get
  match c.state with
  | .resident value => return value
  | .released =>
    match ← onStore (ByteStore.load c.id) with
    | none => throw c.notResident
    | some bytes =>
      match codec.decodeAll bytes with
      | .error e => throw e
      | .ok value =>
        setState (.resident value)
        return value

/-- The value, for a reader. Bringing it back takes the lock for itself. -/
def read (codec : Codec α) : CellM α σ α := do
  awaitReader
  let (c, _) ← get
  match c.state with
  | .resident value => return value
  | .released =>
    awaitWriter
    reload codec

def beginWrite (codec : Codec α) : CellM α σ α := do
  awaitWriter
  reload codec

/-- Changes the value and tells the old one. -/
def alter (codec : Codec α) (change : α → α) : CellM α σ α := do
  let old ← beginWrite codec
  setState (.resident (change old))
  return old

/-- As `alter`, but does nothing if the lock is held. -/
def tryAlter (codec : Codec α) (change : α → α) : CellM α σ (Option α) := do
  let (c, _) ← get
  if c.lock.admitsWriter then
    let old ← reload codec
    setState (.resident (change old))
    return some old
  else return none

def write (codec : Codec α) (value : α) : CellM α σ α := alter codec fun _ => value

def tryWrite (codec : Codec α) (value : α) : CellM α σ (Option α) := tryAlter codec fun _ => value

/-- Writes a value to the store; `false` if the store declines. -/
def persist (codec : Codec α) (value : α) : CellM α σ Bool := do
  let (c, _) ← get
  match (codec.encode c.config.layout value).toExcept with
  | .error e => throw e
  | .ok bytes => onStore (ByteStore.persist c.id bytes)

/-- Writes the value to the store and releases it. A released value is released already. -/
def persistAndRelease (codec : Codec α) : CellM α σ SaveOutcome := do
  let (c, _) ← get
  match c.state with
  | .released => return .released
  | .resident value =>
    if ← persist codec value then
      setState .released
      return .released
    else return .rejected

def save (codec : Codec α) (mode : SaveMode) : CellM α σ SaveOutcome := do
  match mode with
  | .storeOnly =>
    awaitReader
    let (c, _) ← get
    match c.state with
    | .released => return .stored
    | .resident value => if ← persist codec value then return .stored else return .rejected
  | .tryRelease =>
    let (c, _) ← get
    if c.lock.admitsWriter then persistAndRelease codec else return .skipped
  | .forceRelease =>
    awaitWriter
    persistAndRelease codec

/-- Forgets the value in the store and in memory, where the default takes its place. -/
def erase (codec : Codec α) : CellM α σ Unit := do
  awaitWriter
  let (c, _) ← get
  let _ ← onStore (ByteStore.forget c.id)
  setState (.resident codec.default)

def holdRead (codec : Codec α) : CellM α σ α := do
  let value ← read codec
  setLock .addReader
  return value

def holdWrite (codec : Codec α) : CellM α σ α := do
  let value ← beginWrite codec
  setLock .addWriter
  return value

/-- As `holdWrite`, but does nothing if the lock is held. -/
def tryHoldWrite (codec : Codec α) : CellM α σ (Option α) := do
  let (c, _) ← get
  if c.lock.admitsWriter then
    let value ← reload codec
    setLock .addWriter
    return some value
  else return none

end Cell

end GraphJournal
