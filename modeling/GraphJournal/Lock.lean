import GraphJournal.Error

/-!
A lock around a value: any number of readers hold it together, or one writer alone. A caller that
finds the lock held can go away at once, or wait for a while; here, where one caller does everything,
nobody lets go while another waits, so a wait that has to be made runs out. How long it was then is
not measured: the errors tell the least that it can have been.
-/
namespace GraphJournal

/-- Who holds a lock. -/
structure LockState where
  readers : Nat := 0
  writer : Bool := false
  deriving DecidableEq, Repr

namespace LockState

def admitsReader (s : LockState) : Bool := !s.writer

/-- Whether a writer may hold the lock, which nobody else does. -/
def admitsWriter (s : LockState) : Bool := !s.writer && s.readers == 0

def addReader (s : LockState) : LockState := { s with readers := s.readers + 1 }

def dropReader (s : LockState) : LockState := { s with readers := s.readers - 1 }

def addWriter (s : LockState) : LockState := { s with writer := true }

def dropWriter (s : LockState) : LockState := { s with writer := false }

theorem admitsWriter_iff {s : LockState} : s.admitsWriter = true ↔ s = {} := by
  obtain ⟨readers, writer⟩ := s
  cases writer <;> simp [admitsWriter]

theorem admitsReader_iff {s : LockState} : s.admitsReader = true ↔ s.writer = false := by
  unfold admitsReader
  cases s.writer <;> simp

theorem admitsReader_of_writer {s : LockState} (free : s.admitsWriter = true) :
    s.admitsReader = true := by
  rw [admitsReader_iff, admitsWriter_iff.mp free]

end LockState

/-- A value that is read and written under a lock. -/
structure Lock (α : Type) where
  value : α
  state : LockState := {}
  deriving DecidableEq, Repr

namespace Lock

variable {α : Type}

/-- The lock held by one more reader, if that is possible at once. -/
def tryRead (l : Lock α) : Option (Lock α) :=
  if l.state.admitsReader then some { l with state := l.state.addReader } else none

/-- The lock held by a writer, if that is possible at once. -/
def tryWrite (l : Lock α) : Option (Lock α) :=
  if l.state.admitsWriter then some { l with state := l.state.addWriter } else none

/-- The lock held by one more reader, who waits no longer than `ms` milliseconds. -/
def readWithin (l : Lock α) (ms : Nat) : Except Error (Lock α) :=
  match l.tryRead with
  | some held => .ok held
  | none => .error (.lockTimeout ms)

/-- The lock held by a writer, who waits no longer than `ms` milliseconds. -/
def writeWithin (l : Lock α) (ms : Nat) : Except Error (Lock α) :=
  match l.tryWrite with
  | some held => .ok held
  | none => .error (.lockTimeout ms)

def releaseRead (l : Lock α) : Lock α := { l with state := l.state.dropReader }

def releaseWrite (l : Lock α) : Lock α := { l with state := l.state.dropWriter }

def set (l : Lock α) (value : α) : Lock α := { l with value }

end Lock

end GraphJournal
