import GraphJournal.Proofs.CellHistory

/-!
# Guards on a cell

Guards that are taken and let go in any order, with saves, erasures and changes between them. While
somebody holds a guard the cell stays in memory, and whoever reads sees one value. Nothing is assumed
of the store, which need not keep what it is given.

Reading or copying a cell while a writer holds it would take for ever. Here the wait runs out, and the
run goes on from the state that is left. Threads that race for the lock are NOT modelled.
-/
namespace GraphJournal

set_option autoImplicit false

open MessagePack

/-- A guard that somebody holds, with the value that was handed out with it. -/
structure Guard (α : Type) where
  writes : Bool
  seen : α
  deriving DecidableEq

/-- A cell, its store and the guards that are held on the cell. -/
structure Guarded (α σ : Type) where
  cell : Cell α
  store : σ
  guards : List (Guard α) := []

namespace Cell

variable {α σ : Type} [ByteStore σ]

/-- A request to a cell. The first three ask for a guard. -/
inductive Request
  | read
  | write
  | tryWrite
  | save (mode : SaveMode)
  | erase

/-- The requests that wait for the lock until nobody else holds it. -/
def Request.Waits : Request → Prop
  | .write | .save .forceRelease | .erase => True
  | _ => False

/-- Does what is requested, and tells the guard that comes of it. -/
def perform (codec : Codec α) : Request → CellM α σ (Reply α × Option (Guard α))
  | .read => (fun value => (.value value, some ⟨false, value⟩)) <$> holdRead codec
  | .write => (fun value => (.value value, some ⟨true, value⟩)) <$> holdWrite codec
  | .tryWrite =>
    (fun
      | some value => (.value value, some ⟨true, value⟩)
      | none => (.contended, none)) <$> tryHoldWrite codec
  | .save mode => (fun outcome => (.saved outcome, none)) <$> save codec mode
  | .erase => (fun _ => (.erased, none)) <$> erase codec

/-- All that a request can do to a cell. Only who has the lock for himself moves the value. -/
inductive Performed (c : Cell α) :
    EStateM.Result Error (Cell α × σ) (Reply α × Option (Guard α)) → Prop
  | shared {reply : Reply α} {value : α} {s : σ} (admitted : c.lock.admitsReader = true)
      (was : c.state = .resident value ∨ c.lock.admitsWriter = true) :
      Performed c (.ok (reply, some ⟨false, value⟩)
        ({ c with state := .resident value, lock := c.lock.addReader }, s))
  | owned {reply : Reply α} {value : α} {s : σ} (admitted : c.lock.admitsWriter = true) :
      Performed c (.ok (reply, some ⟨true, value⟩)
        ({ c with state := .resident value, lock := c.lock.addWriter }, s))
  | moved {reply : Reply α} {state : Residency α} {s : σ} (admitted : c.lock.admitsWriter = true) :
      Performed c (.ok (reply, none) ({ c with state }, s))
  | kept {reply : Reply α} {s : σ} : Performed c (.ok (reply, none) (c, s))
  | failed {e : Error} {s : σ} : Performed c (.error e (c, s))

section Requests
variable (codec : Codec α) (c : Cell α) (s : σ)

theorem reload_or_fail :
    (∃ value s', reload codec (c, s) = .ok value ({ c with state := .resident value }, s')) ∨
      ∃ e s', reload codec (c, s) = .error e (c, s') := by
  unfold reload
  simp only [Run.bind_apply, Run.get_apply]
  cases state : c.state with
  | resident value =>
    refine Or.inl ⟨value, s, ?_⟩
    cases c
    cases state
    rfl
  | released =>
    simp only [Run.bind_apply, onStore]
    rcases ByteStore.load c.id s with ⟨_ | bytes, s'⟩ | ⟨e, s'⟩
    · exact Or.inr ⟨_, s', rfl⟩
    · dsimp only
      cases codec.decodeAll bytes with
      | error e => exact Or.inr ⟨e, s', rfl⟩
      | ok value => exact Or.inl ⟨value, s', rfl⟩
    · exact Or.inr ⟨e, s', rfl⟩

theorem persist_or_fail (value : α) :
    (∃ accepted s', persist codec value (c, s) = .ok accepted (c, s')) ∨
      ∃ e s', persist codec value (c, s) = .error e (c, s') := by
  unfold persist
  simp only [Run.bind_apply, Run.get_apply]
  cases (codec.encode c.config.layout value).toExcept with
  | error e => exact Or.inr ⟨e, s, rfl⟩
  | ok bytes =>
    simp only [onStore]
    rcases ByteStore.persist c.id bytes s with ⟨accepted, s'⟩ | ⟨e, s'⟩
    · exact Or.inl ⟨accepted, s', rfl⟩
    · exact Or.inr ⟨e, s', rfl⟩

/-- Only the request for the lock is skipped, never the release itself. -/
theorem persistAndRelease_or_fail :
    (∃ outcome state s', persistAndRelease codec (c, s) = .ok outcome ({ c with state }, s') ∧
        outcome ≠ .skipped) ∨
      ∃ e s', persistAndRelease codec (c, s) = .error e (c, s') := by
  simp only [persistAndRelease, Run.bind_apply, Run.get_apply]
  cases state : c.state with
  | released =>
    refine Or.inl ⟨.released, .released, s, ?_, by decide⟩
    rw [released_eq state]
    rfl
  | resident value =>
    simp only [Run.bind_apply]
    rcases persist_or_fail codec c s value with ⟨accepted, s', run⟩ | ⟨e, s', run⟩
    · rw [run]
      cases accepted with
      | true => exact Or.inl ⟨.released, .released, s', rfl, by decide⟩
      | false => exact Or.inl ⟨.rejected, c.state, s', rfl, by decide⟩
    · rw [run]
      exact Or.inr ⟨e, s', rfl⟩

section Held
variable {c} (held : c.lock.admitsWriter = false)

include held

theorem perform_waits {r : Request} (waits : r.Waits) :
    perform codec r (c, s) = .error c.waited (c, s) := by
  have runsOut : (awaitWriter : CellM α σ Unit) (c, s) = .error c.waited (c, s) := by
    simp only [awaitWriter, Run.bind_apply, Run.get_apply, held]
    rfl
  cases r with
  | write => simp only [perform, holdWrite, beginWrite, Run.map_apply, Run.bind_apply, runsOut]
  | erase => simp only [perform, erase, Run.map_apply, Run.bind_apply, runsOut]
  | save mode =>
    cases mode with
    | forceRelease => simp only [perform, save, Run.map_apply, Run.bind_apply, runsOut]
    | _ => cases waits
  | _ => cases waits

theorem perform_tryWrite_held : perform codec .tryWrite (c, s) = .ok (.contended, none) (c, s) := by
  simp only [perform, tryHoldWrite, Run.map_apply, Run.bind_apply, Run.get_apply, held]
  rfl

theorem perform_tryRelease_held :
    perform codec (.save .tryRelease) (c, s) = .ok (.saved .skipped, none) (c, s) := by
  simp only [perform, save, Run.map_apply, Run.bind_apply, Run.get_apply, held]
  rfl

end Held

theorem performed_read : Performed c (perform codec .read (c, s)) := by
  simp only [perform, holdRead, read, awaitReader, awaitWriter, Run.map_apply, Run.bind_apply,
    Run.get_apply]
  by_cases admitted : c.lock.admitsReader = true
  · simp only [admitted, if_true, Run.pure_apply]
    cases state : c.state with
    | resident value =>
      have answer : Performed c (σ := σ) (.ok (.value value, some ⟨false, value⟩)
          ({ c with state := .resident value, lock := c.lock.addReader }, s)) :=
        .shared admitted (Or.inl state)
      rw [← state] at answer
      exact answer
    | released =>
      simp only [Run.bind_apply, Run.get_apply]
      by_cases alone : c.lock.admitsWriter = true
      · simp only [alone, if_true, Run.pure_apply]
        rcases reload_or_fail codec c s with ⟨value, s', run⟩ | ⟨e, s', run⟩
        · rw [run]
          exact .shared admitted (Or.inr alone)
        · rw [run]
          exact .failed
      · simp only [alone]
        exact .failed
  · simp only [admitted]
    exact .failed

theorem performed_storeOnly : Performed c (perform codec (.save .storeOnly) (c, s)) := by
  simp only [perform, save, awaitReader, Run.map_apply, Run.bind_apply, Run.get_apply]
  by_cases admitted : c.lock.admitsReader = true
  · simp only [admitted, if_true, Run.pure_apply]
    cases c.state with
    | released => exact .kept
    | resident value =>
      simp only [Run.bind_apply]
      rcases persist_or_fail codec c s value with ⟨accepted, s', run⟩ | ⟨e, s', run⟩
      · rw [run]
        cases accepted <;> exact .kept
      · rw [run]
        exact .failed
  · simp only [admitted]
    exact .failed

section Alone
variable {c} (alone : c.lock.admitsWriter = true)

include alone

theorem performed_write : Performed c (perform codec .write (c, s)) := by
  simp only [perform, holdWrite, beginWrite, awaitWriter, Run.map_apply, Run.bind_apply,
    Run.get_apply, alone, if_true, Run.pure_apply]
  rcases reload_or_fail codec c s with ⟨value, s', run⟩ | ⟨e, s', run⟩
  · rw [run]
    exact .owned alone
  · rw [run]
    exact .failed

theorem performed_tryWrite : Performed c (perform codec .tryWrite (c, s)) := by
  simp only [perform, tryHoldWrite, Run.map_apply, Run.bind_apply, Run.get_apply, alone, if_true]
  rcases reload_or_fail codec c s with ⟨value, s', run⟩ | ⟨e, s', run⟩
  · rw [run]
    exact .owned alone
  · rw [run]
    exact .failed

theorem perform_tryRelease_alone :
    perform codec (.save .tryRelease) (c, s) =
      ((fun outcome => (.saved outcome, none)) <$> persistAndRelease codec) (c, s) := by
  simp only [perform, save, Run.map_apply, Run.bind_apply, Run.get_apply, alone, if_true]

theorem performed_tryRelease : Performed c (perform codec (.save .tryRelease) (c, s)) := by
  rw [perform_tryRelease_alone codec s alone, Run.map_apply]
  rcases persistAndRelease_or_fail codec c s with ⟨outcome, state, s', run, -⟩ | ⟨e, s', run⟩
  · rw [run]
    exact .moved alone
  · rw [run]
    exact .failed

theorem performed_forceRelease : Performed c (perform codec (.save .forceRelease) (c, s)) := by
  have answer := performed_tryRelease codec s alone
  simpa only [perform, save, awaitWriter, Run.map_apply, Run.bind_apply, Run.get_apply, alone,
    if_true, Run.pure_apply] using answer

theorem performed_erase : Performed c (perform codec .erase (c, s)) := by
  simp only [perform, erase, awaitWriter, Run.map_apply, Run.bind_apply, Run.get_apply, alone,
    if_true, Run.pure_apply, onStore]
  rcases ByteStore.forget c.id s with ⟨there, s'⟩ | ⟨e, s'⟩
  · exact .moved alone
  · exact .failed

end Alone

theorem performed (r : Request) : Performed c (perform codec r (c, s)) := by
  have waited {r : Request} (held : c.lock.admitsWriter = false) (waits : r.Waits) :
      Performed c (perform codec r (c, s)) := by
    rw [perform_waits codec s held waits]
    exact .failed
  cases alone : c.lock.admitsWriter with
  | true =>
    cases r with
    | read => exact performed_read codec c s
    | write => exact performed_write codec s alone
    | tryWrite => exact performed_tryWrite codec s alone
    | save mode =>
      cases mode with
      | storeOnly => exact performed_storeOnly codec c s
      | tryRelease => exact performed_tryRelease codec s alone
      | forceRelease => exact performed_forceRelease codec s alone
    | erase => exact performed_erase codec s alone
  | false =>
    cases r with
    | read => exact performed_read codec c s
    | write => exact waited alone trivial
    | tryWrite =>
      rw [perform_tryWrite_held codec s alone]
      exact .kept
    | save mode =>
      cases mode with
      | storeOnly => exact performed_storeOnly codec c s
      | tryRelease =>
        rw [perform_tryRelease_held codec s alone]
        exact .kept
      | forceRelease => exact waited alone trivial
    | erase => exact waited alone trivial

/-- To write is to take a guard, to put the value in its place and to let the guard go. -/
theorem tryWrite_eq_tryHoldWrite (value : α) :
    (tryWrite codec value : CellM α σ (Option α)) = do
      let old ← tryHoldWrite codec
      if old.isSome then
        setState (.resident value)
        setLock .dropWriter
      return old := by
  funext ⟨c, s⟩
  simp only [tryWrite, tryAlter, tryHoldWrite, Run.bind_apply, Run.get_apply]
  by_cases alone : c.lock.admitsWriter = true
  · have unlocked := LockState.admitsWriter_iff.mp alone
    simp only [alone, if_true, Run.bind_apply]
    rcases reload_or_fail codec c s with ⟨old, s', run⟩ | ⟨e, s', run⟩
    · rw [run]
      cases c
      cases unlocked
      rfl
    · rw [run]
  · simp only [alone]
    rfl

end Requests

/-- How the guards agree with the cell: those who read see what is there, who writes is alone. -/
inductive Agree (c : Cell α) : List (Guard α) → Prop
  | readers {guards : List (Guard α)} (lock : c.lock = { readers := guards.length })
      (seen : ∀ g ∈ guards, g.writes = false ∧ c.state = .resident g.seen) : Agree c guards
  | writer {g : Guard α} (lock : c.lock = { writer := true }) (writes : g.writes = true)
      (there : c.state.isResident = true) : Agree c [g]

namespace Agree

variable {c : Cell α} {guards : List (Guard α)}

omit [ByteStore σ] in
theorem admitsWriter_iff (agree : Agree c guards) : c.lock.admitsWriter = true ↔ guards = [] := by
  rw [LockState.admitsWriter_iff]
  cases agree with
  | readers lock seen =>
    rw [lock, LockState.mk.injEq]
    simp only [and_true]
    exact List.length_eq_zero_iff
  | writer lock writes there => simp [lock]

theorem admitsReader_iff (agree : Agree c guards) :
    c.lock.admitsReader = true ↔ ∀ g ∈ guards, g.writes = false := by
  rw [LockState.admitsReader_iff]
  cases agree with
  | readers lock seen =>
    rw [lock]
    exact ⟨fun _ g mem => (seen g mem).1, fun _ => rfl⟩
  | writer lock writes there => simp [lock, writes]

theorem resident (agree : Agree c guards) (held : guards ≠ []) : c.state.isResident = true := by
  cases agree with
  | readers lock seen =>
    obtain ⟨g, mem⟩ := List.exists_mem_of_ne_nil guards held
    rw [(seen g mem).2]
    rfl
  | writer lock writes there => exact there

theorem shown (agree : Agree c guards) {g : Guard α} (mem : g ∈ guards)
    (reads : g.writes = false) : c.state = .resident g.seen := by
  cases agree with
  | readers lock seen => exact (seen g mem).2
  | writer lock writes there =>
    rw [List.mem_singleton.mp mem, writes] at reads
    cases reads

theorem none (lock : c.lock = {}) : Agree c [] := .readers lock (by simp)

theorem addReader (agree : Agree c guards) (admitted : c.lock.admitsReader = true) {value : α}
    (was : c.state = .resident value ∨ c.lock.admitsWriter = true) :
    Agree { c with state := .resident value, lock := c.lock.addReader }
      (guards ++ [⟨false, value⟩]) := by
  cases agree with
  | readers lock seen =>
    refine .readers ?_ ?_
    · simp [lock, LockState.addReader]
    · intro g mem
      rcases List.mem_append.mp mem with old | new
      · rcases was with there | alone
        · exact ⟨(seen g old).1, there ▸ (seen g old).2⟩
        · have empty := (admitsWriter_iff (.readers lock seen)).mp alone
          rw [empty] at old
          cases old
      · rw [List.mem_singleton.mp new]
        exact ⟨rfl, rfl⟩
  | writer lock writes there =>
    rw [lock] at admitted
    cases admitted

theorem addWriter (agree : Agree c guards) (alone : c.lock.admitsWriter = true) (value : α) :
    Agree { c with state := .resident value, lock := c.lock.addWriter }
      (guards ++ [⟨true, value⟩]) := by
  rw [agree.admitsWriter_iff.mp alone, LockState.admitsWriter_iff.mp alone]
  exact .writer rfl rfl rfl

theorem move (agree : Agree c guards) (alone : c.lock.admitsWriter = true)
    (state : Residency α) : Agree { c with state } guards := by
  rw [agree.admitsWriter_iff.mp alone]
  exact none (LockState.admitsWriter_iff.mp alone)

theorem mutate (agree : Agree c guards) {g : Guard α} (mem : g ∈ guards) (writes : g.writes = true)
    (value : α) : Agree { c with state := .resident value } guards := by
  cases agree with
  | readers lock seen =>
    rw [(seen g mem).1] at writes
    cases writes
  | writer lock alone there => exact .writer lock alone rfl

theorem dropReader (agree : Agree c guards) {place : Nat} {g : Guard α}
    (found : guards[place]? = some g) (reads : g.writes = false) :
    Agree { c with lock := c.lock.dropReader } (guards.eraseIdx place) := by
  obtain ⟨within, -⟩ := List.getElem?_eq_some_iff.mp found
  cases agree with
  | readers lock seen =>
    refine .readers ?_ fun other mem => seen other (List.mem_of_mem_eraseIdx mem)
    simp [lock, LockState.dropReader, List.length_eraseIdx_of_lt within]
  | writer lock writes there =>
    rw [List.mem_singleton.mp (List.mem_of_getElem? found), writes] at reads
    cases reads

theorem dropWriter (agree : Agree c guards) {place : Nat} {g : Guard α}
    (found : guards[place]? = some g) (writes : g.writes = true) :
    Agree { c with lock := c.lock.dropWriter } (guards.eraseIdx place) := by
  obtain ⟨within, -⟩ := List.getElem?_eq_some_iff.mp found
  cases agree with
  | readers lock seen =>
    rw [(seen g (List.mem_of_getElem? found)).1] at writes
    cases writes
  | writer lock alone there =>
    have first : place = 0 := Nat.lt_one_iff.mp within
    subst first
    exact none (by simp [lock, LockState.dropWriter])

end Agree

end Cell

namespace Guarded

open Cell

variable {α σ : Type}

/-- The cell at the start: nobody holds a guard, and the value may be in the store only. -/
def start (id : NodeId) (config : LifecycleConfig) (state : Residency α) (store : σ) :
    Guarded α σ where
  cell := { id, config, state }
  store

/-- Changes the value through a guard for writing. -/
def mutate (place : Nat) (change : α → α) (s : Guarded α σ) : Guarded α σ :=
  match s.guards[place]?, s.cell.state with
  | some ⟨true, _⟩, .resident value =>
    { s with cell := { s.cell with state := .resident (change value) } }
  | _, _ => s

def letGo (place : Nat) (s : Guarded α σ) : Guarded α σ :=
  match s.guards[place]? with
  | none => s
  | some g =>
    let lock := if g.writes then s.cell.lock.dropWriter else s.cell.lock.dropReader
    { s with cell := { s.cell with lock }, guards := s.guards.eraseIdx place }

/-- What is done with a cell, by any number of those who share it. Guards go by their places. -/
inductive Move (α : Type)
  | ask (request : Request)
  | mutate (place : Nat) (change : α → α)
  | letGo (place : Nat)

section Runs
variable [ByteStore σ] (codec : Codec α)

def ask (r : Request) (s : Guarded α σ) : Except Error (Reply α) × Guarded α σ :=
  match perform codec r (s.cell, s.store) with
  | .ok (reply, new?) (cell, store) => (.ok reply, { cell, store, guards := s.guards ++ new?.toList })
  | .error e (cell, store) => (.error e, { s with cell, store })

def step (s : Guarded α σ) : Move α → Guarded α σ
  | .ask r => (s.ask codec r).2
  | .mutate place change => s.mutate place change
  | .letGo place => s.letGo place

def run (moves : List (Move α)) (s : Guarded α σ) : Guarded α σ := moves.foldl (step codec) s

end Runs

section Steps
variable [ByteStore σ] {codec : Codec α} {s : Guarded α σ}

theorem agree_ask (agree : Agree s.cell s.guards) (r : Request) :
    Agree (s.ask codec r).2.cell (s.ask codec r).2.guards := by
  have answer := performed codec s.cell s.store r
  unfold ask
  generalize perform codec r (s.cell, s.store) = result at answer
  cases answer with
  | shared admitted was => exact agree.addReader admitted was
  | owned alone => exact agree.addWriter alone _
  | moved alone =>
    simp only [Option.toList_none, List.append_nil]
    exact agree.move alone _
  | kept =>
    simp only [Option.toList_none, List.append_nil]
    exact agree
  | failed => exact agree

omit [ByteStore σ] in
theorem agree_mutate (agree : Agree s.cell s.guards) (place : Nat) (change : α → α) :
    Agree (s.mutate place change).cell (s.mutate place change).guards := by
  unfold mutate
  split
  · rename_i found there
    exact agree.mutate (List.mem_of_getElem? found) rfl _
  · exact agree

omit [ByteStore σ] in
theorem agree_letGo (agree : Agree s.cell s.guards) (place : Nat) :
    Agree (s.letGo place).cell (s.letGo place).guards := by
  unfold letGo
  cases found : s.guards[place]? with
  | none => exact agree
  | some g =>
    by_cases writes : g.writes = true
    · simp only [writes, if_true]
      exact agree.dropWriter found writes
    · simp only [writes]
      exact agree.dropReader found (Bool.eq_false_iff.mpr writes)

theorem agree_run (agree : Agree s.cell s.guards) (moves : List (Move α)) :
    Agree (run codec moves s).cell (run codec moves s).guards := by
  induction moves generalizing s with
  | nil => exact agree
  | cons move moves ih =>
    refine ih ?_
    cases move with
    | ask r => exact agree_ask agree r
    | mutate place change => exact agree_mutate agree place change
    | letGo place => exact agree_letGo agree place

end Steps

/-- What the guards that are held make of the next request, and of the value. -/
structure Pinned [ByteStore σ] (codec : Codec α) (s : Guarded α σ) : Prop where
  exclusive : s.cell.lock.admitsWriter = true ↔ s.guards = []
  shared : s.cell.lock.admitsReader = true ↔ ∀ g ∈ s.guards, g.writes = false
  resident : s.guards ≠ [] → s.cell.state.isResident = true
  shown : ∀ g ∈ s.guards, g.writes = false → s.cell.state = .resident g.seen
  skipped : s.guards ≠ [] → s.ask codec (.save .tryRelease) = (.ok (.saved .skipped), s)
  contended : s.guards ≠ [] → s.ask codec .tryWrite = (.ok .contended, s)
  waits : s.guards ≠ [] → ∀ r : Request, r.Waits → ∃ waitedMs,
    s.cell.config.lockTimeoutMs ≤ waitedMs ∧ s.ask codec r = (.error (.lockTimeout waitedMs), s)
  free : s.guards = [] → (s.ask codec (.save .tryRelease)).1 ≠ .ok (.saved .skipped)

theorem pinned_of_agree [ByteStore σ] {codec : Codec α} {s : Guarded α σ}
    (agree : Agree s.cell s.guards) : Pinned codec s := by
  have locked (held : s.guards ≠ []) : s.cell.lock.admitsWriter = false := by
    rw [Bool.eq_false_iff]
    exact fun free => held (agree.admitsWriter_iff.mp free)
  refine ⟨agree.admitsWriter_iff, agree.admitsReader_iff, agree.resident, fun g mem => agree.shown mem,
    ?_, ?_, ?_, ?_⟩
  · intro held
    rw [ask, perform_tryRelease_held codec s.store (locked held)]
    simp
  · intro held
    rw [ask, perform_tryWrite_held codec s.store (locked held)]
    simp
  · intro held r waits
    refine ⟨s.cell.config.lockTimeoutMs, Nat.le_refl _, ?_⟩
    rw [ask, perform_waits codec s.store (locked held) waits]
    rfl
  · intro none
    rw [ask, perform_tryRelease_alone codec s.store (agree.admitsWriter_iff.mpr none), Run.map_apply]
    rcases persistAndRelease_or_fail codec s.cell s.store with
      ⟨outcome, state, s', run, released⟩ | ⟨e, s', run⟩
    · rw [run]
      simpa using released
    · rw [run]
      simp

/-- Whatever guards are taken and let go, whatever is asked and changed meanwhile: a guard keeps the
cell as it is, and the last one lets it go again. -/
theorem run_pinned [ByteStore σ] (codec : Codec α) (id : NodeId) (config : LifecycleConfig)
    (state : Residency α) (store : σ) (moves : List (Move α)) :
    Pinned codec (run codec moves (start id config state store)) :=
  pinned_of_agree (agree_run (Agree.none rfl) moves)

/-- The store fails to find the value at first. Then two read it, and one of them goes. -/
def lending : List (Move Bool) :=
  [.ask .read, .ask .read, .ask .read, .letGo 0, .ask (.save .forceRelease), .ask .write,
    .mutate 0 not]

def lent : Guarded Bool ScriptedStore := run Codec.bool lending (start ⟨7⟩ {} .released flaky)

/-- The other one keeps the value from being released and from being written. -/
theorem lent_pinned :
    lent.guards = [⟨false, true⟩] ∧ lent.cell.state = .resident true ∧
      lent.ask Codec.bool (.save .tryRelease) = (.ok (.saved .skipped), lent) := by
  have guards : lent.guards = [⟨false, true⟩] := by decide
  have held : lent.guards ≠ [] := by
    rw [guards]
    exact List.cons_ne_nil _ _
  have pinned : Pinned Codec.bool lent := run_pinned Codec.bool ⟨7⟩ {} .released flaky lending
  refine ⟨guards, ?_, pinned.skipped held⟩
  exact pinned.shown ⟨false, true⟩ (guards ▸ List.mem_singleton_self _) rfl

end Guarded

end GraphJournal
