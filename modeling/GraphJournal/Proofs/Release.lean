import GraphJournal.Proofs.DecodedValues
import GraphJournal.Proofs.Guards

/-!
# Values that are released

A value that is released is in the store only, and only as what has been written of it. It comes back
if and only if that can be read: a save does not look, and writes and releases also what nests deeper
than any reader will follow. The store is supposed to keep what it accepts. Other cells that use the
same identity are NOT considered.
-/
namespace GraphJournal

set_option autoImplicit false

open MessagePack

/-- What the store has accepted is there when it is looked for next. -/
def KeepsAccepted (σ : Type) [ByteStore σ] : Prop :=
  ∀ (s : σ) (id : NodeId) (bytes : Bytes) (s' : σ), ByteStore.persist id bytes s = .ok true s' →
    ∃ s'', ByteStore.load id s' = .ok (some bytes) s''

theorem MemoryStore.keepsAccepted : KeepsAccepted MemoryStore := by
  intro s id bytes s' run
  cases run
  refine ⟨{ s with entries := s.entries.insert id bytes }, ?_⟩
  change EStateM.Result.ok ((s.entries.insert id bytes).get? id) _ = _
  rw [OrderedMap.get?_insert, if_pos rfl]

namespace Cell

variable {α σ : Type} [ByteStore σ] {codec : Codec α} {c : Cell α} {s : σ} {v : α}

theorem persist_accepted {after : Cell α × σ} (run : persist codec v (c, s) = .ok true after) :
    (codec.encode c.config.layout v).fault? = none ∧
      ∃ s', ByteStore.persist c.id (codec.encode c.config.layout v).bytes s = .ok true s' ∧
        after = (c, s') := by
  simp only [persist, Run.bind_apply, Run.get_apply, Encoded.toExcept] at run
  cases whole : (codec.encode c.config.layout v).fault? with
  | some fault =>
    rw [whole] at run
    cases run
  | none =>
    simp only [whole, onStore] at run
    cases kept : ByteStore.persist c.id (codec.encode c.config.layout v).bytes s with
    | error e s' =>
      rw [kept] at run
      cases run
    | ok accepted s' =>
      rw [kept] at run
      cases run
      exact ⟨rfl, s', rfl, rfl⟩

theorem persistAndRelease_released (held : c.state = .resident v) {after : Cell α × σ}
    (run : persistAndRelease codec (c, s) = .ok .released after) :
    ∃ s', persist codec v (c, s) = .ok true (c, s') ∧ after = ({ c with state := .released }, s') := by
  simp only [persistAndRelease, Run.bind_apply, Run.get_apply, held] at run
  rcases persist_or_fail codec c s v with ⟨accepted, s', kept⟩ | ⟨e, s', kept⟩
  · rw [kept] at run
    cases accepted with
    | true =>
      cases run
      exact ⟨s', kept, rfl⟩
    | false => cases run
  · rw [kept] at run
    cases run

/-- A save that releases has had the lock for itself. -/
theorem save_released (held : c.state = .resident v) {mode : SaveMode} {after : Cell α × σ}
    (run : save codec mode (c, s) = .ok .released after) :
    c.lock.admitsWriter = true ∧ persistAndRelease codec (c, s) = .ok .released after := by
  cases mode with
  | storeOnly =>
    simp only [save, awaitReader, Run.bind_apply, Run.get_apply] at run
    by_cases admitted : c.lock.admitsReader = true
    · simp only [admitted, if_true, Run.pure_apply, held, Run.bind_apply] at run
      rcases persist_or_fail codec c s v with ⟨accepted, s', kept⟩ | ⟨e, s', kept⟩
      · rw [kept] at run
        cases accepted <;> cases run
      · rw [kept] at run
        cases run
    · simp only [admitted] at run
      cases run
  | tryRelease =>
    simp only [save, Run.bind_apply, Run.get_apply] at run
    by_cases alone : c.lock.admitsWriter = true
    · simp only [alone, if_true] at run
      exact ⟨alone, run⟩
    · simp only [alone] at run
      cases run
  | forceRelease =>
    simp only [save, awaitWriter, Run.bind_apply, Run.get_apply] at run
    by_cases alone : c.lock.admitsWriter = true
    · simp only [alone, if_true, Run.pure_apply] at run
      exact ⟨alone, run⟩
    · simp only [alone] at run
      cases run

theorem read_released_iff (released : c.state = .released) (alone : c.lock.admitsWriter = true)
    {s' : σ} {bytes : Bytes} (loads : ByteStore.load c.id s = .ok (some bytes) s') :
    (∃ after, read codec (c, s) = .ok v after) ↔ codec.decodeAll bytes = .ok v := by
  have admitted := LockState.admitsReader_of_writer alone
  simp only [read, awaitReader, awaitWriter, reload, onStore, Run.bind_apply, Run.get_apply,
    admitted, alone, if_true, Run.pure_apply, released, loads]
  cases codec.decodeAll bytes with
  | error e =>
    constructor
    · rintro ⟨after, run⟩
      cases run
    · intro none
      cases none
  | ok w =>
    constructor
    · rintro ⟨after, run⟩
      cases run
      rfl
    · intro same
      cases same
      exact ⟨_, rfl⟩

/-- Whatever the store is that keeps what it accepts, and however the value is written: once a save
has released a value, the next read brings it back if and only if its lengths fit and it does not
nest too deep. -/
theorem released_comes_back_iff (keeps : KeepsAccepted σ) {t : ValueType} {v : t.Carrier}
    {c : Cell t.Carrier} (held : c.state = .resident v) {mode : SaveMode} {s : σ}
    {after : Cell t.Carrier × σ} (released : save t.codec mode (c, s) = .ok .released after) :
    (∃ after', read t.codec after = .ok v after') ↔ t.Fits v ∧ t.nesting v ≤ maxDepth := by
  obtain ⟨alone, released⟩ := save_released held released
  obtain ⟨s', accepted, rfl⟩ := persistAndRelease_released held released
  obtain ⟨whole, s'', kept, same⟩ := persist_accepted accepted
  cases same
  obtain ⟨s'', loads⟩ := keeps s c.id _ s' kept
  rw [← ValueType.decodeAll_encode_iff whole]
  exact read_released_iff (c := { c with state := .released }) rfl alone loads

/-- A cell that holds so many arrays around an empty one. -/
def towering (n : Nat) : Cell Nested := { id := ⟨7⟩, state := .resident (.tower n) }

/-- The cell and its store, once it has been released. -/
def toppled (n : Nat) : Cell Nested × MemoryStore :=
  ({ towering n with state := .released },
    { entries := OrderedMap.empty.insert ⟨7⟩ (Nested.tower n).encode })

/-- However many arrays there are, they are released. -/
theorem save_towering (n : Nat) :
    save Codec.nested .tryRelease (towering n, ({} : MemoryStore)) = .ok .released (toppled n) := rfl

theorem tower_comes_back :
    KeepsAccepted MemoryStore ∧ (towering 1022).state = .resident (.tower 1022) ∧
      save Codec.nested .tryRelease (towering 1022, ({} : MemoryStore)) =
        .ok .released (toppled 1022) ∧
      ∃ after, read Codec.nested (toppled 1022) = .ok (.tower 1022) after := by
  have levels : (Nested.tower 1022).depth ≤ maxDepth := Nat.le_of_eq (Nested.depth_tower 1022)
  have back : (∃ after, read Codec.nested (toppled 1022) = .ok (.tower 1022) after) ↔
      (Nested.tower 1022).Fits ∧ (Nested.tower 1022).depth ≤ maxDepth :=
    released_comes_back_iff (t := .nested) MemoryStore.keepsAccepted rfl (save_towering 1022)
  exact ⟨MemoryStore.keepsAccepted, rfl, save_towering 1022,
    back.mpr ⟨Nested.fits_tower 1022, levels⟩⟩

/-- One array more, and nothing is read any more. -/
theorem tower_lost :
    save Codec.nested .tryRelease (towering 1023, ({} : MemoryStore)) =
        .ok .released (toppled 1023) ∧
      ∀ v after, read Codec.nested (toppled 1023) ≠ .ok v after := by
  refine ⟨save_towering 1023, ?_⟩
  intro v after run
  have loads : ByteStore.load (toppled 1023).1.id (toppled 1023).2 =
      .ok (some (Nested.tower 1023).encode) (toppled 1023).2 := rfl
  have decoded : Codec.nested.decodeAll (Nested.tower 1023).encode = .ok v :=
    (read_released_iff rfl rfl loads).mp ⟨after, run⟩
  have front : Nested.decode maxDepth ((Nested.tower 1023).encode ++ []) = .ok (v, []) := by
    rw [List.append_nil]
    exact Codec.decodeFront_of_decodeAll decoded
  have levels := Nested.depth_le_of_decode maxDepth (Nested.fits_tower 1023) front
  rw [Nested.depth_tower] at levels
  exact absurd levels (by decide)

end Cell

end GraphJournal
