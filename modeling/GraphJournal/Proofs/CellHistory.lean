import GraphJournal.Cell
import GraphJournal.MessagePack.Scalar
import GraphJournal.Proofs.LawfulStore

/-!
# What a cell has been through

The value of a cell, wherever it is, through runs of reads, writes, saves and erasures. The store may
decline, fail or miss what it keeps at any call. Others who use the same identity are NOT considered,
and values that are changed while they are written neither.
-/
namespace GraphJournal

set_option autoImplicit false

open MessagePack

/-- What is written whole is read back. -/
def MessagePack.Codec.Restores {α : Type} (codec : Codec α) (layout : Layout) : Prop :=
  ∀ a, (codec.encode layout a).fault? = none →
    codec.decodeAll (codec.encode layout a).bytes = .ok a

namespace Cell

open LawfulStore (Unchanged Replaced)

variable {α σ : Type} [ByteStore σ] [LawfulStore σ] {codec : Codec α}

/-- The value that the copy in the store stands for. -/
def copy? (codec : Codec α) (s : σ) (id : NodeId) : Option α :=
  (LawfulStore.kept s id).bind fun bytes => (codec.decodeAll bytes).toOption

/-- The value, whether it is in memory or in the store only. -/
def logical? (codec : Codec α) (s : Cell α × σ) : Option α :=
  match s.1.state with
  | .resident value => some value
  | .released => copy? codec s.2 s.1.id

/-- The cell is the same but for the place of its value, and the store but for the cell's copy. -/
structure Framed (before after : Cell α × σ) : Prop where
  id : after.1.id = before.1.id
  config : after.1.config = before.1.config
  lock : after.1.lock = before.1.lock
  others : ∀ other, other ≠ before.1.id →
    LawfulStore.kept after.2 other = LawfulStore.kept before.2 other
  honest : LawfulStore.honest before.2 → LawfulStore.honest after.2

theorem Framed.of_unchanged {c : Cell α} {s s' : σ} (same : Unchanged s s') (state : Residency α) :
    Framed (c, s) ({ c with state }, s') :=
  ⟨rfl, rfl, rfl, fun other _ => by rw [same.kept], same.honest⟩

theorem Framed.of_replaced {c : Cell α} {s s' : σ} {held : Option Bytes}
    (now : Replaced c.id held s s') (state : Residency α) :
    Framed (c, s) ({ c with state }, s') :=
  ⟨rfl, rfl, rfl, fun _ apart => now.elsewhere apart, now.honest⟩

theorem copy?_of_kept {s s' : σ} (same : LawfulStore.kept s' = LawfulStore.kept s) (id : NodeId) :
    copy? codec s' id = copy? codec s id := by
  rw [copy?, copy?, same]

theorem logical?_of_unchanged {c : Cell α} {s s' : σ} (same : Unchanged s s') :
    logical? codec (c, s') = logical? codec (c, s) := by
  simp only [logical?, copy?_of_kept same.kept]

/-- The ways in which a value can be brought back. -/
inductive Reloaded (codec : Codec α) (c : Cell α) (s : σ) :
    EStateM.Result Error (Cell α × σ) α → Prop
  | here {value : α} {s' : σ} (was : logical? codec (c, s) = some value) (same : Unchanged s s') :
      Reloaded codec c s (.ok value ({ c with state := .resident value }, s'))
  | failed {e : Error} {s' : σ} (why : c.state = .released ∨ c.lock.admitsWriter = false)
      (same : Unchanged s s') : Reloaded codec c s (.error e (c, s'))

theorem reload_result (codec : Codec α) (c : Cell α) (s : σ) :
    Reloaded codec c s (reload codec (c, s)) := by
  unfold reload
  simp only [Run.bind_apply, Run.get_apply]
  cases state : c.state with
  | resident value =>
    have same : c = { c with state := .resident value } := by
      cases c
      cases state
      rfl
    have was : logical? codec (c, s) = some value := by
      rw [same]
      rfl
    have answer := Reloaded.here was (Unchanged.refl s)
    rwa [← same] at answer
  | released =>
    simp only [Run.bind_apply, onStore]
    rcases LawfulStore.load_cases s c.id with
      ⟨bytes, s', run, there, same⟩ | ⟨s', run, same⟩ | ⟨e, s', run, same⟩
    · simp only [run]
      cases decoded : codec.decodeAll bytes with
      | error e => exact .failed (Or.inl state) same
      | ok value =>
        refine .here ?_ same
        simp only [logical?, state, copy?, there, Option.bind_some, decoded]
        rfl
    · simp only [run]
      exact .failed (Or.inl state) same
    · simp only [run]
      exact .failed (Or.inl state) same

inductive Copied (codec : Codec α) (c : Cell α) (s : σ) (value : α) :
    EStateM.Result Error (Cell α × σ) Bool → Prop
  | accepted {s' : σ} (whole : (codec.encode c.config.layout value).fault? = none)
      (now : Replaced c.id (some (codec.encode c.config.layout value).bytes) s s') :
      Copied codec c s value (.ok true (c, s'))
  | declined {s' : σ} (same : Unchanged s s') : Copied codec c s value (.ok false (c, s'))
  | failed {e : Error} {s' : σ} (same : Unchanged s s') : Copied codec c s value (.error e (c, s'))

theorem persist_result (codec : Codec α) (c : Cell α) (s : σ) (value : α) :
    Copied codec c s value (persist codec value (c, s)) := by
  unfold persist
  simp only [Run.bind_apply, Run.get_apply, Encoded.toExcept]
  cases fault : (codec.encode c.config.layout value).fault? with
  | some fault => exact .failed (Unchanged.refl s)
  | none =>
    simp only [onStore]
    rcases LawfulStore.persist_cases s c.id (codec.encode c.config.layout value).bytes with
      ⟨s', run, now⟩ | ⟨s', run, same⟩ | ⟨e, s', run, same⟩
    · simp only [run]
      exact .accepted fault now
    · simp only [run]
      exact .declined same
    · simp only [run]
      exact .failed same

theorem beginWrite_result (codec : Codec α) (c : Cell α) (s : σ) :
    Reloaded codec c s (beginWrite codec (c, s)) := by
  unfold beginWrite awaitWriter
  simp only [Run.bind_apply, Run.get_apply]
  by_cases free : c.lock.admitsWriter = true
  · simp only [free, if_true, Run.pure_apply]
    exact reload_result codec c s
  · simp only [free]
    exact .failed (Or.inr (Bool.eq_false_iff.mpr free)) (Unchanged.refl s)

theorem read_result (codec : Codec α) (c : Cell α) (s : σ) :
    Reloaded codec c s (read codec (c, s)) := by
  have again := beginWrite_result codec c s
  unfold read awaitReader
  simp only [Run.bind_apply, Run.get_apply]
  by_cases free : c.lock.admitsReader = true
  · simp only [free, if_true, Run.pure_apply]
    cases state : c.state with
    | resident value =>
      have answer := reload_result codec c s
      simpa only [reload, Run.bind_apply, Run.get_apply, state, Run.pure_apply] using answer
    | released => exact again
  · have held : c.lock.admitsWriter = false := by
      rw [Bool.eq_false_iff]
      exact fun alone => free (LockState.admitsReader_of_writer alone)
    simp only [free]
    exact .failed (Or.inr held) (Unchanged.refl s)

inductive Altered (codec : Codec α) (change : α → α) (c : Cell α) (s : σ) :
    EStateM.Result Error (Cell α × σ) α → Prop
  | done {value : α} {s' : σ} (was : logical? codec (c, s) = some value) (same : Unchanged s s') :
      Altered codec change c s (.ok value ({ c with state := .resident (change value) }, s'))
  | failed {e : Error} {s' : σ} (same : Unchanged s s') :
      Altered codec change c s (.error e (c, s'))

theorem alter_result (codec : Codec α) (change : α → α) (c : Cell α) (s : σ) :
    Altered codec change c s (alter codec change (c, s)) := by
  have answer := beginWrite_result codec c s
  simp only [alter, Run.bind_apply]
  generalize beginWrite codec (c, s) = result at answer
  cases answer with
  | here was same => exact .done was same
  | failed why same => exact .failed same

inductive TriedAlter (codec : Codec α) (change : α → α) (c : Cell α) (s : σ) :
    EStateM.Result Error (Cell α × σ) (Option α) → Prop
  | done {value : α} {s' : σ} (was : logical? codec (c, s) = some value) (same : Unchanged s s') :
      TriedAlter codec change c s (.ok (some value) ({ c with state := .resident (change value) }, s'))
  | contended (held : c.lock.admitsWriter = false) : TriedAlter codec change c s (.ok none (c, s))
  | failed {e : Error} {s' : σ} (same : Unchanged s s') :
      TriedAlter codec change c s (.error e (c, s'))

theorem tryAlter_result (codec : Codec α) (change : α → α) (c : Cell α) (s : σ) :
    TriedAlter codec change c s (tryAlter codec change (c, s)) := by
  simp only [tryAlter, Run.bind_apply, Run.get_apply]
  by_cases free : c.lock.admitsWriter = true
  · have answer := reload_result codec c s
    simp only [free, if_true, Run.bind_apply]
    generalize reload codec (c, s) = result at answer
    cases answer with
    | here was same => exact .done was same
    | failed why same => exact .failed same
  · simp only [free]
    exact .contended (Bool.eq_false_iff.mpr free)

inductive Saved (codec : Codec α) (value : α) (c : Cell α) (s : σ) :
    EStateM.Result Error (Cell α × σ) SaveOutcome → Prop
  | stored {s' : σ} (copied : copy? codec s' c.id = some value) (framed : Framed (c, s) (c, s')) :
      Saved codec value c s (.ok .stored (c, s'))
  | released {s' : σ} (copied : copy? codec s' c.id = some value)
      (framed : Framed (c, s) ({ c with state := .released }, s')) :
      Saved codec value c s (.ok .released ({ c with state := .released }, s'))
  | rejected {s' : σ} (same : Unchanged s s') : Saved codec value c s (.ok .rejected (c, s'))
  | skipped (held : c.lock.admitsWriter = false) : Saved codec value c s (.ok .skipped (c, s))
  | failed {e : Error} {s' : σ} (same : Unchanged s s') : Saved codec value c s (.error e (c, s'))

section Saving
variable {c : Cell α} {s : σ} {value : α}

theorem copy?_of_replaced (restores : codec.Restores c.config.layout) {s' : σ}
    (whole : (codec.encode c.config.layout value).fault? = none)
    (now : Replaced c.id (some (codec.encode c.config.layout value).bytes) s s') :
    copy? codec s' c.id = some value := by
  rw [copy?, now.here, Option.bind_some, restores value whole]
  rfl

theorem released_eq (state : c.state = .released) : { c with state := .released } = c := by
  cases c
  cases state
  rfl

theorem persistAndRelease_result (restores : codec.Restores c.config.layout)
    (was : logical? codec (c, s) = some value) :
    Saved codec value c s (persistAndRelease codec (c, s)) := by
  simp only [persistAndRelease, Run.bind_apply, Run.get_apply]
  cases state : c.state with
  | released =>
    have copied : copy? codec s c.id = some value := by
      simpa only [logical?, state] using was
    have answer : Saved codec value c s (.ok .released ({ c with state := .released }, s)) :=
      .released copied (Framed.of_unchanged (Unchanged.refl s) .released)
    rwa [released_eq state] at answer
  | resident held =>
    have same : held = value := by
      simpa only [logical?, state, Option.some.injEq] using was
    subst same
    have answer := persist_result codec c s held
    simp only [Run.bind_apply]
    generalize persist codec held (c, s) = result at answer
    cases answer with
    | accepted whole now =>
      exact .released (copy?_of_replaced restores whole now) (Framed.of_replaced now .released)
    | declined same => exact .rejected same
    | failed same => exact .failed same

theorem save_result (restores : codec.Restores c.config.layout)
    (was : logical? codec (c, s) = some value) (mode : SaveMode) :
    Saved codec value c s (save codec mode (c, s)) := by
  cases mode with
  | storeOnly =>
    simp only [save, awaitReader, Run.bind_apply, Run.get_apply]
    by_cases free : c.lock.admitsReader = true
    · simp only [free, if_true, Run.pure_apply]
      cases state : c.state with
      | released =>
        have copied : copy? codec s c.id = some value := by
          simpa only [logical?, state] using was
        exact .stored copied (Framed.of_unchanged (Unchanged.refl s) c.state)
      | resident held =>
        have same : held = value := by
          simpa only [logical?, state, Option.some.injEq] using was
        subst same
        have answer := persist_result codec c s held
        simp only [Run.bind_apply]
        generalize persist codec held (c, s) = result at answer
        cases answer with
        | accepted whole now =>
          exact .stored (copy?_of_replaced restores whole now) (Framed.of_replaced now c.state)
        | declined same => exact .rejected same
        | failed same => exact .failed same
    · simp only [free]
      exact .failed (Unchanged.refl s)
  | tryRelease =>
    simp only [save, Run.bind_apply, Run.get_apply]
    by_cases free : c.lock.admitsWriter = true
    · simp only [free, if_true]
      exact persistAndRelease_result restores was
    · simp only [free]
      exact .skipped (Bool.eq_false_iff.mpr free)
  | forceRelease =>
    simp only [save, awaitWriter, Run.bind_apply, Run.get_apply]
    by_cases free : c.lock.admitsWriter = true
    · simp only [free, if_true, Run.pure_apply]
      exact persistAndRelease_result restores was
    · simp only [free]
      exact .failed (Unchanged.refl s)

inductive Erased (codec : Codec α) (c : Cell α) (s : σ) :
    EStateM.Result Error (Cell α × σ) Unit → Prop
  | done {s' : σ} (now : Replaced c.id none s s') :
      Erased codec c s (.ok () ({ c with state := .resident codec.default }, s'))
  | failed {e : Error} {s' : σ} (same : Unchanged s s') : Erased codec c s (.error e (c, s'))

theorem erase_result (codec : Codec α) (honest : LawfulStore.honest s) :
    Erased codec c s (erase codec (c, s)) := by
  simp only [erase, awaitWriter, Run.bind_apply, Run.get_apply]
  by_cases free : c.lock.admitsWriter = true
  · simp only [free, if_true, Run.pure_apply, onStore]
    rcases LawfulStore.forget_cases s c.id honest with ⟨there, s', run, now⟩ | ⟨e, s', run, same⟩
    · simp only [run]
      exact .done now
    · simp only [run]
      exact .failed same
  · simp only [free]
    exact .failed (Unchanged.refl s)

end Saving

/-- A call on a cell; whoever writes may change the value in any way. -/
inductive Call (α : Type)
  | read
  | write (change : α → α)
  | tryWrite (change : α → α)
  | save (mode : SaveMode)
  | erase

inductive Reply (α : Type)
  | value (value : α)
  | written
  | contended
  | saved (outcome : SaveOutcome)
  | erased

abbrev Trace (α : Type) := List (Call α × Except Error (Reply α))

section Runs
variable (codec : Codec α)

def call : Call α → CellM α σ (Reply α)
  | .read => .value <$> read codec
  | .write change => (fun _ => .written) <$> alter codec change
  | .tryWrite change => (if ·.isSome then .written else .contended) <$> tryAlter codec change
  | .save mode => .saved <$> save codec mode
  | .erase => (fun _ => .erased) <$> erase codec

/-- What a call that was answered so has made of the value. -/
def effect : Call α → Except Error (Reply α) → α → α
  | .write change, .ok .written, value => change value
  | .tryWrite change, .ok .written, value => change value
  | .erase, .ok .erased, _ => codec.default
  | _, _, value => value

def step (s : Trace α × (Cell α × σ)) (c : Call α) : Trace α × (Cell α × σ) :=
  (s.1 ++ [(c, (Run.answered (call codec c s.2)).1)], (Run.answered (call codec c s.2)).2)

def run (calls : List (Call α)) (s : Cell α × σ) : Trace α × (Cell α × σ) :=
  calls.foldl (step codec) ([], s)

def valueAfter (trace : Trace α) (value : α) : α :=
  trace.foldl (fun value x => effect codec x.1 x.2 value) value

end Runs

/-- A call that was refused has left alone the cell and what its store keeps. -/
def Refused : Except Error (Reply α) → Prop
  | .error _ | .ok .contended | .ok (.saved .rejected) | .ok (.saved .skipped) => True
  | _ => False

/-- What a call answers and leaves behind, where the value of the cell was `value` before it. -/
structure Step (codec : Codec α) (c : Call α) (answer : Except Error (Reply α)) (value : α)
    (before after : Cell α × σ) : Prop where
  framed : Framed before after
  logical : logical? codec after = some (effect codec c answer value)
  read : ∀ a, answer = .ok (.value a) → a = value
  resident : (∃ a, answer = .ok (.value a)) ∨ answer = .ok .written →
    after.1.state.isResident = true
  copied : ∀ outcome, answer = .ok (.saved outcome) → outcome = .stored ∨ outcome = .released →
    copy? codec after.2 after.1.id = some value
  stored : answer = .ok (.saved .stored) → after.1 = before.1
  released : answer = .ok (.saved .released) → after.1.state = .released
  refused : Refused answer →
    after.1 = before.1 ∧ LawfulStore.kept after.2 = LawfulStore.kept before.2
  erased : answer = .ok .erased →
    after.1.state = .resident codec.default ∧ LawfulStore.kept after.2 after.1.id = none
  free : before.1.lock.admitsWriter = true →
    answer ≠ .ok .contended ∧ answer ≠ .ok (.saved .skipped)

section Steps
variable {c : Cell α} {s : σ} {value : α}

/-- Only what is written or erased changes the value. -/
theorem effect_eq_self {call : Call α} {answer : Except Error (Reply α)}
    (notWritten : answer ≠ .ok .written) (notErased : answer ≠ .ok .erased) :
    effect codec call answer value = value := by
  unfold effect
  split
  · exact absurd rfl notWritten
  · exact absurd rfl notWritten
  · exact absurd rfl notErased
  · rfl

theorem step_refused (was : logical? codec (c, s) = some value) {s' : σ} (same : Unchanged s s')
    {call : Call α} {answer : Except Error (Reply α)} (refused : Refused answer)
    (free : c.lock.admitsWriter = true → answer ≠ .ok .contended ∧ answer ≠ .ok (.saved .skipped)) :
    Step codec call answer value (c, s) (c, s') := by
  -- None of these answers is a refusal, and each other field speaks of one of them.
  have notValue (a : α) : answer ≠ .ok (.value a) := by
    rintro rfl
    exact refused
  have notWritten : answer ≠ .ok .written := by
    rintro rfl
    exact refused
  have notErased : answer ≠ .ok .erased := by
    rintro rfl
    exact refused
  have notStored : answer ≠ .ok (.saved .stored) := by
    rintro rfl
    exact refused
  have notReleased : answer ≠ .ok (.saved .released) := by
    rintro rfl
    exact refused
  refine ⟨Framed.of_unchanged same c.state, ?_, fun a is => absurd is (notValue a), ?_, ?_,
    fun is => absurd is notStored, fun is => absurd is notReleased, fun _ => ⟨rfl, same.kept⟩,
    fun is => absurd is notErased, free⟩
  · rw [effect_eq_self notWritten notErased, logical?_of_unchanged same, was]
  · rintro (⟨a, is⟩ | is)
    · exact absurd is (notValue a)
    · exact absurd is notWritten
  · rintro outcome is (rfl | rfl)
    · exact absurd is notStored
    · exact absurd is notReleased

/-- A call after which the value, old or new, is in memory. -/
theorem step_resident {s' : σ} (same : Unchanged s s') {call : Call α} {reply : Reply α}
    (kind : reply = .value value ∨ reply = .written) :
    Step codec call (.ok reply) value (c, s)
      ({ c with state := .resident (effect codec call (.ok reply) value) }, s') := by
  refine ⟨Framed.of_unchanged same _, rfl, ?_, fun _ => rfl, ?_, ?_, ?_, ?_, ?_, ?_⟩
  all_goals rcases kind with rfl | rfl
  all_goals simp_all [Refused]

theorem logical?_of_copied {s' : σ} (copied : copy? codec s' c.id = some value)
    (was : logical? codec (c, s) = some value) : logical? codec (c, s') = some value := by
  unfold logical? at was ⊢
  cases state : c.state with
  | resident held => simpa only [state] using was
  | released => exact copied

theorem step_saved (mode : SaveMode) {result : EStateM.Result Error (Cell α × σ) SaveOutcome}
    (answer : Saved codec value c s result) (was : logical? codec (c, s) = some value) :
    Step codec (.save mode) ((Run.answered result).1.map .saved) value (c, s)
      (Run.answered result).2 := by
  cases answer with
  | stored copied framed =>
    refine ⟨framed, logical?_of_copied copied was, ?_, ?_, fun _ _ _ => copied, fun _ => rfl, ?_, ?_,
      ?_, ?_⟩
    all_goals simp [Except.map, Refused]
  | released copied framed =>
    refine ⟨framed, copied, ?_, ?_, fun _ _ _ => copied, ?_, fun _ => rfl, ?_, ?_, ?_⟩
    all_goals simp [Except.map, Refused]
  | rejected same => exact step_refused was same trivial fun _ => by simp [Except.map]
  | skipped held =>
    refine step_refused was (Unchanged.refl s) trivial ?_
    intro free
    rw [held] at free
    cases free
  | failed same => exact step_refused was same trivial fun _ => by simp [Except.map]

theorem step_erased {result : EStateM.Result Error (Cell α × σ) Unit}
    (answer : Erased codec c s result) (was : logical? codec (c, s) = some value) :
    Step codec .erase ((Run.answered result).1.map fun _ => .erased) value (c, s)
      (Run.answered result).2 := by
  cases answer with
  | done now =>
    refine ⟨Framed.of_replaced now _, rfl, ?_, ?_, ?_, ?_, ?_, ?_, fun _ => ⟨rfl, now.here⟩, ?_⟩
    all_goals simp [Except.map, Refused]
  | failed same => exact step_refused was same trivial fun _ => by simp [Except.map]

/-- Every call keeps to what it answers, whatever the store does. -/
theorem step_of_logical {s : Cell α × σ} (restores : codec.Restores s.1.config.layout)
    (honest : LawfulStore.honest s.2) (was : logical? codec s = some value) (call : Call α) :
    Step codec call (Run.answered (Cell.call codec call s)).1 value s
      (Run.answered (Cell.call codec call s)).2 := by
  obtain ⟨c, s⟩ := s
  cases call with
  | read =>
    have answer := read_result codec c s
    simp only [Cell.call, Run.map_apply]
    generalize read codec (c, s) = result at answer
    cases answer with
    | here held same =>
      rw [was] at held
      cases held
      exact step_resident same (Or.inl rfl)
    | failed why same => exact step_refused was same trivial fun _ => by simp
  | write change =>
    have answer := alter_result codec change c s
    simp only [Cell.call, Run.map_apply]
    generalize alter codec change (c, s) = result at answer
    cases answer with
    | done held same =>
      rw [was] at held
      cases held
      exact step_resident same (Or.inr rfl)
    | failed same => exact step_refused was same trivial fun _ => by simp
  | tryWrite change =>
    have answer := tryAlter_result codec change c s
    simp only [Cell.call, Run.map_apply]
    generalize tryAlter codec change (c, s) = result at answer
    cases answer with
    | done held same =>
      rw [was] at held
      cases held
      exact step_resident same (Or.inr rfl)
    | contended held =>
      refine step_refused was (Unchanged.refl s) trivial ?_
      intro free
      rw [held] at free
      cases free
    | failed same => exact step_refused was same trivial fun _ => by simp
  | save mode =>
    have answer := step_saved mode (save_result restores was mode) was
    simp only [Cell.call, Run.map_apply]
    generalize save codec mode (c, s) = result at answer
    cases result <;> exact answer
  | erase =>
    have answer := step_erased (erase_result codec honest) was
    simp only [Cell.call, Run.map_apply]
    generalize erase codec (c, s) = result at answer
    cases result <;> exact answer

end Steps

/-- What a run preserves: the value is what the answers of its calls have made of the first one. -/
structure Holds (codec : Codec α) (start : Cell α × σ) (value : α)
    (now : Trace α × (Cell α × σ)) : Prop where
  framed : Framed start now.2
  logical : logical? codec now.2 = some (valueAfter codec now.1 value)

theorem Framed.trans {s₁ s₂ s₃ : Cell α × σ} (first : Framed s₁ s₂) (second : Framed s₂ s₃) :
    Framed s₁ s₃ := by
  refine ⟨?_, ?_, ?_, ?_, fun h => second.honest (first.honest h)⟩
  · rw [second.id, first.id]
  · rw [second.config, first.config]
  · rw [second.lock, first.lock]
  · intro other apart
    rw [second.others other (first.id ▸ apart), first.others other apart]

theorem holds_steps {start : Cell α × σ} {value : α}
    (restores : codec.Restores start.1.config.layout) (honest : LawfulStore.honest start.2)
    (calls : List (Call α)) {now : Trace α × (Cell α × σ)} (h : Holds codec start value now) :
    Holds codec start value (calls.foldl (step codec) now) := by
  induction calls generalizing now with
  | nil => exact h
  | cons c calls ih =>
    have next := step_of_logical (h.framed.config ▸ restores) (h.framed.honest honest) h.logical c
    refine ih ⟨h.framed.trans next.framed, ?_⟩
    rw [step, valueAfter, List.foldl_append]
    exact next.logical

/-- Every run of a cell with a value, and every call after it. -/
theorem run_keeps_value {s : Cell α × σ} {value : α} (restores : codec.Restores s.1.config.layout)
    (honest : LawfulStore.honest s.2) (was : logical? codec s = some value)
    (calls : List (Call α)) :
    Framed s (run codec calls s).2 ∧
      logical? codec (run codec calls s).2 =
        some (valueAfter codec (run codec calls s).1 value) ∧
      ∀ c, Step codec c (Run.answered (call codec c (run codec calls s).2)).1
        (valueAfter codec (run codec calls s).1 value) (run codec calls s).2
        (Run.answered (call codec c (run codec calls s).2)).2 := by
  have start : Holds codec s value ([], s) :=
    ⟨⟨rfl, rfl, rfl, fun _ _ => rfl, fun h => h⟩, was⟩
  have holds := holds_steps restores honest calls start
  refine ⟨holds.framed, holds.logical, ?_⟩
  intro c
  exact step_of_logical (holds.framed.config ▸ restores) (holds.framed.honest honest) holds.logical c

theorem bool_restores (layout : Layout) : Codec.bool.Restores layout := by
  intro b _
  cases b <;> rfl

/-- A store that keeps `true` for one node, and that at first fails to find it and to keep anything
else. -/
def flaky : ScriptedStore :=
  { memory := { entries := OrderedMap.empty.insert ⟨7⟩ [0xc3] }
    persists := [.decline, .fail]
    loads := [.fail] }

def away : Cell Bool × ScriptedStore := ({ id := ⟨7⟩, state := .released }, flaky)

def flakyCalls : List (Call Bool) :=
  [.read, .write not, .save .forceRelease, .save .storeOnly, .save .tryRelease, .tryWrite not, .erase]

theorem flaky_keeps_value :
    Codec.bool.Restores away.1.config.layout ∧ LawfulStore.honest away.2 ∧
      logical? Codec.bool away = some true ∧
      logical? Codec.bool (run Codec.bool flakyCalls away).2 =
        some (valueAfter Codec.bool (run Codec.bool flakyCalls away).1 true) := by
  have honest : LawfulStore.honest away.2 := by
    change Answer.decline ∉ []
    exact List.not_mem_nil
  have was : logical? Codec.bool away = some true := rfl
  have kept := run_keeps_value (bool_restores _) honest was flakyCalls
  exact ⟨bool_restores _, honest, was, kept.2.1⟩

end Cell

end GraphJournal
