import GraphJournal.Graph.Record
import GraphJournal.Proofs.Frame
import GraphJournal.Proofs.Run

/-!
# Hooks

A hook is any writing of a node into a record. It may fail after it has written a part, with any
error; it gets the draft and nothing else, and only adds to it or overwrites a part of it. Whatever it
overwrites, the marker of the record and what the marker needs come after it. A hook that only adds
leaves the header alone, and so do the hooks that branches choose.

What becomes of a draft that is complete is NOT treated here.
-/
namespace GraphJournal

set_option autoImplicit false

namespace Draft

@[simp] theorem append_append (d : Draft) (xs ys : Bytes) :
    (d.append xs).append ys = d.append (xs ++ ys) := by
  simp [append, Writer.append]

@[simp] theorem append_nil (d : Draft) : d.append [] = d := by
  simp [append, Writer.append]

/-- Whether it succeeds or fails, it leaves a draft that has only been written to. -/
def Writes (act : DraftM Unit) : Prop := ∀ d : Draft, d.Begun → (Run.answered (act d)).2.Begun

theorem writes_pure : Writes (pure ()) := fun _ begun => begun

theorem writes_append (bytes : Bytes) : Writes (modify (append · bytes)) :=
  fun _ begun => begun.append bytes

theorem Writes.bind {act next : DraftM Unit} (first : Writes act) (second : Writes next) :
    Writes (do act; next) := by
  intro d begun
  have after := first d begun
  rw [Run.bind_apply]
  cases run : act d with
  | error e d' =>
    rw [run] at after
    exact after
  | ok a d' =>
    rw [run] at after
    exact second d' after

theorem writes_value {α : Type} (c : MessagePack.Codec α) (layout : MessagePack.Layout) (a : α) :
    Writes (value c layout a) := by
  intro d begun
  have written := begun.append (c.encode layout a).bytes
  unfold value onWriter Writer.value Writer.encoded
  cases (c.encode layout a).fault? <;> exact written

/-- A success has only added something to the draft. -/
def Appends (act : DraftM Unit) : Prop := ∀ d d', act d = .ok () d' → ∃ bytes, d' = d.append bytes

theorem appends_pure : Appends (pure ()) := by
  intro d d' done
  cases done
  exact ⟨[], d.append_nil.symm⟩

theorem appends_append (bytes : Bytes) : Appends (modify (append · bytes)) := by
  intro d d' done
  cases done
  exact ⟨bytes, rfl⟩

theorem Appends.bind {act next : DraftM Unit} (first : Appends act) (second : Appends next) :
    Appends (do act; next) := by
  intro d d' done
  rw [Run.bind_apply] at done
  cases run : act d with
  | error e d₁ =>
    rw [run] at done
    cases done
  | ok a d₁ =>
    rw [run] at done
    obtain ⟨xs, rfl⟩ := first d d₁ run
    obtain ⟨ys, rfl⟩ := second _ d' done
    exact ⟨xs ++ ys, d.append_append xs ys⟩

theorem appends_given (x : Except Error Bytes) : Appends (given x) := by
  cases x with
  | ok bytes => exact appends_append bytes
  | error e =>
    intro d d' done
    cases done

theorem writes_given (x : Except Error Bytes) : Writes (given x) := by
  cases x with
  | ok bytes => exact writes_append bytes
  | error e => exact fun _ begun => begun

end Draft

namespace Hooks

variable (h : Hooks)

def segment (step : NodeRef × Int32) : DraftM Unit :=
  if 0 ≤ step.2 then modify (·.key step.2.toUInt32) else h.locator step.1

theorem segmentsAfter_apply (pending : List Bytes) (steps : List (NodeRef × Int32)) (d : Draft) :
    h.segmentsAfter pending steps d = h.segments steps (d.append pending.reverse.flatten) := by
  induction steps generalizing pending d with
  | nil => exact congrArg (EStateM.Result.ok ()) (Draft.append_nil _).symm
  | cons step steps ih =>
    rw [segments, segmentsAfter, segmentsAfter]
    split
    · rw [ih, ih, Draft.append_append, List.reverse_cons, List.flatten_append]
      rfl
    · simp only [Run.bind_apply, Run.modify_apply, List.reverse_nil, List.flatten_nil,
        Draft.append_nil]

theorem segments_nil : h.segments [] = pure () := by
  funext d
  exact congrArg (EStateM.Result.ok ()) d.append_nil

/-- However the keys are gathered, the steps are written one after the other. -/
theorem segments_cons (step : NodeRef × Int32) (steps : List (NodeRef × Int32)) :
    h.segments (step :: steps) = h.segment step >>= fun _ => h.segments steps := by
  funext d
  rw [segments, segmentsAfter, segment]
  split
  · rw [segmentsAfter_apply]
    simp [Draft.key]
  · simp only [Run.bind_apply, Run.modify_apply, List.reverse_nil, List.flatten_nil,
      Draft.append_nil]
    rfl

/-- The hooks add to a draft or overwrite a part of it, and do nothing else to it. -/
structure Sound : Prop where
  locator : ∀ n, Draft.Writes (h.locator n)
  ahead : ∀ n, Draft.Writes (h.ahead n)

/-- The hooks only add to a draft. -/
structure Appending : Prop where
  locator : ∀ n, Draft.Appends (h.locator n)
  ahead : ∀ n, Draft.Appends (h.ahead n)

/-- The errors that come from a hook or from the payload of a record, and not from the journal. -/
inductive Raised (steps : List (NodeRef × Int32)) (n : NodeRef) (payload : DraftM Unit) (e : Error) :
    Prop
  | locator {step : NodeRef × Int32} (mem : step ∈ steps) (keyless : ¬ 0 ≤ step.2) {d d' : Draft}
      (failed : h.locator step.1 d = .error e d')
  | ahead {d d' : Draft} (failed : h.ahead n d = .error e d')
  | payload {d d' : Draft} (failed : payload d = .error e d')

section Records
variable {h} {steps : List (NodeRef × Int32)} {n : NodeRef} {field : Option UInt32} {op : Marker}
  {payload : DraftM Unit}

theorem segment_failed {step : NodeRef × Int32} {d d' : Draft} {e : Error}
    (failed : h.segment step d = .error e d') :
    ¬ 0 ≤ step.2 ∧ h.locator step.1 d = .error e d' := by
  unfold segment at failed
  split at failed
  · cases failed
  · exact ⟨by assumption, failed⟩

theorem segments_failed {d d' : Draft} {e : Error} (failed : h.segments steps d = .error e d') :
    ∃ step ∈ steps, ¬ 0 ≤ step.2 ∧ ∃ d₁ d₂, h.locator step.1 d₁ = .error e d₂ := by
  induction steps generalizing d with
  | nil => cases failed
  | cons step steps ih =>
    rw [segments_cons] at failed
    rcases Run.error_of_bind failed with here | ⟨_, d₁, -, later⟩
    · obtain ⟨keyless, failed⟩ := segment_failed here
      exact ⟨step, List.mem_cons_self, keyless, d, d', failed⟩
    · obtain ⟨other, mem, rest⟩ := ih later
      exact ⟨other, List.mem_cons_of_mem _ mem, rest⟩

/-- Keys and markers can always be written, so whatever keeps a record from being complete was
reported by a hook or by the payload. -/
theorem raised_of_write {d d' : Draft} {e : Error}
    (failed : h.write steps n field op payload d = .error e d') : h.Raised steps n payload e := by
  rcases Run.error_of_bind failed with failed | ⟨_, d₁, -, failed⟩
  · rcases Run.error_of_bind failed with address | ⟨_, d₂, -, failed⟩
    · obtain ⟨step, mem, keyless, _, _, failed⟩ := segments_failed address
      exact .locator mem keyless failed
    rcases Run.error_of_bind failed with key | ⟨_, d₃, -, failed⟩
    · cases field <;> cases key
    · exact .ahead failed
  · rcases Run.error_of_bind failed with marker | ⟨_, d₂, -, failed⟩
    · cases marker
    · exact .payload failed

variable (sound : h.Sound)
include sound

theorem Sound.segment (step : NodeRef × Int32) : Draft.Writes (h.segment step) := by
  unfold Hooks.segment
  split
  · exact Draft.writes_append _
  · exact sound.locator step.1

theorem Sound.segments (steps : List (NodeRef × Int32)) : Draft.Writes (h.segments steps) := by
  induction steps with
  | nil =>
    rw [segments_nil]
    exact Draft.writes_pure
  | cons step steps ih =>
    rw [segments_cons]
    exact (sound.segment step).bind ih

theorem Sound.front : Draft.Writes (h.front steps n field) := by
  have key : Draft.Writes (fieldKey field) := by
    cases field with
    | none => exact Draft.writes_pure
    | some field => exact Draft.writes_append _
  exact (sound.segments steps).bind (key.bind (sound.ahead n))

theorem Sound.write (written : Draft.Writes payload) :
    Draft.Writes (h.write steps n field op payload) :=
  sound.front.bind ((Draft.writes_append [op.byte]).bind written)

/-- What is there when the marker's turn comes is still framed as it began. -/
theorem Sound.begun_front {front : Draft}
    (written : h.front steps n field (.begin .record) = .ok () front) : front.Begun := by
  have after : (Run.answered (h.front steps n field (.begin .record))).2.Begun :=
    sound.front _ (.begin .record)
  rw [written] at after
  exact after

omit sound
variable (appending : h.Appending)
include appending

theorem Appending.segments (steps : List (NodeRef × Int32)) : Draft.Appends (h.segments steps) := by
  induction steps with
  | nil =>
    rw [segments_nil]
    exact Draft.appends_pure
  | cons step steps ih =>
    rw [segments_cons]
    refine Draft.Appends.bind ?_ ih
    unfold Hooks.segment
    split
    · exact Draft.appends_append _
    · exact appending.locator step.1

/-- Before the marker there is the header as it was begun, and what has been added to it. -/
theorem Appending.front {front : Draft}
    (written : h.front steps n field (.begin .record) = .ok () front) :
    ∃ bytes, front = .record bytes := by
  have key : Draft.Appends (fieldKey field) := by
    cases field with
    | none => exact Draft.appends_pure
    | some field => exact Draft.appends_append _
  exact (appending.segments steps).bind (key.bind (appending.ahead n)) _ _ written

end Records

end Hooks

namespace Graph

variable {κ : Type} [Values κ]

section OwnHooks
variable (g : Graph κ)

theorem sound_ownHooks : g.ownHooks.Sound :=
  ⟨fun _ => Draft.writes_given _, fun _ => Draft.writes_given _⟩

theorem appending_ownHooks : g.ownHooks.Appending :=
  ⟨fun _ => Draft.appends_given _, fun _ => Draft.appends_given _⟩

theorem segment_ownHooks (step : NodeRef × Int32) :
    g.ownHooks.segment step = Draft.given (g.segment step.1 step.2) := by
  unfold Hooks.segment segment
  split <;> rfl

/-- The steps written one after the other are the steps put together first. -/
theorem segments_ownHooks (steps : List (NodeRef × Int32)) (d : Draft) :
    match steps.mapM fun step => g.segment step.1 step.2 with
    | .ok parts => g.ownHooks.segments steps d = .ok () (d.append parts.flatten)
    | .error e => ∃ d', g.ownHooks.segments steps d = .error e d' := by
  induction steps generalizing d with
  | nil => rfl
  | cons step steps ih =>
    rw [List.mapM_cons, Hooks.segments_cons, Run.bind_apply, segment_ownHooks]
    cases g.segment step.1 step.2 with
    | error e => exact ⟨d, rfl⟩
    | ok part =>
      have rest := ih (d.append part)
      simp only [bind, Except.bind]
      cases parts : steps.mapM (fun step => g.segment step.1 step.2) with
      | error e =>
        rw [parts] at rest
        exact rest
      | ok parts =>
        rw [parts] at rest
        simp only [Draft.append_append] at rest
        exact rest

theorem address_eq (n : NodeRef) (location : Location) (withOwn : Bool) :
    g.address n location withOwn =
      List.flatten <$> (location.steps n withOwn).mapM fun step => g.segment step.1 step.2 := by
  unfold address Location.steps
  rw [List.mapM_append]
  cases location.ancestors.mapM fun step => g.segment step.1 step.2 with
  | error e => rfl
  | ok above =>
    cases withOwn with
    | false => simp [bind, Except.bind, pure, Except.pure, Functor.map, Except.map]
    | true =>
      cases own : g.segment n location.key <;>
        simp [own, bind, Except.bind, pure, Except.pure, Functor.map, Except.map]

theorem fieldKey_eq (field : Option UInt32) (d : Draft) :
    Hooks.fieldKey field d = .ok () (d.append ((field.map Draft.keySegment).getD [])) := by
  cases field with
  | none => exact congrArg (EStateM.Result.ok ()) d.append_nil.symm
  | some field => rfl

variable {g} {n : NodeRef} {location : Location} {withOwn : Bool} {field : Option UInt32}

theorem segments_of_address {address : Bytes} (steps : g.address n location withOwn = .ok address)
    (d : Draft) :
    g.ownHooks.segments (location.steps n withOwn) d = .ok () (d.append address) := by
  have written := g.segments_ownHooks (location.steps n withOwn) d
  rw [address_eq] at steps
  cases parts : (location.steps n withOwn).mapM fun step => g.segment step.1 step.2 with
  | error e =>
    rw [parts] at steps
    cases steps
  | ok parts' =>
    rw [parts] at steps written
    cases steps
    exact written

/-- With the hooks of the branches there stand, before the marker, the parts put together. -/
theorem front_ownHooks_iff {front : Draft} :
    g.ownHooks.front (location.steps n withOwn) n field (.begin .record) = .ok () front ↔
      ∃ address ahead, g.address n location withOwn = .ok address ∧ g.recordPrefix n = .ok ahead ∧
        front = .record (address ++ (field.map Draft.keySegment).getD [] ++ ahead) := by
  rw [Hooks.front, Run.bind_apply]
  cases steps : g.address n location withOwn with
  | error e =>
    have written := g.segments_ownHooks (location.steps n withOwn) (.begin .record)
    rw [address_eq] at steps
    cases parts : (location.steps n withOwn).mapM fun step => g.segment step.1 step.2 with
    | ok parts' =>
      rw [parts] at steps
      cases steps
    | error e' =>
      rw [parts] at written
      obtain ⟨d', failed⟩ := written
      simp [failed]
  | ok address =>
    simp only [segments_of_address steps, Run.bind_apply, fieldKey_eq]
    cases ahead : g.recordPrefix n with
    | error e => simp [ownHooks, ahead, Draft.given]
    | ok ahead' => simp [ownHooks, ahead, Draft.given, Draft.record, eq_comm]

end OwnHooks

end Graph

end GraphJournal
