import GraphJournal.Proofs.VaultHistory

/-!
# Checkpoints

What a save leaves in the store, together with what is recorded from then on or from before, gives
the value back, if the store brings back what it keeps when the value is to be recovered. A store
that fails then is NOT made up for: the first record is refused.
-/
namespace GraphJournal

set_option autoImplicit false

open MessagePack

variable {κ : Type} [Values κ]

namespace Vault

open GraphJournal.Graph

/-- Replaying the bytes into the node goes without an incident, and the node gives the value. -/
def Recovers (h : Graph κ) (m : NodeRef) (bytes : Bytes) (kind : κ) (v : Values.Carrier kind) :
    Prop :=
  (h.replay m bytes).1.isClean = true ∧
    ∃ h', readValue m (h.replay m bytes).2 = .ok (some ⟨kind, v⟩) h'

/-- A node of the same identity whose value is only in the same store, which gives what it keeps. -/
structure Fresh (vault : Vault κ) (g h : Graph κ) (m : NodeRef) : Prop where
  content : ∃ cell s, h.content? m = some (.persistent vault.kind cell s) ∧ cell.id = vault.id ∧
    cell.state = .released ∧ cell.lock.admitsWriter = true ∧
    h.stores[s.index]? = g.stores[vault.store.index]?
  answers : ∀ store, g.stores[vault.store.index]? = some store →
    ∃ store', ByteStore.load vault.id store = .ok (LawfulStore.kept store vault.id) store'

section Recovery
variable {vault : Vault κ} {g h : Graph κ} {m : NodeRef} {fs : List Frame}

theorem recovers_of_takes {kind : κ} {w v : Values.Carrier kind} (takes : Takes h m kind w)
    (leads : Leads kind w fs v) : Recovers h m (Frame.join fs) kind v := by
  obtain ⟨clean, now⟩ := takes.replay leads
  exact ⟨clean, now.readValue⟩

theorem Fresh.takes {w : Values.Carrier vault.kind} (fresh : vault.Fresh g h m)
    (copy : vault.HasCopy g w) : Takes h m vault.kind w := by
  obtain ⟨cell, s, content, id, state, free, same⟩ := fresh.content
  obtain ⟨store, found, copied⟩ := copy
  obtain ⟨bytes, there, decoded⟩ := Option.bind_eq_some_iff.mp copied
  obtain ⟨store', loads⟩ := fresh.answers store found
  rw [there, ← id] at loads
  refine .released content (same.trans found) free state loads ?_
  cases result : (Values.codec vault.kind).decodeAll bytes with
  | error e =>
    rw [result] at decoded
    cases decoded
  | ok value =>
    rw [result] at decoded
    cases decoded
    rfl

/-- The copy may be an older one. Then something has been recorded since, and it does not matter. -/
theorem Fresh.recovers {v₀ v : Values.Carrier vault.kind} {p : Nat} {before since : List Frame}
    (fresh : vault.Fresh g h m) (safe : vault.Safe p g (before ++ since) v) (early : before.length ≤ p)
    (leads : Leads vault.kind v₀ (before ++ since) v) :
    Recovers h m (Frame.join since) vault.kind v := by
  obtain ⟨within, w, copy, current⟩ := safe
  obtain ⟨u, -, leads⟩ := leads.split
  refine recovers_of_takes (fresh.takes copy) ?_
  -- Without a record since, the copy is the value itself; the last record decides otherwise.
  rcases since with _ | ⟨f, since⟩
  · rw [List.append_nil] at within current
    have same : w = v := current (Nat.le_antisymm early within)
    subst same
    exact .none w
  · exact leads.of_ne_nil (List.cons_ne_nil _ _) w

/-- A value that has been saved once is recovered from the store and what was recorded since, or
since any moment before. The store is never ahead of the journal: what is handed to it is the value
that all records together lead to. -/
theorem checkpoint_recovers (on : vault.On g) {j : Journal} {queue : SaveQueue NodeRef}
    {frames : List Frame} (live : g.root? vault.root = some (.journal j queue))
    (data : j.data = Frame.join frames)
    (short : (Values.codec vault.kind).RestoresShort j.config.layout)
    (restores : (Values.codec vault.kind).Restores vault.config.layout)
    {v₀ : Values.Carrier vault.kind} (held : g.held? vault.node = some (.single vault.kind v₀))
    (calls : List (VaultCall κ))
    (recorded : ∀ outcome ∈ (vault.run calls g).outcomes, outcome.isCommitted = true) :
    ∃ v, (vault.run calls g).graph.held? vault.node = some (.single vault.kind v) ∧
      (∀ h m, Takes h m vault.kind v₀ →
        Recovers h m (vault.tail (vault.run [] g) (vault.run calls g)) vault.kind v) ∧
      (∀ call, vault.HandsOver (vault.run calls g) v call) ∧
      ∀ before between mode after, calls = before ++ between ++ .save mode :: after →
        ((Run.answered (save vault.node mode (vault.run (before ++ between) g).graph)).1 =
            .ok .stored ∨
          (Run.answered (save vault.node mode (vault.run (before ++ between) g).graph)).1 =
            .ok .released) →
        ∀ h m, vault.Fresh (vault.run calls g).graph h m →
          Recovers h m (vault.tail (vault.run before g) (vault.run calls g)) vault.kind v := by
  have start : vault.Kept g j.config.layout (Frame.join frames) v₀ (vault.run [] g) [] v₀ := by
    refine ⟨rfl, ⟨frames, ⟨j, queue, live, rfl, data⟩, ?_⟩, held, .none v₀⟩
    rw [Frame.join_nil, List.append_nil]
    rfl
  -- The outcomes of any part of the run are among those of the whole.
  have part {first rest : List (VaultCall κ)} (split : calls = first ++ rest) :
      ∀ outcome ∈ (vault.run first g).outcomes, outcome.isCommitted = true := by
    intro outcome mem
    obtain ⟨more, grown⟩ := outcomes_run vault rest (vault.run first g)
    apply recorded
    rw [split, run_append, grown]
    exact List.mem_append_left _ mem
  obtain ⟨fs, v, kept, -⟩ := kept_run on short restores calls start recorded
  rw [List.nil_append, ← run_append, List.nil_append] at kept
  refine ⟨v, kept.held, ?_, kept_handsOver on kept, ?_⟩
  · intro h m takes
    rw [start.tail kept]
    exact recovers_of_takes takes kept.leads
  · intro before between mode after split done h m fresh
    have split' : calls = before ++ (between ++ .save mode :: after) := by
      rw [split, List.append_assoc]
    obtain ⟨early, u, kept₁, -⟩ := kept_run on short restores before start (part split')
    rw [← run_append, List.nil_append, List.nil_append] at kept₁
    obtain ⟨more, u', kept₂, -⟩ := kept_run on short restores between kept₁ (by
      rw [← run_append]
      exact part split)
    rw [← run_append] at kept₂
    subst split
    obtain ⟨rest, v', kept₃, safe⟩ := safe_since_save on short restores kept₂ done recorded
    -- Both ways lead to what the node holds now.
    have same : v' = v := by
      have now := kept₃.held
      rw [kept.held] at now
      cases now
      rfl
    subst same
    rw [List.append_assoc early more rest] at kept₃ safe
    rw [kept₁.tail kept₃]
    exact fresh.recovers safe (by simp) kept₃.leads

end Recovery

/-- A byte of its own, with a journal and a store. -/
def strongroom (store : Store) : Graph ValueType where
  nodes := #[some {
    content := .persistent .u8 { id := ⟨7⟩, state := .resident (1 : UInt8) } ⟨0⟩
    links := { root := some ⟨0⟩ } }]
  roots := #[some (.journal { config := .forTesting } {})]
  stores := #[store]

/-- A node for the same byte, as if the program had been started again. -/
def reopened (g : Graph ValueType) : Graph ValueType where
  nodes := #[some { content := .persistent .u8 { id := ⟨7⟩, state := .released } ⟨0⟩ }]
  stores := g.stores

def strongbox : Vault ValueType where
  node := ⟨0⟩
  root := ⟨0⟩
  kind := .u8
  id := ⟨7⟩
  config := {}
  lock := {}
  store := ⟨0⟩

theorem strongbox_on (store : Store) : strongbox.On (strongroom store) :=
  ⟨rfl, rfl, rfl, (by decide : noKey < 0)⟩

/-- Makes it this byte, and leaves anything else alone. -/
def makeByte (next : UInt8) : Change ValueType
  | .u8, _ => next
  | _, old => old

def byte? (g : Graph ValueType) : Option UInt8 :=
  match g.held? ⟨0⟩ with
  | some (.single .u8 value) => some value
  | _ => none

theorem held?_of_byte? {g : Graph ValueType} {value : UInt8} (byte : byte? g = some value) :
    g.held? ⟨0⟩ = some (.single .u8 value) := by
  unfold byte? at byte
  split at byte
  · next value' held =>
    cases byte
    exact held
  · cases byte

theorem ok_of_toOption {α : Type} {answer : Except Error α} {a : α}
    (known : answer.toOption = some a) : answer = .ok a := by
  cases answer with
  | error e => cases known
  | ok b =>
    cases known
    rfl

/-- Changes before and after a save that releases the value, and a drain. -/
def strongboxCalls : List (VaultCall ValueType) :=
  [.update (makeByte 5), .save .tryRelease, .get, .drain, .update (makeByte 6)]

theorem strongbox_fresh :
    strongbox.Fresh (strongbox.run strongboxCalls (strongroom (.memory {}))).graph
      (reopened (strongbox.run strongboxCalls (strongroom (.memory {}))).graph) ⟨0⟩ := by
  refine ⟨⟨_, _, rfl, rfl, rfl, rfl, rfl⟩, ?_⟩
  intro store found
  have memory : ((strongbox.run strongboxCalls (strongroom (.memory {}))).graph.stores[0]?.map
      fun store => store matches .memory _) = some true := by
    decide +kernel
  have found' : (strongbox.run strongboxCalls (strongroom (.memory {}))).graph.stores[0]? =
      some store := found
  rw [found'] at memory
  cases store with
  | memory s => exact ⟨.memory s, rfl⟩
  | scripted s => cases memory
  | directory s => cases memory

/-- The value of the moment comes back from the older copy and the tail. -/
theorem strongbox_recovers :
    (∀ outcome ∈ (strongbox.run strongboxCalls (strongroom (.memory {}))).outcomes,
        outcome.isCommitted = true) ∧
      strongbox.Fresh (strongbox.run strongboxCalls (strongroom (.memory {}))).graph
        (reopened (strongbox.run strongboxCalls (strongroom (.memory {}))).graph) ⟨0⟩ ∧
      Recovers (reopened (strongbox.run strongboxCalls (strongroom (.memory {}))).graph) ⟨0⟩
        (strongbox.tail (strongbox.run [.update (makeByte 5)] (strongroom (.memory {})))
          (strongbox.run strongboxCalls (strongroom (.memory {}))))
        .u8 (6 : UInt8) := by
  have recorded : ∀ outcome ∈ (strongbox.run strongboxCalls (strongroom (.memory {}))).outcomes,
      outcome.isCommitted = true := by
    decide +kernel
  have byte : byte? (strongbox.run strongboxCalls (strongroom (.memory {}))).graph = some 6 := by
    decide +kernel
  have saved : (Run.answered (save ⟨0⟩ .tryRelease
      (strongbox.run [.update (makeByte 5)] (strongroom (.memory {}))).graph)).1.toOption =
        some .released := by
    decide +kernel
  have restores (layout : Layout) : Codec.uint8.Restores layout :=
    (Codec.lossless_uint8 layout maxDepth).restores
  have start : (strongroom (.memory {})).held? strongbox.node =
      some (.single .u8 (1 : UInt8)) := rfl
  have empty : ({ config := .forTesting } : Journal).data = Frame.join [] := rfl
  obtain ⟨v, held, -, -, since⟩ := checkpoint_recovers (strongbox_on (.memory {})) rfl empty
    (restores _).short (restores _) start strongboxCalls recorded
  have same : v = (6 : UInt8) := by
    have now := held?_of_byte? byte
    rw [show (⟨0⟩ : NodeRef) = strongbox.node from rfl, held] at now
    cases now
    rfl
  rw [same] at since
  refine ⟨recorded, strongbox_fresh, ?_⟩
  exact since [.update (makeByte 5)] [] .tryRelease _ rfl (Or.inr (ok_of_toOption saved)) _ _
    strongbox_fresh

/-- A store that fails the first time it is asked for a value. -/
def failingOnce : Store := .scripted { loads := [.fail] }

def failingCalls : List (VaultCall ValueType) :=
  [.update (makeByte 5), .save .storeOnly, .update (makeByte 6)]

/-- The save has gone well. But the value is asked for in vain, so the record behind it is refused. -/
theorem failing_recovers_not :
    strongbox.On (strongroom failingOnce) ∧
      (strongroom failingOnce).root? ⟨0⟩ = some (.journal { config := .forTesting } {}) ∧
      (∀ layout, Codec.uint8.Restores layout) ∧
      (strongroom failingOnce).held? ⟨0⟩ = some (.single .u8 (1 : UInt8)) ∧
      (∀ outcome ∈ (strongbox.run failingCalls (strongroom failingOnce)).outcomes,
        outcome.isCommitted = true) ∧
      (Run.answered (save ⟨0⟩ .storeOnly
        (strongbox.run [.update (makeByte 5)] (strongroom failingOnce)).graph)).1 = .ok .stored ∧
      (strongbox.run failingCalls (strongroom failingOnce)).graph.held? ⟨0⟩ =
        some (.single .u8 (6 : UInt8)) ∧
      (reopened (strongbox.run failingCalls (strongroom failingOnce)).graph).content? ⟨0⟩ =
        some (.persistent .u8 { id := ⟨7⟩, state := .released } ⟨0⟩) ∧
      (reopened (strongbox.run failingCalls (strongroom failingOnce)).graph).stores =
        (strongbox.run failingCalls (strongroom failingOnce)).graph.stores ∧
      ¬ Recovers (reopened (strongbox.run failingCalls (strongroom failingOnce)).graph) ⟨0⟩
        (strongbox.tail (strongbox.run [.update (makeByte 5)] (strongroom failingOnce))
          (strongbox.run failingCalls (strongroom failingOnce)))
        .u8 (6 : UInt8) := by
  have saved : (Run.answered (save ⟨0⟩ .storeOnly
      (strongbox.run [.update (makeByte 5)] (strongroom failingOnce)).graph)).1.toOption =
        some .stored := by
    decide +kernel
  have byte : byte? (strongbox.run failingCalls (strongroom failingOnce)).graph = some 6 := by
    decide +kernel
  refine ⟨strongbox_on _, rfl, ?_, rfl, by decide +kernel, ok_of_toOption saved,
    held?_of_byte? byte, rfl, rfl, ?_⟩
  · intro layout
    exact (Codec.lossless_uint8 layout maxDepth).restores
  · rintro ⟨clean, -⟩
    have unclean : ((reopened (strongbox.run failingCalls (strongroom failingOnce)).graph).replay ⟨0⟩
        (strongbox.tail (strongbox.run [.update (makeByte 5)] (strongroom failingOnce))
          (strongbox.run failingCalls (strongroom failingOnce)))).1.isClean = false := by
      decide +kernel
    rw [clean] at unclean
    cases unclean

end Vault

end GraphJournal
