import GraphJournal.Proofs.Applying
import GraphJournal.Proofs.Visits

/-!
# Records of whole values

Records that tell a node its new value. Of several such records the last one counts, so it does not
matter what the node held before, as long as it can be told anything: its value has to be in memory,
or its store has to bring it back.
-/
namespace GraphJournal

set_option autoImplicit false

open MessagePack

variable {κ : Type} [Values κ]

/-- A record of a new value for a node without a path. -/
structure Tells (kind : κ) (f : Frame) (v : Values.Carrier kind) : Prop where
  record : f.kindByte = EntryKind.record.byte
  payload : ∃ bytes, f.payload = Marker.value.byte :: bytes ∧
    (Values.codec kind).decodeAll bytes = .ok v

/-- Records of new values, of which the last one, if any, takes whoever holds `v` to `w`. -/
inductive Leads (kind : κ) : Values.Carrier kind → List Frame → Values.Carrier kind → Prop
  | none (v : Values.Carrier kind) : Leads kind v [] v
  | more {v w u : Values.Carrier kind} {f : Frame} {fs : List Frame} (tells : Tells kind f w)
      (rest : Leads kind w fs u) : Leads kind v (f :: fs) u

section Leading
variable {kind : κ} {v w u : Values.Carrier kind} {f : Frame} {fs gs : List Frame}

theorem Leads.append (first : Leads kind v fs w) (second : Leads kind w gs u) :
    Leads kind v (fs ++ gs) u := by
  induction first with
  | none v => exact second
  | more tells rest ih => exact .more tells (ih second)

theorem Leads.snoc (before : Leads kind v fs w) (tells : Tells kind f u) :
    Leads kind v (fs ++ [f]) u := before.append (.more tells (.none u))

theorem Leads.split (whole : Leads kind v (fs ++ gs) u) :
    ∃ w, Leads kind v fs w ∧ Leads kind w gs u := by
  induction fs generalizing v with
  | nil => exact ⟨v, .none v, whole⟩
  | cons f fs ih =>
    cases whole with
    | more tells rest =>
      obtain ⟨w, front, back⟩ := ih rest
      exact ⟨w, .more tells front, back⟩

/-- What was held before does not matter once there is a record. -/
theorem Leads.of_ne_nil (leads : Leads kind v fs u) (nonempty : fs ≠ []) (other : Values.Carrier kind) :
    Leads kind other fs u := by
  cases leads with
  | none v => exact absurd rfl nonempty
  | more tells rest => exact .more tells rest

end Leading

namespace Graph

/-- A node that holds this value and can be told another one. -/
inductive Takes (h : Graph κ) (m : NodeRef) (kind : κ) (v : Values.Carrier kind) : Prop
  | value (content : h.content? m = some (.value kind v))
  | resident {cell : Cell (Values.Carrier kind)} {s : StoreRef} {store : Store}
      (content : h.content? m = some (.persistent kind cell s))
      (found : h.stores[s.index]? = some store) (free : cell.lock.admitsWriter = true)
      (state : cell.state = .resident v)
  | released {cell : Cell (Values.Carrier kind)} {s : StoreRef} {store store' : Store}
      {bytes : Bytes} (content : h.content? m = some (.persistent kind cell s))
      (found : h.stores[s.index]? = some store) (free : cell.lock.admitsWriter = true)
      (state : cell.state = .released)
      (loads : ByteStore.load cell.id store = .ok (some bytes) store')
      (decoded : (Values.codec kind).decodeAll bytes = .ok v)

section Taking
variable {h : Graph κ} {m : NodeRef} {kind : κ} {v : Values.Carrier kind}

theorem reload_released {α σ : Type} [ByteStore σ] {codec : Codec α} {c : Cell α} {s s' : σ}
    {bytes : Bytes} {v : α} (state : c.state = .released)
    (loads : ByteStore.load c.id s = .ok (some bytes) s') (decoded : codec.decodeAll bytes = .ok v) :
    Cell.reload codec (c, s) = .ok v ({ c with state := .resident v }, s') := by
  simp only [Cell.reload, Cell.onStore, Cell.setState, Run.bind_apply, Run.get_apply, state, loads,
    decoded, Run.modify_apply, Run.pure_apply]

/-- A node that can be told a value can be asked for the one that it holds. -/
theorem Takes.readValue (takes : Takes h m kind v) :
    ∃ h', readValue m h = .ok (some ⟨kind, v⟩) h' := by
  cases takes with
  | value content =>
    refine ⟨h, ?_⟩
    simp only [Graph.readValue, Run.bind_apply, Run.get_apply, content, Run.pure_apply]
  | @resident cell s store content found free state =>
    refine ⟨h.putCell m kind s (cell, store), ?_⟩
    have read : Cell.read (Values.codec kind) (cell, store) = .ok v (cell, store) := by
      simp only [Cell.read, Cell.awaitReader, Run.bind_apply, Run.get_apply,
        LockState.admitsReader_of_writer free, if_true, Run.pure_apply, state]
    simp only [Graph.readValue, Run.bind_apply, Run.get_apply, content, withCell_eq h found, read,
      Run.pure_apply]
  | @released cell s store store' bytes content found free state loads decoded =>
    refine ⟨h.putCell m kind s ({ cell with state := .resident v }, store'), ?_⟩
    have read : Cell.read (Values.codec kind) (cell, store) =
        .ok v ({ cell with state := .resident v }, store') := by
      simp only [Cell.read, Cell.awaitReader, Cell.awaitWriter, Run.bind_apply, Run.get_apply,
        LockState.admitsReader_of_writer free, free, if_true, Run.pure_apply, state,
        reload_released state loads decoded]
    simp only [Graph.readValue, Run.bind_apply, Run.get_apply, content, withCell_eq h found, read,
      Run.pure_apply]

theorem takes_putCell {cell : Cell (Values.Carrier kind)} {s : StoreRef} {store : Store}
    (content : h.content? m = some (.persistent kind cell s))
    (found : h.stores[s.index]? = some store) (free : cell.lock.admitsWriter = true)
    (store' : Store) :
    Takes (h.putCell m kind s ({ cell with state := .resident v }, store')) m kind v := by
  exact .resident (content?_putCell_self h content _) (store_putCell_self h found _) free rfl

/-- It takes the value that a record tells it, and can be told another one then. -/
theorem Takes.apply (takes : Takes h m kind v) {r : Reader} {bytes : Bytes}
    {w : Values.Carrier kind} (unread : r.unread = Marker.value.byte :: bytes)
    (decoded : (Values.codec kind).decodeAll bytes = .ok w) :
    ∃ h', applyRecord m r h = (.applied, h') ∧ Takes h' m kind w := by
  cases takes with
  | value content =>
    exact ⟨_, applyRecord_value content unread decoded,
      .value (content?_setContent_self h m content _)⟩
  | @resident cell s store content found free state =>
    exact ⟨_, applyRecord_resident content found state free unread decoded,
      takes_putCell content found free store⟩
  | @released cell s store store' kept content found free state loads decoded' =>
    obtain ⟨r', read⟩ := Read.replacement_of_decodeAll unread decoded
    have written : Cell.write (Values.codec kind) w (cell, store) =
        .ok v ({ cell with state := .resident w }, store') := by
      simp only [Cell.write, Cell.alter, Cell.beginWrite, Cell.awaitWriter, Cell.setState,
        Run.bind_apply, Run.get_apply, free, if_true, Run.pure_apply,
        reload_released state loads decoded', Run.modify_apply]
    refine ⟨h.putCell m kind s ({ cell with state := .resident w }, store'), ?_,
      takes_putCell content found free store'⟩
    rw [applyRecord, content]
    simp only [applyPersistent, reading, read]
    rw [withCell_eq h found, written]

theorem replayFrames_leads {fs : List Frame} {w : Values.Carrier kind} (takes : Takes h m kind v)
    (leads : Leads kind v fs w) (offset : Nat) (stats : ReplayStats) :
    (Frame.replayFrames (applyRecord m) offset fs (stats, h)).1.isClean = stats.isClean ∧
      Takes (Frame.replayFrames (applyRecord m) offset fs (stats, h)).2 m kind w := by
  -- Each record leaves a node that takes the next one, whether it was released before or not.
  induction leads generalizing h offset stats with
  | none v => exact ⟨rfl, takes⟩
  | @more v w u f fs tells rest ih =>
    obtain ⟨bytes, payload, decoded⟩ := tells.payload
    obtain ⟨h', applied, takes'⟩ :=
      takes.apply (r := .ofBytes f.payload (offset + entryHeaderSize)) payload decoded
    rw [Frame.replayFrames, Frame.replayEntry_record tells.record, applied]
    exact ih takes' _ _

/-- After a replay of such records, the node holds what they lead to. -/
theorem Takes.replay {fs : List Frame} {w : Values.Carrier kind} (takes : Takes h m kind v)
    (leads : Leads kind v fs w) :
    (h.replay m (Frame.join fs)).1.isClean = true ∧
      Takes (h.replay m (Frame.join fs)).2 m kind w := by
  rw [Graph.replay, Frame.replayWith_join]
  exact replayFrames_leads takes leads 0 {}

end Taking

end Graph

end GraphJournal
