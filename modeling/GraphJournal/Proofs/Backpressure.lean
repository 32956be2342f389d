import GraphJournal.Proofs.JournalHistory

/-!
# Draining and trying again

A commit that found no room, and the same commit right after a drain. Nothing ties the capacity of a
journal to the size that it allows an entry, so an entry can be short enough to be admitted and
still longer than the whole journal. Such an entry is told in every state that there is no room; any
other one is appended once the journal is drained.

Entries over the allowed size are NOT treated here: no state of the journal lets them get as far as
the question of room.
-/
namespace GraphJournal

set_option autoImplicit false

namespace Journal

section Commits
variable {d : Draft} {j : Journal} (header : entryHeaderSize ≤ d.framedLength)
include header

/-- What an answer without room says of the entry and of the journal. -/
theorem refused_view {needed remaining : Nat} {j' : Journal}
    (refused : commit d j = .ok (.noRoom needed remaining) j') :
    needed = d.framedLength ∧ remaining = j.remaining ∧ d.framedLength ≤ j.config.maxEntrySize ∧
      j'.ledger = j.ledger := by
  have result := commit_result header j
  rw [refused] at result
  cases result with
  | noRoom size room => exact ⟨rfl, rfl, size, rfl⟩

variable (size : d.framedLength ≤ j.config.maxEntrySize)
  (valid : j.config.maxEntrySize ≤ maxFramedEntry)
include size valid

/-- Once it is admitted, an entry is a question of room only. -/
theorem commit_of_admitted :
    commit d j =
      if d.framedLength ≤ j.remaining then
        .ok (.appended (j.committed + d.framedLength)) (j.adding d)
      else
        .ok (.noRoom d.framedLength j.remaining) { j with refusedNoRoom := j.refusedNoRoom + 1 } := by
  rw [commit_eq header valid, if_neg (Nat.not_lt_of_le size)]

/-- An entry longer than the whole journal finds no room, however much was drained. -/
theorem commit_of_over_capacity (long : j.config.capacity < d.framedLength) :
    commit d j = .ok (.noRoom d.framedLength j.remaining)
      { j with refusedNoRoom := j.refusedNoRoom + 1 } := by
  have full : j.remaining < d.framedLength := Nat.lt_of_le_of_lt (Nat.sub_le _ _) long
  rw [commit_of_admitted header size valid, if_neg (Nat.not_le_of_lt full)]

end Commits

@[simp] theorem remaining_drain (j : Journal) : j.drain.2.remaining = j.config.capacity := rfl

/-- The state that a run leads to has the limits that the journal was made with. -/
theorem config_run {config : JournalConfig} (valid : config.maxEntrySize ≤ maxFramedEntry)
    {calls : List Call} (begun : ∀ d, .commit d ∈ calls → d.Begun) :
    (run calls { config }).2.config = config :=
  (kept_run valid begun (kept_new config)).config_eq

/-- What becomes of an entry of `needed` bytes that found no room in a journal with these limits;
`after` is the journal that has just said so. -/
structure Retry (config : JournalConfig) (d : Draft) (needed : Nat) (after : Journal) : Prop where
  needed_eq : needed = d.framedLength
  /-- Trying again after a drain helps exactly if the entry is no longer than the journal. -/
  appended_iff :
    (∃ sequence j, commit d after.drain.2 = .ok (.appended sequence) j) ↔ needed ≤ config.capacity
  fits : needed ≤ config.capacity →
    commit d after.drain.2 = .ok (.appended (after.committed + needed)) (after.drain.2.adding d)
  /-- Otherwise no run of the journal ever leads to a state that has room. -/
  never : config.capacity < needed →
    ∀ calls : List Call, (∀ d, .commit d ∈ calls → d.Begun) →
      ∃ remaining j, commit d (run calls { config }).2 = .ok (.noRoom needed remaining) j

/-- An entry without room, in any state that a journal can get into: a drain makes room for it if
there is room for it in an empty journal, and only then. -/
theorem retry_of_no_room {config : JournalConfig} {j : Journal}
    (made : Journal.new config = .ok j) (calls : List Call)
    (begun : ∀ d, .commit d ∈ calls → d.Begun) {d : Draft} (draft : d.Begun)
    {needed remaining : Nat} {after : Journal}
    (refused : commit d (run calls j).2 = .ok (.noRoom needed remaining) after) :
    Retry config d needed after := by
  obtain ⟨rfl, valid⟩ := valid_of_new made
  have header := draft.header_le
  have limits := config_run valid begun
  obtain ⟨rfl, _, size, same⟩ := refused_view header refused
  have kept : after.config = config := by
    rw [(fields_of_ledger same).1, limits]
  rw [limits] at size
  -- the drained journal has the same limits, and its whole capacity is free
  have sizeNow : d.framedLength ≤ after.drain.2.config.maxEntrySize := by
    rw [← kept] at size
    exact size
  have validNow : after.drain.2.config.maxEntrySize ≤ maxFramedEntry := by
    rw [← kept] at valid
    exact valid
  have fits (room : d.framedLength ≤ config.capacity) :
      commit d after.drain.2 =
        .ok (.appended (after.committed + d.framedLength)) (after.drain.2.adding d) := by
    rw [← kept] at room
    rw [commit_of_admitted header sizeNow validNow, remaining_drain, if_pos room]
    rfl
  refine ⟨rfl, ⟨?_, fun room => ⟨_, _, fits room⟩⟩, fits, ?_⟩
  · rintro ⟨sequence, j, appended⟩
    refine Nat.le_of_not_lt fun long => ?_
    rw [← kept] at long
    rw [commit_of_over_capacity header sizeNow validNow long] at appended
    cases appended
  · intro long others othersBegun
    have limitsThere := config_run valid othersBegun
    refine ⟨_, _, commit_of_over_capacity header ?_ ?_ ?_⟩
    · rw [limitsThere]
      exact size
    · rw [limitsThere]
      exact valid
    · rw [limitsThere]
      exact long

/-- A journal shorter than the entries that it admits. -/
def cramped : JournalConfig := { capacity := 8, maxEntrySize := 4096 }

/-- Seven bytes into a journal of eight that holds six, and then into the drained one. -/
theorem cramped_retry :
    Journal.new cramped = .ok { config := cramped } ∧ (Draft.record [1, 2, 3]).Begun ∧
      commit (.record [1, 2, 3]) (run [.commit (.record [7, 8])] { config := cramped }).2 =
        .ok (.noRoom 7 2) ⟨cramped, [0, 0, 3, 2, 7, 8], 6, 1, 1, 0⟩ ∧
      Retry cramped (.record [1, 2, 3]) 7 ⟨cramped, [0, 0, 3, 2, 7, 8], 6, 1, 1, 0⟩ := by
  have drafts : ∀ d, .commit d ∈ [Call.commit (.record [7, 8])] → d.Begun := by
    intro d hd
    cases List.mem_singleton.mp hd
    exact Draft.begun_record _
  have refused : commit (.record [1, 2, 3]) (run [.commit (.record [7, 8])] { config := cramped }).2 =
      .ok (.noRoom 7 2) ⟨cramped, [0, 0, 3, 2, 7, 8], 6, 1, 1, 0⟩ := rfl
  exact ⟨rfl, Draft.begun_record _, refused,
    @retry_of_no_room cramped _ rfl _ drafts _ (Draft.begun_record _) _ _ _ refused⟩

/-- Nine bytes find no room in the empty journal of eight, nor after a drain. -/
theorem cramped_never_has_room :
    Journal.new cramped = .ok { config := cramped } ∧
      commit (.record [1, 2, 3, 4, 5]) { config := cramped } =
        .ok (.noRoom 9 8) { config := cramped, refusedNoRoom := 1 } ∧
      commit (.record [1, 2, 3, 4, 5])
          (Journal.drain { config := cramped, refusedNoRoom := 1 }).2 =
        .ok (.noRoom 9 8) { config := cramped, refusedNoRoom := 2 } := by
  exact ⟨rfl, rfl, rfl⟩

end Journal

end GraphJournal
