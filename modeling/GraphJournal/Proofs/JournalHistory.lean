import GraphJournal.Proofs.Commit

/-!
# What a journal has been through

Runs of a journal: commits of drafts, markers, snapshots and drains in any order. What was drained
and what is still there make up, in the order of their commits, the entries that were appended and
nothing else, and all counters agree with what was answered. Records are entries like others here; how a node
comes to write one is no matter of this module.
-/
namespace GraphJournal

set_option autoImplicit false

namespace Draft

/-- The bytes of the framed draft, if it can be framed. -/
def framed (d : Draft) : Bytes :=
  match d.frame with
  | .ok (bytes, _) => bytes
  | .error _ => []

/-- The entry that a scan should find where the framed draft stands. -/
def entryAt (d : Draft) (offset : Nat) : Entry :=
  { offset
    header := { length := d.framedLength - lengthFieldSize, kindByte := d.kindByte }
    payload := d.payload }

def entriesFrom : Nat → List Draft → List Entry
  | _, [] => []
  | offset, d :: ds => d.entryAt offset :: entriesFrom (offset + d.framedLength) ds

/-- A draft that has its header and is not too long for the length field. -/
def Framable (d : Draft) : Prop := entryHeaderSize ≤ d.framedLength ∧ d.framedLength ≤ maxFramedEntry

theorem exists_frame {d : Draft} (h : d.Framable) :
    ∃ f : Frame, d.framed = f.bytes ∧ d.framedLength = f.size ∧
      ∀ offset, d.entryAt offset = f.entryAt offset := by
  rcases frame_cases h.1 with ⟨f, kind, payload, _, frame⟩ | ⟨long, _⟩
  · have size := Journal.size_of_payload h.1 payload
    refine ⟨f, by rw [framed, frame], size.symm, ?_⟩
    intro offset
    have length : d.framedLength - lengthFieldSize = f.payload.length + 1 := by
      rw [← size]
      simp only [Frame.size, entryHeaderSize, lengthFieldSize]
      omega
    rw [entryAt, length, ← kind, ← payload]
    rfl
  · exact absurd h.2 (Nat.not_le_of_lt long)

theorem length_framed {d : Draft} (h : d.Framable) : d.framed.length = d.framedLength := by
  obtain ⟨f, bytes, size, _⟩ := exists_frame h
  rw [bytes, size, Frame.length_bytes]

theorem exists_frames {ds : List Draft} (h : ∀ d ∈ ds, d.Framable) :
    ∃ fs : List Frame, ds.flatMap framed = Frame.join fs ∧
      ∀ offset, entriesFrom offset ds = Frame.entriesFrom offset fs := by
  induction ds with
  | nil => exact ⟨[], rfl, fun _ => rfl⟩
  | cons d ds ih =>
    obtain ⟨f, bytes, size, entry⟩ := exists_frame (h d List.mem_cons_self)
    obtain ⟨fs, join, entries⟩ := ih fun d hd => h d (List.mem_cons_of_mem _ hd)
    refine ⟨f :: fs, ?_, ?_⟩
    · rw [List.flatMap_cons, bytes, join, Frame.join_cons]
    · intro offset
      rw [entriesFrom, Frame.entriesFrom, entry, size, entries]

end Draft

namespace Journal

inductive Call
  | commit (draft : Draft)
  | marker (kind : EntryKind)
  | snapshot
  | drain

/-- What a call answers: what became of an entry, or bytes. -/
inductive Answer
  | entry (result : Except Error Commit)
  | bytes (bytes : Bytes)

/-- It was said that there is no room. -/
def Answer.isNoRoom : Answer → Bool
  | entry (.ok (.noRoom _ _)) => true
  | _ => false

/-- It was said that the entry is too large. -/
def Answer.isOversized : Answer → Bool
  | entry (.error (.entryTooLarge _ _)) => true
  | _ => false

abbrev Trace := List (Call × Answer)

def call : Call → Journal → Answer × Journal
  | .commit draft, j => ((Run.answered (commit draft j)).map .entry id)
  | .marker kind, j => ((Run.answered (writeMarker kind j)).map .entry id)
  | .snapshot, j => (.bytes j.data, j)
  | .drain, j => (.bytes j.drain.1, j.drain.2)

def step (s : Trace × Journal) (c : Call) : Trace × Journal :=
  (s.1 ++ [(c, (call c s.2).1)], (call c s.2).2)

def run (calls : List Call) (j : Journal) : Trace × Journal := calls.foldl step ([], j)

def Call.draft? : Call → Option Draft
  | .commit draft => some draft
  | .marker kind => some (.begin kind)
  | .snapshot | .drain => none

/-- The drafts that were appended, each with the number that it got. -/
def appendedIn (trace : Trace) : List (Draft × Nat) :=
  trace.filterMap fun
    | (c, .entry (.ok (.appended sequence))) => c.draft?.map (·, sequence)
    | _ => none

def drainedIn (trace : Trace) : List Bytes :=
  trace.filterMap fun
    | (.drain, .bytes bytes) => some bytes
    | _ => none

/-- The journal with the framed draft appended. -/
def adding (j : Journal) (d : Draft) : Journal :=
  { j with
    data := j.data ++ d.framed
    committed := j.committed + d.framedLength
    appended := j.appended + 1 }

/-- How a journal answers a draft, and what it has become then. -/
structure Answers (j : Journal) (d : Draft) : Prop where
  oversized : (∃ j', commit d j = .error (.entryTooLarge d.framedLength j.config.maxEntrySize) j') ↔
    j.config.maxEntrySize < d.framedLength
  noRoom : (∃ j', commit d j = .ok (.noRoom d.framedLength (j.config.capacity - j.position)) j') ↔
    d.framedLength ≤ j.config.maxEntrySize ∧ j.config.capacity - j.position < d.framedLength
  appended : (∃ j', commit d j = .ok (.appended (j.committed + d.framedLength)) j') ↔
    d.framedLength ≤ j.config.maxEntrySize ∧ d.framedLength ≤ j.config.capacity - j.position
  failure : ∀ e j', commit d j = .error e j' →
    e = .entryTooLarge d.framedLength j.config.maxEntrySize ∧
      j' = { j with refusedOversized := j.refusedOversized + 1 }
  refusal : ∀ needed remaining j', commit d j = .ok (.noRoom needed remaining) j' →
    needed = d.framedLength ∧ remaining = j.config.capacity - j.position ∧
      j' = { j with refusedNoRoom := j.refusedNoRoom + 1 }
  growth : ∀ sequence j', commit d j = .ok (.appended sequence) j' →
    sequence = j.committed + d.framedLength ∧ j' = j.adding d

/-- What every step of a run preserves: the drafts appended so far fall into those that were drained
and those that are still there. -/
structure Kept (config : JournalConfig) (trace : Trace) (j : Journal) : Prop where
  config_eq : j.config = config
  fits : j.data.length ≤ config.capacity
  framable : ∀ a ∈ appendedIn trace, a.1.Framable
  split : ∃ past now, (appendedIn trace).map (·.1) = past ++ now ∧
    (drainedIn trace).flatten = past.flatMap Draft.framed ∧ j.data = now.flatMap Draft.framed
  committed : j.committed = ((appendedIn trace).flatMap (·.1.framed)).length
  appended : j.appended = (appendedIn trace).length
  noRoom : j.refusedNoRoom = trace.countP (·.2.isNoRoom)
  oversized : j.refusedOversized = trace.countP (·.2.isOversized)
  sequence : ∀ i d n, (appendedIn trace)[i]? = some (d, n) →
    n = (((appendedIn trace).take (i + 1)).flatMap (·.1.framed)).length
  increasing : ((appendedIn trace).map (·.2)).Pairwise (· < ·)
  blocks : ∀ c bytes, (c, .bytes bytes) ∈ trace → ∃ before block after,
    (appendedIn trace).map (·.1) = before ++ block ++ after ∧ bytes = block.flatMap Draft.framed

theorem appendedIn_append (xs ys : Trace) :
    appendedIn (xs ++ ys) = appendedIn xs ++ appendedIn ys := List.filterMap_append

theorem drainedIn_append (xs ys : Trace) :
    drainedIn (xs ++ ys) = drainedIn xs ++ drainedIn ys := List.filterMap_append

theorem flatMap_map_fst (xs : List (Draft × Nat)) :
    xs.flatMap (·.1.framed) = (xs.map (·.1)).flatMap Draft.framed := by
  rw [List.flatMap_map]

section Steps
variable {config : JournalConfig} {trace : Trace} {j : Journal}

theorem kept_new (config : JournalConfig) : Kept config [] { config } := by
  refine ⟨rfl, Nat.zero_le _, ?_, ⟨[], [], rfl, rfl, rfl⟩, rfl, rfl, rfl, rfl, ?_, .nil,
    ?_⟩
  · intro a ha
    cases ha
  · intro i d n h
    cases h
  · intro c bytes h
    cases h

/-- A step that appends and drains nothing; a snapshot shows what is there. -/
theorem Kept.quiet (h : Kept config trace j) {x : Call × Answer} {j' : Journal}
    (same : j'.ledger = j.ledger) (appends : appendedIn [x] = []) (drains : drainedIn [x] = [])
    (noRoom : j'.refusedNoRoom = j.refusedNoRoom + [x].countP (·.2.isNoRoom))
    (oversized : j'.refusedOversized = j.refusedOversized + [x].countP (·.2.isOversized))
    (shown : ∀ bytes, x.2 = .bytes bytes → bytes = j.data) : Kept config (trace ++ [x]) j' := by
  obtain ⟨sameConfig, sameData, sameCommitted, sameAppended⟩ := fields_of_ledger same
  have sameEntries : appendedIn (trace ++ [x]) = appendedIn trace := by
    rw [appendedIn_append, appends, List.append_nil]
  have sameDrained : drainedIn (trace ++ [x]) = drainedIn trace := by
    rw [drainedIn_append, drains, List.append_nil]
  refine ⟨by rw [sameConfig, h.config_eq], by rw [sameData]; exact h.fits,
    ?_, ?_, ?_, ?_, ?_, ?_, ?_, ?_, ?_⟩
  · rw [sameEntries]
    exact h.framable
  · rw [sameEntries, sameDrained, sameData]
    exact h.split
  · rw [sameEntries, sameCommitted]
    exact h.committed
  · rw [sameEntries, sameAppended]
    exact h.appended
  · rw [List.countP_append, noRoom, h.noRoom]
  · rw [List.countP_append, oversized, h.oversized]
  · rw [sameEntries]
    exact h.sequence
  · rw [sameEntries]
    exact h.increasing
  · rw [sameEntries]
    intro c bytes mem
    rcases List.mem_append.mp mem with old | new
    · exact h.blocks c bytes old
    · obtain ⟨past, now, entries, _, there⟩ := h.split
      have here : bytes = j.data := shown bytes (by rw [← List.mem_singleton.mp new])
      exact ⟨past, now, [], by rw [List.append_nil, entries], by rw [here, there]⟩

theorem Kept.drain (h : Kept config trace j) :
    Kept config (trace ++ [(.drain, .bytes j.data)]) j.drain.2 := by
  obtain ⟨past, now, entries, drained, there⟩ := h.split
  have sameEntries : appendedIn (trace ++ [(.drain, .bytes j.data)]) = appendedIn trace := by
    rw [appendedIn_append]
    exact List.append_nil _
  refine ⟨h.config_eq, Nat.zero_le _, ?_, ?_, ?_, ?_, ?_, ?_, ?_, ?_, ?_⟩
  · rw [sameEntries]
    exact h.framable
  · refine ⟨past ++ now, [], by rw [sameEntries, entries, List.append_nil], ?_, rfl⟩
    rw [drainedIn_append, List.flatten_append, drained, List.flatMap_append, ← there]
    exact congrArg _ (List.append_nil _)
  · rw [sameEntries]
    exact h.committed
  · rw [sameEntries]
    exact h.appended
  · rw [List.countP_append, ← h.noRoom]
    rfl
  · rw [List.countP_append, ← h.oversized]
    rfl
  · rw [sameEntries]
    exact h.sequence
  · rw [sameEntries]
    exact h.increasing
  · rw [sameEntries]
    intro c bytes mem
    rcases List.mem_append.mp mem with old | new
    · exact h.blocks c bytes old
    · cases List.mem_singleton.mp new
      exact ⟨past, now, [], by rw [List.append_nil, entries], there⟩

/-- No number that was given exceeds the count of committed bytes. -/
theorem Kept.number_le (h : Kept config trace j) : ∀ a ∈ appendedIn trace, a.2 ≤ j.committed := by
  intro a ha
  obtain ⟨i, at_⟩ := List.mem_iff_getElem?.mp ha
  have whole := congrArg List.length
    (congrArg (List.flatMap (·.1.framed)) (List.take_append_drop (i + 1) (appendedIn trace)))
  rw [List.flatMap_append, List.length_append] at whole
  rw [h.sequence i a.1 a.2 at_, h.committed]
  omega

theorem Kept.framable_drafts (h : Kept config trace j) :
    ∀ d ∈ (appendedIn trace).map (·.1), d.Framable := by
  intro d mem
  obtain ⟨a, there, rfl⟩ := List.mem_map.mp mem
  exact h.framable a there

theorem Kept.whole_stream (h : Kept config trace j) :
    (drainedIn trace).flatten ++ j.data = (appendedIn trace).flatMap (·.1.framed) := by
  obtain ⟨past, now, entries, drained, there⟩ := h.split
  rw [flatMap_map_fst, entries, List.flatMap_append, drained, there]

/-- Numbers that count all bytes so far go on doing so with one more entry. -/
theorem sequence_snoc {entries : List (Draft × Nat)} {d : Draft} {m : Nat}
    (old : ∀ i d n, entries[i]? = some (d, n) →
      n = ((entries.take (i + 1)).flatMap (·.1.framed)).length)
    (total : ((entries ++ [(d, m)]).flatMap (·.1.framed)).length = m) :
    ∀ i d' n, (entries ++ [(d, m)])[i]? = some (d', n) →
      n = (((entries ++ [(d, m)]).take (i + 1)).flatMap (·.1.framed)).length := by
  intro i d' n at_
  rw [List.getElem?_append] at at_
  split at at_
  · rename_i before
    rw [List.take_append_of_le_length before]
    exact old i d' n at_
  · rename_i new
    have last : i = entries.length := by
      have bound := (List.getElem?_eq_some_iff.mp at_).1
      simp only [List.length_cons, List.length_nil] at bound
      omega
    subst last
    rw [Nat.sub_self, List.getElem?_cons_zero] at at_
    cases at_
    rw [List.take_of_length_le (by simp), total]

theorem Kept.increasing_snoc (h : Kept config trace j) (d : Draft) {m : Nat}
    (more : j.committed < m) : ((appendedIn trace ++ [(d, m)]).map (·.2)).Pairwise (· < ·) := by
  rw [List.map_append, List.pairwise_append]
  refine ⟨h.increasing, List.pairwise_singleton _ _, ?_⟩
  intro k hk n hn
  obtain ⟨a, ha, rfl⟩ := List.mem_map.mp hk
  have below := h.number_le a ha
  rw [List.mem_singleton.mp hn]
  dsimp only
  omega

theorem Kept.grow (h : Kept config trace j) {c : Call} {d : Draft} {f : Frame}
    (draft : c.draft? = some d) (framable : d.Framable) (bytes : d.framed = f.bytes)
    (room : d.framedLength ≤ j.remaining) :
    Kept config (trace ++ [(c, .entry (.ok (.appended (j.committed + f.size))))]) (j.grow f) := by
  have newEntry : appendedIn [(c, .entry (.ok (.appended (j.committed + f.size))))] =
      [(d, j.committed + f.size)] := by
    simp [appendedIn, draft]
  have newDrained : drainedIn [(c, .entry (.ok (.appended (j.committed + f.size))))] = [] := by
    cases c <;> rfl
  have entries : appendedIn (trace ++ [(c, .entry (.ok (.appended (j.committed + f.size))))]) =
      appendedIn trace ++ [(d, j.committed + f.size)] := by
    rw [appendedIn_append, newEntry]
  have size : f.size = d.framed.length := by rw [bytes, Frame.length_bytes]
  have total : ((appendedIn trace ++ [(d, j.committed + f.size)]).flatMap (·.1.framed)).length =
      j.committed + f.size := by
    simp only [List.flatMap_append, List.flatMap_cons, List.flatMap_nil, List.append_nil,
      List.length_append, h.committed, size]
  refine ⟨h.config_eq, ?_, ?_, ?_, ?_, ?_, ?_, ?_, ?_, ?_, ?_⟩
  · have fits := h.fits
    rw [← Draft.length_framed framable, ← size, remaining, position, h.config_eq] at room
    simp only [Journal.grow, List.length_append, Frame.length_bytes]
    omega
  · rw [entries]
    intro a ha
    rcases List.mem_append.mp ha with old | new
    · exact h.framable a old
    · rw [List.mem_singleton.mp new]
      exact framable
  · obtain ⟨past, now, split, drained, there⟩ := h.split
    refine ⟨past, now ++ [d], ?_, ?_, ?_⟩
    · rw [entries, List.map_append, split, List.append_assoc]
      rfl
    · rw [drainedIn_append, newDrained, List.append_nil, drained]
    · simp only [Journal.grow, there, List.flatMap_append, List.flatMap_cons, List.flatMap_nil,
        List.append_nil, bytes]
  · rw [entries]
    exact total.symm
  · rw [entries, List.length_append, ← h.appended]
    rfl
  · rw [List.countP_append, ← h.noRoom]
    rfl
  · rw [List.countP_append, ← h.oversized]
    rfl
  · rw [entries]
    exact sequence_snoc h.sequence total
  · rw [entries]
    apply h.increasing_snoc
    simp only [Frame.size, entryHeaderSize]
    omega
  · rw [entries]
    intro c' bytes' mem
    rcases List.mem_append.mp mem with old | new
    · obtain ⟨before, block, after, split, same⟩ := h.blocks c' bytes' old
      refine ⟨before, block, after ++ [d], ?_, same⟩
      rw [List.map_append, split, List.append_assoc]
      rfl
    · cases List.mem_singleton.mp new

/-- A draft that is handed over is appended as a whole, or the journal keeps what it has. -/
theorem Kept.commit (h : Kept config trace j) (valid : config.maxEntrySize ≤ maxFramedEntry)
    {c : Call} {d : Draft} (draft : c.draft? = some d) (header : entryHeaderSize ≤ d.framedLength) :
    Kept config (trace ++ [(c, .entry (Run.answered (Journal.commit d j)).1)])
      (Run.answered (Journal.commit d j)).2 := by
  have refused (e : Except Error Commit) (sameDrained : drainedIn [(c, .entry e)] = [])
      (none : appendedIn [(c, .entry e)] = []) (j' : Journal) (same : j'.ledger = j.ledger)
      (noRoom : j'.refusedNoRoom = j.refusedNoRoom + [(c, Answer.entry e)].countP (·.2.isNoRoom))
      (oversized : j'.refusedOversized =
        j.refusedOversized + [(c, Answer.entry e)].countP (·.2.isOversized)) :
      Kept config (trace ++ [(c, .entry e)]) j' := by
    refine h.quiet same none sameDrained noRoom oversized ?_
    intro bytes shown
    cases shown
  rw [← h.config_eq] at valid
  have result := commit_result header j
  cases run : Journal.commit d j with
  | ok answer j' =>
    rw [run] at result
    cases result with
    | noRoom size room => exact refused _ (by cases c <;> rfl) (by cases c <;> rfl) _ rfl rfl rfl
    | appended f size room kind payload frame =>
      exact h.grow draft ⟨header, Nat.le_trans size valid⟩ (by rw [Draft.framed, frame]) room
  | error e j' =>
    rw [run] at result
    cases result with
    | oversized size => exact refused _ (by cases c <;> rfl) (by cases c <;> rfl) _ rfl rfl rfl
    | unframed size long => exact absurd (Nat.le_trans size valid) (Nat.not_le_of_lt long)

theorem Kept.step (h : Kept config trace j) (valid : config.maxEntrySize ≤ maxFramedEntry)
    (c : Call) (begun : ∀ d, c = .commit d → d.Begun) :
    Kept config (Journal.step (trace, j) c).1 (Journal.step (trace, j) c).2 := by
  cases c with
  | commit d => exact h.commit valid rfl (begun d rfl).header_le
  | marker kind =>
    cases dispatched : kind.isDispatched with
    | true =>
      simp only [Journal.step, call, writeMarker_dispatched dispatched]
      refine h.quiet rfl rfl rfl rfl rfl ?_
      intro bytes shown
      cases shown
    | false =>
      simp only [Journal.step, call, writeMarker_eq_commit dispatched]
      exact h.commit valid rfl (Draft.Begun.begin kind).header_le
  | snapshot =>
    refine h.quiet rfl rfl rfl rfl rfl ?_
    intro bytes shown
    cases shown
    rfl
  | drain => exact h.drain

end Steps

theorem kept_run {config : JournalConfig} (valid : config.maxEntrySize ≤ maxFramedEntry)
    {calls : List Call} (begun : ∀ d, .commit d ∈ calls → d.Begun) {trace : Trace} {j : Journal}
    (h : Kept config trace j) :
    Kept config (calls.foldl step (trace, j)).1 (calls.foldl step (trace, j)).2 := by
  induction calls generalizing trace j with
  | nil => exact h
  | cons c calls ih =>
    have next := h.step valid c fun d hd => begun d (hd ▸ List.mem_cons_self)
    exact ih (fun d hd => begun d (List.mem_cons_of_mem _ hd)) next

section Answers
variable {d : Draft} {j : Journal} (header : entryHeaderSize ≤ d.framedLength)
  (valid : j.config.maxEntrySize ≤ maxFramedEntry)
include header valid

theorem commit_eq :
    commit d j =
      if j.config.maxEntrySize < d.framedLength then
        .error (.entryTooLarge d.framedLength j.config.maxEntrySize)
          { j with refusedOversized := j.refusedOversized + 1 }
      else if d.framedLength ≤ j.remaining then
        .ok (.appended (j.committed + d.framedLength)) (j.adding d)
      else
        .ok (.noRoom d.framedLength j.remaining)
          { j with refusedNoRoom := j.refusedNoRoom + 1 } := by
  have result := commit_result header j
  cases run : commit d j with
  | error e after =>
    rw [run] at result
    cases result with
    | oversized long => rw [if_pos long]
    | unframed size long => exact absurd (Nat.le_trans size valid) (Nat.not_le_of_lt long)
  | ok answer after =>
    rw [run] at result
    cases result with
    | noRoom size full => rw [if_neg (Nat.not_lt_of_le size), if_neg (Nat.not_le_of_lt full)]
    | appended f size room kind payload frame =>
      have framed : d.framed = f.bytes := by rw [Draft.framed, frame]
      rw [if_neg (Nat.not_lt_of_le size), if_pos room, grow, adding, framed,
        size_of_payload header payload]

end Answers

theorem valid_of_new {config : JournalConfig} {j : Journal} (made : Journal.new config = .ok j) :
    j = { config } ∧ config.maxEntrySize ≤ maxFramedEntry := by
  unfold Journal.new at made
  split at made
  · rename_i passed
    cases made
    refine ⟨rfl, ?_⟩
    unfold JournalConfig.validate at passed
    grind
  · cases made

end Journal

end GraphJournal
