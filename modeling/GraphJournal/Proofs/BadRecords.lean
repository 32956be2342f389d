import GraphJournal.Graph.Persistence
import GraphJournal.Proofs.Offsets
import GraphJournal.Proofs.Visits

/-!
# Bad records

A record that is refused leaves nodes, roots and the copies in stores as they are, so a payload that
has been overwritten costs a replay that one record. A store may be left to answer differently after
it was asked to load a released value in vain. The replay is NOT the same then, so that is excluded
where two replays are compared.
-/
namespace GraphJournal

set_option autoImplicit false

open MessagePack

namespace Read

theorem unread_eq_of_marker {r r' : Reader} {m : Marker} (read : marker r = .ok m r') :
    r.unread = m.byte :: r'.unread := by
  obtain ⟨b, s, front, rest⟩ := bind_eq_ok read
  have ahead : r.unread = b :: s.unread := by
    unfold byte at front
    split at front
    · cases front
    · rename_i tail found
      cases front
      simp [Reader.skip, found]
  have named : ∀ m, Marker.ofByte? b = some m → m.byte = b := by
    intro m known
    unfold Marker.ofByte? at known
    split at known <;> cases known <;> rfl
  cases known : Marker.ofByte? b with
  | none =>
    rw [known] at rest
    cases rest
  | some m' =>
    rw [known] at rest
    have byte := named m' known
    dsimp only at rest
    split at rest
    · cases rest
    · cases rest
      rw [byte]
      exact ahead

theorem unread_of_terminal {r r' : Reader} {op : Marker}
    (read : segment r = .ok (.terminal op) r') : r.unread = op.byte :: r'.unread := by
  obtain ⟨m, s, front, rest⟩ := bind_eq_ok read
  have ahead := unread_eq_of_marker front
  cases m with
  | key =>
    obtain ⟨k, t, -, done⟩ := bind_eq_ok rest
    cases done
  | locator =>
    obtain ⟨address, t, -, done⟩ := bind_eq_ok rest
    cases done
  | _ =>
    cases rest
    exact ahead

theorem decodeFront_of_value {α : Type} {c : Codec α} {r r' : Reader} {a : α}
    (read : value c r = .ok a r') : ∃ rest, c.decodeFront r.unread = .ok (a, rest) := by
  unfold value at read
  cases front : c.decodeFront r.unread with
  | error fault =>
    rw [front] at read
    cases read
  | ok found =>
    rw [front] at read
    cases read
    exact ⟨found.2, rfl⟩

theorem unread_of_replacement {α : Type} {c : Codec α} {r r' : Reader} {a : α}
    (read : replacement c r = .ok a r') :
    ∃ bytes rest, r.unread = Marker.value.byte :: bytes ∧ c.decodeFront bytes = .ok (a, rest) := by
  obtain ⟨u, s, front, read⟩ := bind_eq_ok read
  obtain ⟨rest, decoded⟩ := decodeFront_of_value read
  refine ⟨s.unread, rest, ?_, decoded⟩
  obtain ⟨b, t, first, same⟩ := bind_eq_ok front
  split at same
  · rename_i equal
    cases same
    rw [← equal]
    unfold byte at first
    split at first
    · cases first
    · rename_i tail found
      cases first
      simp [Reader.skip, found]
  · cases same

end Read

theorem LawfulStore.unchanged_of_load {σ : Type} [ByteStore σ] [LawfulStore σ] (s : σ)
    (id : NodeId) : Unchanged s (Run.answered (ByteStore.load id s)).2 := by
  rcases load_cases s id with ⟨bytes, s', run, -, same⟩ | ⟨s', run, same⟩ | ⟨e, s', run, same⟩
  all_goals
    rw [run]
    exact same

namespace Cell

variable {α σ : Type} [ByteStore σ] [LawfulStore σ] (codec : Codec α) (c : Cell α) (s : σ)

theorem reload_cases :
    (∃ old s', reload codec (c, s) = .ok old ({ c with state := .resident old }, s') ∧
        LawfulStore.Unchanged s s') ∨
      ∃ e, c.state = .released ∧
        reload codec (c, s) = .error e (c, (Run.answered (ByteStore.load c.id s)).2) := by
  unfold reload
  simp only [Run.bind_apply, Run.get_apply]
  cases state : c.state with
  | resident old =>
    refine Or.inl ⟨old, s, ?_, LawfulStore.Unchanged.refl s⟩
    cases c
    cases state
    rfl
  | released =>
    simp only [Run.bind_apply, onStore]
    rcases LawfulStore.load_cases s c.id with
      ⟨bytes, s', run, -, same⟩ | ⟨s', run, -⟩ | ⟨e, s', run, -⟩
    · simp only [run]
      cases codec.decodeAll bytes with
      | error e => exact Or.inr ⟨e, trivial, rfl⟩
      | ok old => exact Or.inl ⟨old, s', rfl, same⟩
    · simp only [run]
      exact Or.inr ⟨_, trivial, rfl⟩
    · simp only [run]
      exact Or.inr ⟨e, trivial, rfl⟩

theorem write_cases (new : α) :
    (∃ old s', write codec new (c, s) = .ok old ({ c with state := .resident new }, s') ∧
        LawfulStore.Unchanged s s') ∨
      (∃ e, write codec new (c, s) = .error e (c, s)) ∨
      ∃ e, c.state = .released ∧
        write codec new (c, s) = .error e (c, (Run.answered (ByteStore.load c.id s)).2) := by
  unfold write alter beginWrite awaitWriter
  simp only [Run.bind_apply, Run.get_apply]
  by_cases free : c.lock.admitsWriter = true
  · simp only [free, if_true, Run.pure_apply]
    rcases reload_cases codec c s with ⟨old, s', run, same⟩ | ⟨e, released, run⟩
    · rw [run]
      exact Or.inl ⟨old, s', rfl, same⟩
    · rw [run]
      exact Or.inr (Or.inr ⟨e, released, rfl⟩)
  · simp only [free]
    exact Or.inr (Or.inl ⟨_, rfl⟩)

end Cell

namespace Graph

variable {κ : Type} [Values κ]

/-- Nodes, roots and copies are the same. What stores will answer may differ. -/
structure Intact (g g' : Graph κ) : Prop where
  nodes : g'.nodes = g.nodes
  roots : g'.roots = g.roots
  copies : ∀ s : StoreRef,
    (g'.stores[s.index]?).map LawfulStore.kept = (g.stores[s.index]?).map LawfulStore.kept

theorem Intact.refl (g : Graph κ) : Intact g g := ⟨rfl, rfl, fun _ => rfl⟩

theorem Intact.eq {g g' : Graph κ} (intact : Intact g g') (stores : g'.stores = g.stores) :
    g' = g := by
  cases g
  cases g'
  have nodes := intact.nodes
  have roots := intact.roots
  simp only at nodes roots stores
  rw [nodes, roots, stores]

/-- What a leaf becomes by a marker and the bytes behind it. -/
inductive Told : Content κ → Marker → Bytes → Content κ → Prop
  | replaced {kind : κ} {old new : Values.Carrier kind} {bytes rest : Bytes}
      (decoded : (Values.codec kind).decodeFront bytes = .ok (new, rest)) :
      Told (.value kind old) .value bytes (.value kind new)
  | rewritten {kind : κ} {cell : Cell (Values.Carrier kind)} {s : StoreRef}
      {new : Values.Carrier kind} {bytes rest : Bytes}
      (decoded : (Values.codec kind).decodeFront bytes = .ok (new, rest)) :
      Told (.persistent kind cell s) .value bytes
        (.persistent kind { cell with state := .resident new } s)
  | relisted {kind : κ} {old new : List (Values.Carrier kind)} {bytes rest : Bytes}
      (decoded : (Codec.list (Values.codec kind)).decodeFront bytes = .ok (new, rest)) :
      Told (.list kind old) .value bytes (.list kind new)
  | appended {kind : κ} {items : List (Values.Carrier kind)} {item : Values.Carrier kind}
      {bytes rest : Bytes} (decoded : (Values.codec kind).decodeFront bytes = .ok (item, rest)) :
      Told (.list kind items) .addItem bytes (.list kind (items ++ [item]))
  | removed {kind : κ} {items : List (Values.Carrier kind)} {index : UInt64} {bytes rest : Bytes}
      (decoded : Codec.uint64.decodeFront bytes = .ok (index, rest))
      (valid : index.toNat < items.length) :
      Told (.list kind items) .deleteItem bytes (.list kind (items.eraseIdx index.toNat))

/-- A store was asked in vain for the value of a released leaf. -/
def AskedInVain (g : Graph κ) (content : Content κ) (g' : Graph κ) : Prop :=
  ∃ kind cell s store, content = .persistent kind cell s ∧ cell.state = .released ∧
    g.stores[s.index]? = some store ∧ g'.stores =
      g.stores.setIfInBounds s.index (Run.answered (ByteStore.load cell.id store)).2

/-- The ways in which a record that is handed to a leaf can end. -/
inductive LeafOutcome (g : Graph κ) (n : NodeRef) (content : Content κ) (payload : Bytes) :
    Verdict × Graph κ → Prop
  | refused {e : Error} : LeafOutcome g n content payload (.rejected e, g)
  | unloaded {e : Error} {g' : Graph κ} (asked : AskedInVain g content g') (same : Intact g g') :
      LeafOutcome g n content payload (.rejected e, g')
  | changed {op : Marker} {bytes : Bytes} {new : Content κ} {g' : Graph κ}
      (front : payload = op.byte :: bytes) (told : Told content op bytes new)
      (now : Intact (g.setContent n new) g') : LeafOutcome g n content payload (.applied, g')

def IsBranch : Content κ → Prop
  | .branch _ => True
  | .value _ _ | .list _ _ | .persistent _ _ _ => False

section Leaves
variable {g : Graph κ} {n : NodeRef}

theorem leafOutcome_reading {α : Type} {read : Read α} {content : Content κ} {r : Reader}
    {payload : Bytes} {use : α → Verdict × Graph κ}
    (used : ∀ a r', read r = .ok a r' → LeafOutcome g n content payload (use a)) :
    LeafOutcome g n content payload (reading read r g use) := by
  unfold reading
  cases answer : read r with
  | error e r' => exact .refused
  | ok a r' => exact used a r' answer

theorem leafOutcome_value {kind : κ} {old : Values.Carrier kind} (r : Reader) :
    LeafOutcome g n (.value kind old) r.unread (applyValue n kind r g) := by
  apply leafOutcome_reading
  intro new r' read
  obtain ⟨bytes, rest, front, decoded⟩ := Read.unread_of_replacement read
  exact .changed front (.replaced decoded) (Intact.refl _)

theorem leafOutcome_list {kind : κ} {items : List (Values.Carrier kind)} (r : Reader) :
    LeafOutcome g n (.list kind items) r.unread (applyList n kind items r g) := by
  unfold applyList
  split
  · exact .refused
  · rename_i r' read
    apply leafOutcome_reading
    intro item r'' read'
    obtain ⟨rest, decoded⟩ := Read.decodeFront_of_value read'
    exact .changed (Read.unread_of_terminal read) (.appended decoded) (Intact.refl _)
  · rename_i r' read
    apply leafOutcome_reading
    intro index r'' read'
    obtain ⟨rest, decoded⟩ := Read.decodeFront_of_value read'
    unfold applyRemoval
    split
    · rename_i valid
      exact .changed (Read.unread_of_terminal read) (.removed decoded valid) (Intact.refl _)
    · exact .refused
  · rename_i r' read
    apply leafOutcome_reading
    intro items' r'' read'
    obtain ⟨rest, decoded⟩ := Read.decodeFront_of_value read'
    exact .changed (Read.unread_of_terminal read) (.relisted decoded) (Intact.refl _)
  · exact .refused

theorem nodes_setContent_same {content : Content κ} (there : g.content? n = some content) :
    (g.setContent n content).nodes = g.nodes := by
  obtain ⟨node, found, rfl⟩ := Option.map_eq_some_iff.mp there
  unfold setContent modifyNode
  rw [found]
  exact setIfInBounds_same (node?_eq_some_iff.mp found)

/-- A cell and a store that keeps what it kept are put in their places. -/
theorem intact_putCell {kind : κ} (cell : Cell (Values.Carrier kind)) {s : StoreRef}
    {store store' : Store} (found : g.stores[s.index]? = some store)
    (same : LawfulStore.Unchanged store store') :
    Intact (g.setContent n (.persistent kind cell s)) (g.putCell n kind s (cell, store')) := by
  refine ⟨?_, ?_, ?_⟩
  · unfold putCell setContent modifyNode node?
    dsimp only
    split <;> rfl
  · rw [roots_putCell, roots_setContent]
  · intro t
    rw [stores_setContent]
    exact kept_putCell g found same.kept t

theorem Intact.of_setContent {content : Content κ} {g' : Graph κ}
    (there : g.content? n = some content) (intact : Intact (g.setContent n content) g') :
    Intact g g' := by
  refine ⟨intact.nodes.trans (nodes_setContent_same there), ?_, ?_⟩
  · rw [intact.roots, roots_setContent]
  · intro s
    rw [intact.copies, stores_setContent]

theorem leafOutcome_persistent {kind : κ} {cell : Cell (Values.Carrier kind)} {s : StoreRef}
    (there : g.content? n = some (.persistent kind cell s)) (r : Reader) :
    LeafOutcome g n (.persistent kind cell s) r.unread (applyPersistent n kind cell s r g) := by
  apply leafOutcome_reading
  intro new r' read
  obtain ⟨bytes, rest, front, decoded⟩ := Read.unread_of_replacement read
  cases found : g.stores[s.index]? with
  | none =>
    simp only [withCell, found]
    exact .refused
  | some store =>
    rw [withCell_eq g found]
    have unchanged := LawfulStore.Unchanged.refl store
    rcases Cell.write_cases (Values.codec kind) cell store new with
      ⟨old, store', run, same⟩ | ⟨e, run⟩ | ⟨e, released, run⟩
    · rw [run]
      exact .changed front (.rewritten decoded) (intact_putCell _ found same)
    · rw [run]
      have intact := (intact_putCell cell found unchanged).of_setContent there
      have same : (g.putCell n kind s (cell, store)) = g := by
        exact intact.eq (stores_putCell_same g found cell)
      dsimp only
      rw [same]
      exact .refused
    · rw [run]
      have same := LawfulStore.unchanged_of_load store cell.id
      refine .unloaded ⟨kind, cell, s, store, rfl, released, found, stores_putCell _ _⟩ ?_
      exact (intact_putCell _ found same).of_setContent there

/-- Whatever the bytes are, a leaf refuses them and stays as it is, or takes a value, an item, or the
place of an item out of them. -/
theorem leaf_outcome {content : Content κ} (there : g.content? n = some content)
    (leaf : ¬ IsBranch content) (r : Reader) :
    LeafOutcome g n content r.unread (applyRecord n r g) := by
  rcases content with b | ⟨kind, value⟩ | ⟨kind, items⟩ | ⟨kind, cell, s⟩
  · exact absurd trivial leaf
  · rw [applyRecord, there]
    exact leafOutcome_value r
  · rw [applyRecord, there]
    exact leafOutcome_list r
  · rw [applyRecord, there]
    exact leafOutcome_persistent there r

theorem LeafOutcome.intact {content : Content κ} {payload : Bytes} {x : Verdict × Graph κ}
    (outcome : LeafOutcome g n content payload x) (refused : x.1.isApplied = false) :
    Intact g x.2 := by
  cases outcome with
  | refused => exact Intact.refl g
  | unloaded asked same => exact same
  | changed front told now => cases refused

end Leaves

theorem number_refused {n : NodeRef} {b : Branch} {r : Reader} {g : Graph κ}
    (refused : (applyNumber n b r g).1.isApplied = false) : (applyNumber n b r g).2 = g := by
  unfold applyNumber reading at refused ⊢
  cases read : Read.value Codec.uint64 r with
  | error e r' => rfl
  | ok number r' =>
    rw [read] at refused
    dsimp only at refused ⊢
    split at refused
    · rename_i breaks
      rw [if_pos breaks]
    · cases refused

section Refusals
variable {n : NodeRef} {r : Reader} {g : Graph κ}

/-- Whoever refuses a record on the way leaves everything as it is, so a leaf at the end decides. -/
theorem refused_where (refused : (applyRecord n r g).1.isApplied = false) :
    (applyRecord n r g).2 = g ∨ ∃ m r' content, g.content? m = some content ∧ ¬ IsBranch content ∧
      applyRecord n r g = applyRecord m r' g := by
  induction length : r.unread.length using Nat.strongRecOn generalizing n r with
  | ind size ih =>
    subst length
    cases there : g.content? n with
    | none =>
      rw [applyRecord, there]
      exact Or.inl rfl
    | some content =>
      cases content with
      | value kind value => exact Or.inr ⟨n, r, _, there, id, rfl⟩
      | list kind items => exact Or.inr ⟨n, r, _, there, id, rfl⟩
      | persistent kind cell s => exact Or.inr ⟨n, r, _, there, id, rfl⟩
      | branch b =>
        cases front : Read.segment (b.passPrefix r) with
        | error e left =>
          rw [applyRecord_unread there front]
          exact Or.inl rfl
        | ok part left =>
          have shorter := Branch.unread_lt_of_segment front
          rw [applyRecord_branch there front] at refused ⊢
          cases part with
          | key k =>
            cases found : b.keyed.get? k with
            | none => simp only [found, true_or]
            | some child =>
              simp only [found] at refused ⊢
              by_cases gone : left.peek? = some Marker.delete.byte
              · rw [if_pos gone] at refused
                cases refused
              · rw [if_neg gone] at refused ⊢
                exact ih _ shorter refused rfl
          | locator address =>
            cases found : b.named.get? address with
            | none => simp only [found, true_or]
            | some child =>
              simp only [found] at refused ⊢
              exact ih _ shorter refused rfl
          | terminal op =>
            cases op with
            | value => exact Or.inl (number_refused refused)
            | _ => exact Or.inl rfl

theorem refused_intact (refused : (applyRecord n r g).1.isApplied = false) :
    Intact g (applyRecord n r g).2 := by
  rcases refused_where refused with same | ⟨m, r', content, there, leaf, run⟩
  · rw [same]
    exact Intact.refl g
  · rw [run] at refused ⊢
    exact (leaf_outcome there leaf r').intact refused

/-- No store is changed by loading from it. -/
def Steady (g : Graph κ) : Prop :=
  ∀ (i : Nat) (store : Store) (id : NodeId), g.stores[i]? = some store →
    (Run.answered (ByteStore.load id store)).2 = store

theorem refused_stores (steady : Steady g) (refused : (applyRecord n r g).1.isApplied = false) :
    (applyRecord n r g).2.stores = g.stores := by
  rcases refused_where refused with same | ⟨m, r', content, there, leaf, run⟩
  · rw [same]
  · have outcome := leaf_outcome there leaf r'
    rw [← run] at outcome
    generalize applyRecord n r g = x at outcome refused
    cases outcome with
    | refused => rfl
    | unloaded asked same =>
      obtain ⟨kind, cell, s, store, -, -, found, now⟩ := asked
      rw [now, steady s.index store cell.id found]
      exact setIfInBounds_same found
    | changed front told now => cases refused

end Refusals

end Graph

/-- The bytes with others in place of those from an offset on. -/
def overwrite (buffer : Bytes) (offset : Nat) (bytes : Bytes) : Bytes :=
  buffer.take offset ++ (bytes ++ buffer.drop (offset + bytes.length))

namespace Frame

def withPayload (f : Frame) (damage : Bytes) (size : damage.length = f.payload.length) : Frame :=
  { f with payload := damage, fits := size ▸ f.fits }

theorem overwrite_join (fs gs : List Frame) (f : Frame) {damage : Bytes}
    (size : damage.length = f.payload.length) :
    overwrite (join (fs ++ f :: gs)) ((join fs).length + entryHeaderSize) damage =
      join (fs ++ f.withPayload damage size :: gs) := by
  let header := Bytes.bigEndian lengthFieldSize (f.payload.length + 1) ++ [f.kindByte]
  have long : (join fs ++ header).length = (join fs).length + entryHeaderSize := by
    simp [header, entryHeaderSize, lengthFieldSize, Bytes.length_bigEndian]
  have whole : join (fs ++ f :: gs) = join fs ++ header ++ (f.payload ++ join gs) := by
    simp [header, bytes]
  have damaged : join (fs ++ f.withPayload damage size :: gs) =
      join fs ++ header ++ (damage ++ join gs) := by
    simp [header, bytes, withPayload, size]
  have front : (join fs ++ header ++ (f.payload ++ join gs)).take (join fs ++ header).length =
      join fs ++ header := List.take_left
  have back : (join fs ++ header ++ (f.payload ++ join gs)).drop
      ((join fs ++ header).length + f.payload.length) = join gs := by
    rw [List.drop_length_add_append, List.drop_left]
  rw [overwrite, whole, damaged, size, ← long, front, back]

section Damage
variable {σ : Type} {apply : Reader → σ → Verdict × σ}

theorem replayFrames_counted (fs : List Frame) (offset : Nat) (stats : ReplayStats) (s : σ) :
    replayFrames apply offset fs
        ({ stats with read := stats.read + 1, failed := stats.failed + 1 }, s) =
      ({ (replayFrames apply offset fs (stats, s)).1 with
          read := (replayFrames apply offset fs (stats, s)).1.read + 1
          failed := (replayFrames apply offset fs (stats, s)).1.failed + 1 },
        (replayFrames apply offset fs (stats, s)).2) := by
  simp only [replayFrames_eq, ReplayStats.tally, Nat.add_right_comm]

/-- A refused record costs itself, and the records behind it are handed over all the same. -/
theorem replay_refused (free : PlaceFree apply) (fs gs : List Frame) {f : Frame}
    (record : f.kindByte = EntryKind.record.byte) (s : σ) {x : Verdict × σ}
    (answer : apply (.ofBytes f.payload ((join fs).length + entryHeaderSize))
      (replayWith apply (join fs) s).2 = x)
    (refused : x.1.isApplied = false) (same : x.2 = (replayWith apply (join fs) s).2) :
    replayWith apply (join (fs ++ f :: gs)) s =
        ({ (replayWith apply (join (fs ++ gs)) s).1 with
            read := (replayWith apply (join (fs ++ gs)) s).1.read + 1
            failed := (replayWith apply (join (fs ++ gs)) s).1.failed + 1 },
          (replayWith apply (join (fs ++ gs)) s).2) ∧
      (replayWith apply (join (fs ++ f :: gs)) s).2 =
        (handAll apply (Entry.readers (entriesFrom ((join fs).length + f.size) gs))
          (replayWith apply (join fs) s).2).2 := by
  have entry : replayFrames apply 0 (fs ++ f :: gs) ({}, s) =
      replayFrames apply ((join fs).length + f.size) gs
        ({ (replayWith apply (join fs) s).1 with
            read := (replayWith apply (join fs) s).1.read + 1
            failed := (replayWith apply (join fs) s).1.failed + 1 },
          (replayWith apply (join fs) s).2) := by
    rw [replayWith_join] at answer same ⊢
    rw [replayFrames_append, Nat.zero_add, replayFrames, replayEntry_record record, answer, same,
      ReplayStats.countRecord, refused]
    rfl
  have without : replayWith apply (join (fs ++ gs)) s =
      replayFrames apply ((join fs).length + f.size) gs
        ((replayWith apply (join fs) s).1, (replayWith apply (join fs) s).2) := by
    rw [replayWith_join, replayFrames_append, replayWith_join]
    exact replayFrames_place free gs _ _ _
  rw [replayWith_join apply (fs ++ f :: gs), entry, without, replayFrames_counted]
  refine ⟨rfl, ?_⟩
  rw [replayFrames_eq]

end Damage

end Frame

namespace Graph

variable {κ : Type} [Values κ]

/-- A leaf takes one change out of a record, or none, and then nothing is harmed. So a payload that has
been overwritten, and is refused where it stands, costs a replay this one record, unless the refusal
has changed what a store will answer. -/
theorem bad_record_alone (g : Graph κ) (top : NodeRef) :
    (∀ content, g.content? top = some content → ¬ IsBranch content → ∀ r : Reader,
        LeafOutcome g top content r.unread (applyRecord top r g)) ∧
      (∀ r, (applyRecord top r g).1.isApplied = false → Intact g (applyRecord top r g).2) ∧
      ∀ (fs gs : List Frame) (f : Frame) (damage : Bytes), f.kindByte = EntryKind.record.byte →
        damage.length = f.payload.length →
        let place := (Frame.join fs).length + entryHeaderSize
        let mid := (g.replay top (Frame.join fs)).2
        let answer := applyRecord top (.ofBytes damage place) mid
        answer.1.isApplied = false → answer.2.stores = mid.stores →
        let damaged := g.replay top (overwrite (Frame.join (fs ++ f :: gs)) place damage)
        let without := g.replay top (Frame.join (fs ++ gs))
        damaged = ({ without.1 with
            read := without.1.read + 1
            failed := without.1.failed + 1 }, without.2) ∧
          damaged.1.truncatedAt = none ∧
          damaged.2 = (handAll (applyRecord top)
            (Entry.readers (Frame.entriesFrom ((Frame.join fs).length + f.size) gs)) mid).2 := by
  refine ⟨?_, ?_, ?_⟩
  · intro content there leaf r
    exact leaf_outcome there leaf r
  · intro r refused
    exact refused_intact refused
  · intro fs gs f damage record size place mid answer refused stores damaged without
    have same : answer.2 = mid := (refused_intact refused).eq stores
    have whole : damaged = replayWith (applyRecord top)
        (Frame.join (fs ++ f.withPayload damage size :: gs)) g :=
      congrArg (replayWith (applyRecord top) · g) (Frame.overwrite_join fs gs f size)
    have length : (f.withPayload damage size).size = f.size := by
      simp [Frame.size, Frame.withPayload, size]
    obtain ⟨counted, handed⟩ := Frame.replay_refused (applyRecord_placeFree top) fs gs
      (f := f.withPayload damage size) record g rfl refused same
    rw [← whole] at counted handed
    rw [length] at handed
    refine ⟨counted, ?_, handed⟩
    rw [whole, Frame.replayWith_join, Frame.replayFrames_eq]
    rfl

/-- A list, and a released byte that its store keeps. -/
def shelf : Graph ValueType where
  nodes := #[
    some {
      content := .branch { keyed := (OrderedMap.empty.insert 1 ⟨1⟩).insert 2 ⟨2⟩ }
      links := { root := some ⟨0⟩ } },
    some { content := .list .u8 [], links := { parent := some ⟨0⟩, key := 1 } },
    some {
      content := .persistent .u8 { id := ⟨7⟩, state := .released } ⟨0⟩
      links := { parent := some ⟨0⟩, key := 2 } }]
  stores := #[.memory { entries := OrderedMap.empty.insert ⟨7⟩ [5] }]

/-- A new value for the byte, and an item for the list. -/
def setByte : Frame := ⟨2, [1, 2, 2, 9], by decide⟩

def addSeven : Frame := ⟨2, [1, 1, 4, 7], by decide⟩

theorem steady_shelf : Steady shelf := by
  intro i store id found
  cases i with
  | zero =>
    cases found
    rfl
  | succ i => simp [shelf] at found

/-- The new value comes with the marker of another change. -/
theorem shelf_loses_one :
    (applyRecord ⟨0⟩ (.ofBytes [1, 2, 5, 9] 4) shelf).1.isApplied = false ∧
      (applyRecord ⟨0⟩ (.ofBytes [1, 2, 5, 9] 4) shelf).2.stores = shelf.stores ∧
      (shelf.replay ⟨0⟩ (overwrite (Frame.join [setByte, addSeven]) 4 [1, 2, 5, 9])).2 =
        (shelf.replay ⟨0⟩ (Frame.join [addSeven])).2 := by
  have refused : (applyRecord ⟨0⟩ (.ofBytes [1, 2, 5, 9] 4) shelf).1.isApplied = false := by
    decide +kernel
  have stores := refused_stores steady_shelf refused
  have start : shelf.replay ⟨0⟩ (Frame.join []) = ({}, shelf) :=
    Frame.replayFrom_nil _ _ _ _
  obtain ⟨-, -, loses⟩ := bad_record_alone shelf ⟨0⟩
  have here := loses [] [addSeven] setByte [1, 2, 5, 9] rfl rfl
  simp only [start] at here
  have state := congrArg Prod.snd (here refused stores).1
  exact ⟨refused, stores, state⟩

/-- A byte whose store fails once. -/
def wavering : Graph ValueType where
  nodes := #[some { content := .persistent .u8 { id := ⟨7⟩, state := .released } ⟨0⟩ }]
  stores := #[.scripted {
    memory := { entries := OrderedMap.empty.insert ⟨7⟩ [5] }
    loads := [.fail] }]

def setSix : Frame := ⟨2, [2, 6], by decide⟩

def setNine : Frame := ⟨2, [2, 9], by decide⟩

/-- The refused record uses up the failure, so the record behind it is applied. -/
theorem wavering_differs :
    (applyRecord ⟨0⟩ (.ofBytes [2, 8] 4) wavering).1.isApplied = false ∧
      (wavering.replay ⟨0⟩ (overwrite (Frame.join [setSix, setNine]) 4 [2, 8])).2 ≠
        (wavering.replay ⟨0⟩ (Frame.join [setNine])).2 ∧
      (wavering.replay ⟨0⟩ (overwrite (Frame.join [setSix, setNine]) 4 [2, 8])).1.failed ≠
        (wavering.replay ⟨0⟩ (Frame.join [setNine])).1.failed + 1 := by
  refine ⟨by decide +kernel, ?_, by decide +kernel⟩
  intro same
  have resident := congrArg (fun g : Graph ValueType => g.isResident ⟨0⟩) same
  have differ :
      (wavering.replay ⟨0⟩ (overwrite (Frame.join [setSix, setNine]) 4 [2, 8])).2.isResident ⟨0⟩ ≠
        (wavering.replay ⟨0⟩ (Frame.join [setNine])).2.isResident ⟨0⟩ := by
    decide +kernel
  exact differ resident

end Graph

end GraphJournal
