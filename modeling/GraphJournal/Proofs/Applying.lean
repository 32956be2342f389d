import GraphJournal.Graph.Apply
import GraphJournal.Proofs.Reading
import GraphJournal.Proofs.Revision
import GraphJournal.Proofs.RoundTrip
import GraphJournal.Proofs.Tree

/-!
# Applying records

A record handed to the top of a tree comes to the node at the end of its path, which makes the change
that the record tells. Records that are refused are no matter of this module, and neither are nodes
whose values are released.
-/
namespace GraphJournal

set_option autoImplicit false

open MessagePack

variable {κ : Type} [Values κ]

namespace Read

theorem reads_expect (m : Marker) : Reads (expect m) [m.byte] () := by
  unfold expect
  rw [← List.append_nil [m.byte]]
  refine (reads_byte m.byte).bind ?_
  rw [if_pos rfl]
  exact reads_pure ()

theorem value_of_decodeAll {α : Type} {c : Codec α} {r : Reader} {a : α}
    (h : c.decodeAll r.unread = .ok a) : ∃ r', value c r = .ok a r' ∧ r'.unread = [] := by
  refine ⟨r.skip (r.unread.length - ([] : Bytes).length), ?_, ?_⟩
  · rw [value, Codec.decodeFront_of_decodeAll h]
  · simp [Reader.skip]

theorem replacement_of_decodeAll {α : Type} {c : Codec α} {r : Reader} {bytes : Bytes} {a : α}
    (unread : r.unread = Marker.value.byte :: bytes) (h : c.decodeAll bytes = .ok a) :
    ∃ r', replacement c r = .ok a r' := by
  obtain ⟨r', run, rest⟩ := reads_expect .value r bytes unread
  obtain ⟨r'', run', -⟩ := value_of_decodeAll (rest ▸ h)
  refine ⟨r'', ?_⟩
  rw [replacement, Run.bind_apply, run]
  exact run'

end Read

namespace Graph

/-- A tree that records can be handed to: its branches read steps only, and it is a tree. -/
structure Receiving (h : Graph κ) (top : NodeRef) : Prop where
  plain : ∀ path n b, Reaches h top path n → h.shape? n = some (.branch b) → b.recordPrefix = []
  unique : ∀ path other n, Reaches h top path n → Reaches h top other n → path = other

/-- The value of a node is in memory, and nobody uses it. -/
def Ready (h : Graph κ) (n : NodeRef) : Prop :=
  ∀ kind (cell : Cell (Values.Carrier kind)) s, h.content? n = some (.persistent kind cell s) →
    (∃ value, cell.state = .resident value) ∧ cell.lock.admitsWriter = true ∧
      ∃ store, h.stores[s.index]? = some store

theorem receiving_of_attached {h : Graph κ} {top : NodeRef} {r : RootRef}
    (attached : Attached h top r) (plain : ∀ path n b, Reaches h top path n →
      h.shape? n = some (.branch b) → b.recordPrefix = []) : Receiving h top :=
  ⟨plain, fun _ _ _ => path_unique attached⟩

theorem receiving_congr {h h' : Graph κ} (same : h'.skeleton = h.skeleton) {top : NodeRef}
    (receiving : Receiving h top) : Receiving h' top := by
  constructor
  · intro path n b reaches shape
    rw [shape?_congr same] at shape
    exact receiving.plain path n b (reaches_congr same.symm reaches) shape
  · intro path other n reaches reaches'
    exact receiving.unique path other n (reaches_congr same.symm reaches)
      (reaches_congr same.symm reaches')

section Descent
variable {h : Graph κ} {top : NodeRef}

theorem unread_passPrefix {b : Branch} (plain : b.recordPrefix = []) (r : Reader) :
    (b.passPrefix r).unread = r.unread := by
  simp [Branch.passPrefix, plain, Reader.skip]

theorem exists_branch_of_child {n m : NodeRef} {step : PathStep} (child : h.child? n step = some m) :
    ∃ b, h.content? n = some (.branch b) ∧ h.shape? n = some (.branch { b with value := 0 }) ∧
      Shape.child? (some (Shape.branch b : Shape κ)) step = some m := by
  unfold child? shape? at child
  rcases content : h.content? n with _ | b | _ | _ | _
  · rw [content] at child
    cases step <;> cases child
  · rw [content] at child
    refine ⟨b, rfl, by rw [shape?, content]; rfl, ?_⟩
    cases step <;> exact child
  all_goals
    rw [content] at child
    cases step <;> cases child

theorem reads_step {step : PathStep} (short : step.bytes.length < 2 ^ 64) :
    Read.Reads Read.segment step.bytes step.segment := by
  cases step with
  | key k => exact Read.reads_key k
  | locator address =>
    refine Read.reads_locator (Nat.lt_of_le_of_lt ?_ short)
    simp only [PathStep.bytes, PathStep.segment, Segment.encode, Draft.locatorSegment,
      List.length_cons, List.length_append]
    omega

/-- What a branch does with a record once it has read the next part of it. -/
theorem applyRecord_branch {n : NodeRef} {b : Branch} {r rest : Reader} {part : Segment}
    (content : h.content? n = some (.branch b))
    (read : Read.segment (b.passPrefix r) = .ok part rest) :
    applyRecord n r h =
      match part with
      | .key key =>
        match b.keyed.get? key with
        | none => (.rejected (.invalidKey key), h)
        | some child =>
          if rest.peek? = some Marker.delete.byte then (.applied, (h.removeKeyed n key).2)
          else applyRecord child rest h
      | .locator address =>
        match b.named.get? address with
        | none => (.rejected (.invalidLocator (Bytes.toHex address)), h)
        | some child => applyRecord child rest h
      | .terminal .value => applyNumber n b rest h
      | part => (.rejected (unexpected "Key, Locator or Value" part), h) := by
  rw [applyRecord]
  split
  · rename_i found
    rw [content] at found
    cases found
  · rename_i found
    rw [content] at found
    cases found
  · rename_i found
    rw [content] at found
    cases found
  · rename_i found
    rw [content] at found
    cases found
  · rename_i b' found
    rw [content] at found
    cases found
    split
    · rename_i refused
      rw [read] at refused
      cases refused
    · rename_i read'
      rw [read] at read'
      cases read'
      cases part with
      | key key => rfl
      | locator address => rfl
      | terminal op => cases op <;> rfl

/-- A branch hands a record to the child that its next step names. -/
theorem applyRecord_child {n m : NodeRef} {step : PathStep} {r : Reader} {rest : Bytes}
    (plain : ∀ b, h.shape? n = some (.branch b) → b.recordPrefix = [])
    (child : h.child? n step = some m) (short : step.bytes.length < 2 ^ 64)
    (unread : r.unread = step.bytes ++ rest) (kept : rest.head? ≠ some Marker.delete.byte) :
    ∃ r', r'.unread = rest ∧ applyRecord n r h = applyRecord m r' h := by
  obtain ⟨b, content, shape, found⟩ := exists_branch_of_child child
  have none : ({ b with value := 0 } : Branch).recordPrefix = [] := plain _ shape
  have none : b.recordPrefix = [] := none
  have ahead : (b.passPrefix r).unread = step.bytes ++ rest := by
    rw [unread_passPrefix none, unread]
  obtain ⟨r', run, left⟩ := reads_step short _ rest ahead
  refine ⟨r', left, ?_⟩
  rw [applyRecord_branch content run]
  cases step with
  | key k =>
    simp only [PathStep.segment, Shape.child?] at found ⊢
    rw [found]
    dsimp only
    rw [if_neg (by rw [Reader.peek?, left]; exact kept)]
  | locator address =>
    simp only [PathStep.segment, Shape.child?] at found ⊢
    rw [found]

theorem head_of_step (step : PathStep) (rest : Bytes) :
    (step.bytes ++ rest).head? ≠ some Marker.delete.byte := by
  cases step <;> simp [PathStep.bytes, PathStep.segment, Segment.encode, Draft.keySegment,
    Draft.locatorSegment, Marker.byte]

/-- A record comes to the node at the end of its path. -/
theorem applyRecord_of_reaches (receiving : Receiving h top) {path : List PathStep} {n : NodeRef}
    (reaches : Reaches h top path n) {r : Reader} {rest : Bytes}
    (short : (path.flatMap PathStep.bytes).length < 2 ^ 64)
    (unread : r.unread = path.flatMap PathStep.bytes ++ rest)
    (kept : rest.head? ≠ some Marker.delete.byte) :
    ∃ r', r'.unread = rest ∧ applyRecord top r h = applyRecord n r' h := by
  induction reaches generalizing rest with
  | top => exact ⟨r, unread, rfl⟩
  | @child path p m step above child ih =>
    simp only [List.flatMap_append, List.flatMap_cons, List.flatMap_nil, List.append_nil,
      List.length_append, List.append_assoc] at short unread
    obtain ⟨r', unread', run⟩ := ih (by omega) unread (head_of_step step rest)
    obtain ⟨r'', unread'', run'⟩ := applyRecord_child (fun b => receiving.plain path p b above) child
      (by omega) unread' kept
    exact ⟨r'', unread'', run.trans run'⟩

end Descent

end Graph

def Holding.IsLeaf : Holding κ → Prop
  | .number _ => False
  | .single _ _ | .list _ _ => True

/-- What is recorded of a leaf that holds something of this kind can be read back. -/
def Holding.Restorable (layout : Layout) : Holding κ → Prop
  | .number _ => True
  | .single kind _ => (Values.codec kind).RestoresShort layout
  | .list kind _ =>
    (Values.codec kind).RestoresShort layout ∧
      (Codec.list (Values.codec kind)).RestoresShort layout

namespace NodeCall

theorem revise_single {call : NodeCall κ} {kind : κ} {value : Values.Carrier kind}
    {rev : Revision κ} (revised : call.revise? (.single kind value) = some rev) :
    ∃ next, rev = ⟨.value, ((Values.codec kind).encode · next), .single kind next⟩ := by
  cases call <;> cases revised
  all_goals exact ⟨_, rfl⟩

theorem revise_list {call : NodeCall κ} {kind : κ} {items : List (Values.Carrier kind)}
    {rev : Revision κ} (revised : call.revise? (.list kind items) = some rev) :
    (∃ item, rev = ⟨.addItem, ((Values.codec kind).encode · item), .list kind (items ++ [item])⟩) ∨
      (∃ index : UInt64, index.toNat < items.length ∧ rev =
        ⟨.deleteItem, (Codec.uint64.encode · index), .list kind (items.eraseIdx index.toNat)⟩) ∨
      ∃ items', rev =
        ⟨.value, ((Codec.list (Values.codec kind)).encode · items'), .list kind items'⟩ := by
  cases call with
  | push item =>
    cases revised
    exact Or.inl ⟨_, rfl⟩
  | removeAt index =>
    simp only [revise?] at revised
    split at revised
    · rename_i bound
      cases revised
      exact Or.inr (Or.inl ⟨index, bound, rfl⟩)
    · cases revised
  | replaceAll items' =>
    cases revised
    exact Or.inr (Or.inr ⟨_, rfl⟩)
  | number change => cases revised
  | set item => cases revised
  | update change => cases revised
  | updateFor recorder change => cases revised

/-- A record that a branch could take for the removal of a child is never made of a leaf. -/
theorem op_ne_delete {call : NodeCall κ} {holding : Holding κ} {rev : Revision κ}
    (leaf : holding.IsLeaf) (revised : call.revise? holding = some rev) :
    rev.op.byte ≠ Marker.delete.byte := by
  cases holding with
  | number value => cases leaf
  | single kind value =>
    obtain ⟨next, rfl⟩ := revise_single revised
    exact (by decide : Marker.value.byte ≠ Marker.delete.byte)
  | list kind items =>
    rcases revise_list revised with ⟨item, rfl⟩ | ⟨index, -, rfl⟩ | ⟨items', rfl⟩
    · exact (by decide : Marker.addItem.byte ≠ Marker.delete.byte)
    · exact (by decide : Marker.deleteItem.byte ≠ Marker.delete.byte)
    · exact (by decide : Marker.value.byte ≠ Marker.delete.byte)

end NodeCall

namespace Graph

/-- A node holds something else, and no other node does. -/
structure Applied (h : Graph κ) (n : NodeRef) (next : Holding κ) (h' : Graph κ) : Prop where
  skeleton : h'.skeleton = h.skeleton
  now : h'.held? n = some next
  others : ∀ m, m ≠ n → h'.held? m = h.held? m
  ready : ∀ m, Ready h m → Ready h' m

section Leaves
variable {h : Graph κ} {n : NodeRef} {r : Reader} {layout : Layout}

theorem applied_setContent {old new : Content κ} {next : Holding κ}
    (content : h.content? n = some old) (shape : new.shape = old.shape)
    (memory : ∀ kind cell s, new ≠ .persistent kind cell s) (now : h.holding? new = some next) :
    Applied h n next (h.setContent n new) := by
  refine ⟨skeleton_setContent h n content shape, held?_setContent_self content now, ?_, ?_⟩
  · intro m apart
    exact held?_setContent_other apart new
  · intro m ready kind cell s found
    by_cases here : m = n
    · rw [here, content?_setContent_self h n content] at found
      exact absurd (Option.some.inj found) (memory kind cell s)
    · rw [content?_setContent_other h n here] at found
      rw [stores_setContent]
      exact ready kind cell s found

theorem applyRecord_value {kind : κ} {value next : Values.Carrier kind} {bytes : Bytes}
    (content : h.content? n = some (.value kind value))
    (unread : r.unread = Marker.value.byte :: bytes)
    (decoded : (Values.codec kind).decodeAll bytes = .ok next) :
    applyRecord n r h = (.applied, h.setContent n (.value kind next)) := by
  obtain ⟨r', run⟩ := Read.replacement_of_decodeAll unread decoded
  rw [applyRecord, content]
  simp only [applyValue, reading, run]

theorem apply_value {kind : κ} {value next : Values.Carrier kind} {bytes : Bytes}
    (content : h.content? n = some (.value kind value))
    (unread : r.unread = Marker.value.byte :: bytes)
    (decoded : (Values.codec kind).decodeAll bytes = .ok next) :
    ∃ h', applyRecord n r h = (.applied, h') ∧ Applied h n (.single kind next) h' :=
  ⟨_, applyRecord_value content unread decoded,
    applied_setContent content rfl (fun _ _ _ equal => nomatch equal) rfl⟩

theorem write_resident {α σ : Type} [ByteStore σ] {codec : Codec α} {c : Cell α} {s : σ} {value : α}
    (state : c.state = .resident value) (free : c.lock.admitsWriter = true) (next : α) :
    Cell.write codec next (c, s) = .ok value ({ c with state := .resident next }, s) := by
  simp only [Cell.write, Cell.alter, Cell.beginWrite, Cell.awaitWriter, Cell.reload, Cell.setState,
    Run.bind_apply, Run.get_apply, free, if_true, Run.pure_apply, state, Run.modify_apply]

theorem applyRecord_resident {kind : κ} {cell : Cell (Values.Carrier kind)} {s : StoreRef}
    {store : Store} {value next : Values.Carrier kind} {bytes : Bytes}
    (content : h.content? n = some (.persistent kind cell s))
    (found : h.stores[s.index]? = some store) (state : cell.state = .resident value)
    (free : cell.lock.admitsWriter = true) (unread : r.unread = Marker.value.byte :: bytes)
    (decoded : (Values.codec kind).decodeAll bytes = .ok next) :
    applyRecord n r h =
      (.applied, h.putCell n kind s ({ cell with state := .resident next }, store)) := by
  obtain ⟨r', run⟩ := Read.replacement_of_decodeAll unread decoded
  rw [applyRecord, content]
  simp only [applyPersistent, reading, run]
  rw [withCell_eq h found, write_resident state free]

theorem ready_putCell {kind : κ} {cell : Cell (Values.Carrier kind)} {s : StoreRef} {store : Store}
    (content : h.content? n = some (.persistent kind cell s))
    (found : h.stores[s.index]? = some store) (free : cell.lock.admitsWriter = true)
    (next : Values.Carrier kind) {m : NodeRef} (ready : Ready h m) :
    Ready (h.putCell n kind s ({ cell with state := .resident next }, store)) m := by
  have same : (h.putCell n kind s ({ cell with state := .resident next }, store)).stores =
      h.stores := stores_putCell_same h found _
  intro kind' cell' t there
  rw [same]
  by_cases here : m = n
  · rw [here, content?_putCell_self h content] at there
    cases there
    exact ⟨⟨next, rfl⟩, free, store, found⟩
  · rw [putCell, content?_setContent_other _ n here] at there
    exact ready kind' cell' t there

theorem apply_persistent {kind : κ} {cell : Cell (Values.Carrier kind)} {s : StoreRef}
    {next : Values.Carrier kind} {bytes : Bytes}
    (content : h.content? n = some (.persistent kind cell s)) (ready : Ready h n)
    (unread : r.unread = Marker.value.byte :: bytes)
    (decoded : (Values.codec kind).decodeAll bytes = .ok next) :
    ∃ h', applyRecord n r h = (.applied, h') ∧ Applied h n (.single kind next) h' := by
  obtain ⟨⟨value, state⟩, free, store, found⟩ := ready kind cell s content
  have same := LawfulStore.Unchanged.refl store
  have framed : Cell.Framed (cell, store) ({ cell with state := .resident next }, store) :=
    Cell.Framed.of_unchanged same _
  refine ⟨_, applyRecord_resident content found state free unread decoded, ?_, ?_, ?_, ?_⟩
  · exact skeleton_putCell h content framed
  · rw [held?_putCell_self h content found]
    rfl
  · intro m apart
    exact held?_putCell_other h apart found fun _ _ _ => rfl
  · intro m ready'
    exact ready_putCell content found free next ready'

section Lists
variable {kind : κ} {items : List (Values.Carrier kind)} {bytes : Bytes}
  (content : h.content? n = some (.list kind items))
include content

theorem applied_list (items' : List (Values.Carrier kind)) :
    Applied h n (.list kind items') (h.setContent n (.list kind items')) :=
  applied_setContent content rfl (fun _ _ _ equal => nomatch equal) rfl

/-- A list takes in what its record carries, whatever its marker makes of that. -/
theorem apply_listed {α : Type} {op : Marker} {c : Codec α} {a : α}
    {items' : List (Values.Carrier kind)} (terminal : op.isTerminal = true)
    (makes : ∀ r₁ r₂, Read.segment r = .ok (.terminal op) r₁ → Read.value c r₁ = .ok a r₂ →
      applyList n kind items r h = (.applied, h.setContent n (.list kind items')))
    (unread : r.unread = op.byte :: bytes) (decoded : c.decodeAll bytes = .ok a) :
    ∃ h', applyRecord n r h = (.applied, h') ∧ Applied h n (.list kind items') h' := by
  obtain ⟨r₁, run, rest⟩ := Read.reads_terminal terminal r bytes unread
  obtain ⟨r₂, read, -⟩ := Read.value_of_decodeAll (rest ▸ decoded)
  refine ⟨_, ?_, applied_list content items'⟩
  rw [applyRecord, content]
  exact makes r₁ r₂ run read

end Lists

theorem holder_of_single {kind : κ} {value : Values.Carrier kind}
    (was : h.held? n = some (.single kind value)) :
    h.content? n = some (.value kind value) ∨
      ∃ cell s, h.content? n = some (.persistent kind cell s) := by
  unfold held? at was
  rcases content : h.content? n with _ | b | _ | _ | ⟨kind', cell, s⟩
  · rw [content] at was
    cases was
  · rw [content] at was
    cases was
  · rw [content] at was
    cases was
    exact Or.inl rfl
  · rw [content] at was
    cases was
  · rw [content] at was
    simp only [Option.bind_some, holding?, Option.bind_eq_some_iff, Option.map_eq_some_iff] at was
    obtain ⟨store, -, value', -, same⟩ := was
    cases same
    exact Or.inr ⟨cell, s, rfl⟩

theorem holder_of_list {kind : κ} {items : List (Values.Carrier kind)}
    (was : h.held? n = some (.list kind items)) : h.content? n = some (.list kind items) := by
  unfold held? at was
  rcases content : h.content? n with _ | b | _ | _ | ⟨kind', cell, s⟩
  · rw [content] at was
    cases was
  · rw [content] at was
    cases was
  · rw [content] at was
    cases was
  · rw [content] at was
    cases was
    rfl
  · rw [content] at was
    simp only [Option.bind_some, holding?, Option.bind_eq_some_iff, Option.map_eq_some_iff] at was
    obtain ⟨store, -, value', -, same⟩ := was
    cases same

/-- A leaf makes the change that a record tells it, if it holds what the change was made of. -/
theorem apply_revision {call : NodeCall κ} {holding : Holding κ} {rev : Revision κ}
    (leaf : holding.IsLeaf) (restorable : holding.Restorable layout)
    (was : h.held? n = some holding) (ready : Ready h n)
    (revised : call.revise? holding = some rev) (whole : (rev.text layout).fault? = none)
    (short : (rev.text layout).bytes.length < maxLengthField)
    (unread : r.unread = rev.op.byte :: (rev.text layout).bytes) :
    ∃ h', applyRecord n r h = (.applied, h') ∧ Applied h n rev.next h' := by
  cases holding with
  | number value => cases leaf
  | single kind value =>
    obtain ⟨next, rfl⟩ := NodeCall.revise_single revised
    rcases holder_of_single was with content | ⟨cell, s, content⟩
    · exact apply_value content unread (restorable next whole short)
    · exact apply_persistent content ready unread (restorable next whole short)
  | list kind items =>
    have content := holder_of_list was
    rcases NodeCall.revise_list revised with ⟨item, rfl⟩ | ⟨index, bound, rfl⟩ | ⟨items', rfl⟩
    · refine apply_listed content rfl ?_ unread (restorable.1 item whole short)
      intro r₁ r₂ run read
      simp only [applyList, run, reading, read]
    · refine apply_listed content rfl ?_ unread
        ((Codec.lossless_uint64 layout maxDepth).restores index whole)
      intro r₁ r₂ run read
      simp only [applyList, run, reading, read, applyRemoval, if_pos bound]
    · refine apply_listed content rfl ?_ unread (restorable.2 items' whole short)
      intro r₁ r₂ run read
      simp only [applyList, run, reading, read]

/-- A record handed to the top of a tree changes the leaf that it is about. -/
theorem applied_of_reaches {top : NodeRef} {path : List PathStep} {call : NodeCall κ}
    {holding : Holding κ} {rev : Revision κ} (receiving : Receiving h top)
    (reaches : Reaches h top path n) (leaf : holding.IsLeaf)
    (restorable : holding.Restorable layout) (was : h.held? n = some holding) (ready : Ready h n)
    (revised : call.revise? holding = some rev) (whole : (rev.text layout).fault? = none)
    (fits : (path.flatMap PathStep.bytes ++ rev.op.byte :: (rev.text layout).bytes).length <
      maxLengthField)
    (unread : r.unread = path.flatMap PathStep.bytes ++ rev.op.byte :: (rev.text layout).bytes) :
    ∃ h', applyRecord top r h = (.applied, h') ∧ Applied h n rev.next h' := by
  rw [List.length_append, List.length_cons] at fits
  have short : (path.flatMap PathStep.bytes).length < 2 ^ 64 := by
    simp only [maxLengthField] at fits
    omega
  have kept : (rev.op.byte :: (rev.text layout).bytes).head? ≠ some Marker.delete.byte := by
    simpa using NodeCall.op_ne_delete leaf revised
  obtain ⟨r', unread', run⟩ := applyRecord_of_reaches receiving reaches short unread kept
  rw [run]
  exact apply_revision leaf restorable was ready revised whole (by omega) unread'

end Leaves

end Graph

end GraphJournal
