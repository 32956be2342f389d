import GraphJournal.Proofs.Applying

/-!
# The grammar of records

A record spells out the levels of its graph from the top down, then what is recorded there, and it
reads back as it was spelled. What a level without a key writes is nothing or one address here, and
nodes write nothing ahead of their markers. Other hooks are NOT treated.
-/
namespace GraphJournal

set_option autoImplicit false

open MessagePack

namespace Read

/-- The parts of a record up to and including its marker. -/
def parts (r : Reader) : EStateM.Result Error Reader (List Segment) :=
  match _read : segment r with
  | .error e r' => .error e r'
  | .ok (.terminal op) r' => .ok [.terminal op] r'
  | .ok part r' =>
    match parts r' with
    | .error e r'' => .error e r''
    | .ok later r'' => .ok (part :: later) r''
termination_by r.unread.length
decreasing_by exact unread_lt_of_segment _read

theorem parts_of_terminal {r r' : Reader} {op : Marker} (read : segment r = .ok (.terminal op) r') :
    parts r = .ok [.terminal op] r' := by
  rw [parts]
  split
  · simp_all
  · simp_all
  · rename_i part r'' other again
    rw [read] at again
    cases again
    exact absurd rfl (other op)

theorem parts_of_step {r r' r'' : Reader} {step : PathStep} {later : List Segment}
    (read : segment r = .ok step.segment r') (rest : parts r' = .ok later r'') :
    parts r = .ok (step.segment :: later) r'' := by
  rw [parts]
  split
  · simp_all
  · rename_i op again
    rw [read] at again
    cases step <;> cases again
  · rename_i part s other again
    rw [read] at again
    cases again
    rw [rest]

/-- Steps and the marker behind them are read one after the other, whatever stands behind. -/
theorem reads_parts {steps : List PathStep} (short : ∀ step ∈ steps, step.bytes.length < 2 ^ 64)
    {op : Marker} (terminal : op.isTerminal = true) :
    Reads parts ((steps.map PathStep.segment ++ [Segment.terminal op]).flatMap Segment.encode)
      (steps.map PathStep.segment ++ [Segment.terminal op]) := by
  induction steps with
  | nil =>
    intro r rest unread
    obtain ⟨r', read, unread'⟩ := reads_terminal terminal r rest unread
    exact ⟨r', parts_of_terminal read, unread'⟩
  | cons step steps ih =>
    intro r rest unread
    rw [List.map_cons, List.cons_append, List.flatMap_cons, List.append_assoc] at unread
    obtain ⟨r', read, unread'⟩ := Graph.reads_step (short step List.mem_cons_self) r _ unread
    obtain ⟨r'', later, unread''⟩ :=
      ih (fun other mem => short other (List.mem_cons_of_mem step mem)) r' rest unread'
    exact ⟨r'', parts_of_step read later, unread''⟩

end Read

/-- What a record says about the node that it leads to. -/
structure Wording (α : Type) where
  op : Marker
  terminal : op.isTerminal = true
  /-- Whether the path goes down to the node itself. -/
  withOwn : Bool := true
  field? : Option UInt32 := none
  value? : Option α := none

namespace Wording

variable {α : Type} (w : Wording α) (c : Codec α) (layout : Layout)

def parts (path : List PathStep) : List Segment :=
  (path ++ (w.field?.map PathStep.key).toList).map PathStep.segment ++ [.terminal w.op]

def valueBytes : Bytes := (w.value?.map fun a => (c.encode layout a).bytes).getD []

def payload (path : List PathStep) : Bytes :=
  (w.parts path).flatMap Segment.encode ++ w.valueBytes c layout

/-- The value is written to its end, and what is written decodes to it. -/
def Returns : Prop :=
  ∀ a, w.value? = some a → (c.encode layout a).fault? = none ∧
    c.decodeAll (c.encode layout a).bytes = .ok a

/-- The bytes read back as these parts, and then as the value if there is one. -/
def ReadsBack (path : List PathStep) (bytes : Bytes) : Prop :=
  ∀ r : Reader, r.unread = bytes → ∃ r', Read.parts r = .ok (w.parts path) r' ∧
    match w.value? with
    | none => r'.unread = []
    | some a => ∃ r'', Read.value c r' = .ok a r'' ∧ r''.unread = []

def write : DraftM Unit :=
  match w.value? with
  | none => pure ()
  | some a => Draft.value c layout a

theorem encode_parts (path : List PathStep) :
    (w.parts path).flatMap Segment.encode = path.flatMap PathStep.bytes ++
      ((w.field?.map PathStep.key).toList.flatMap PathStep.bytes ++ [w.op.byte]) := by
  rw [parts, List.flatMap_append, List.flatMap_map, List.flatMap_append, List.append_assoc]
  rfl

variable {w c layout}

theorem write_record (returns : w.Returns c layout) (front : Bytes) :
    w.write c layout (.record front) = .ok () (.record (front ++ w.valueBytes c layout)) := by
  unfold write valueBytes
  cases carried : w.value? with
  | none => simp
  | some a =>
    rcases Graph.draft_value c layout a (.record front) with ⟨e, d, failed⟩ | ⟨-, written⟩
    · have whole := (returns a carried).1
      simp [Draft.value, Draft.onWriter, Writer.value, Writer.encoded, whole] at failed
    · rw [Draft.append_record] at written
      exact written

theorem readsBack_payload (returns : w.Returns c layout) {path : List PathStep}
    (short : (w.payload c layout path).length < 2 ^ 64) :
    w.ReadsBack c path (w.payload c layout path) := by
  intro r unread
  have steps : ∀ step ∈ path ++ (w.field?.map PathStep.key).toList, step.bytes.length < 2 ^ 64 := by
    intro step mem
    refine Nat.lt_of_le_of_lt ?_ short
    have among : step.bytes.length ≤ ((w.parts path).flatMap Segment.encode).length :=
      (List.sublist_flatten_of_mem
        (List.mem_map_of_mem (List.mem_append_left _ (List.mem_map_of_mem mem)))).length_le
    rw [payload, List.length_append]
    omega
  obtain ⟨r', read, rest⟩ := Read.reads_parts steps w.terminal r _ unread
  refine ⟨r', read, ?_⟩
  cases carried : w.value? with
  | none => simp [rest, valueBytes, carried]
  | some a =>
    have bytes : r'.unread = (c.encode layout a).bytes := by simp [rest, valueBytes, carried]
    exact Read.value_of_decodeAll (bytes ▸ (returns a carried).2)

end Wording

namespace Graph

variable {κ : Type} [Values κ]

/-- The nodes above a node, the top first. The top knows the root. -/
inductive Chain (g : Graph κ) (r : RootRef) : List NodeRef → NodeRef → Prop
  | top {n : NodeRef} (parent : (g.links n).parent = none) (root : (g.links n).root = some r) :
      Chain g r [] n
  | under {above : List NodeRef} {p n : NodeRef} (chain : Chain g r above p)
      (parent : (g.links n).parent = some p) : Chain g r (above ++ [p]) n

/-- What one level adds to an address. -/
def ownSteps (g : Graph κ) (n : NodeRef) : List PathStep :=
  if 0 ≤ (g.links n).key then [.key (g.links n).key.toUInt32]
  else
    match g.content? n with
    | some (.branch b) =>
      match b.address with
      | .locator address => [.locator address]
      | .nothing | .raw _ | .unavailable => []
    | _ => []

def pathOf (g : Graph κ) (above : List NodeRef) (n : NodeRef) (withOwn : Bool) : List PathStep :=
  above.flatMap g.ownSteps ++ if withOwn then g.ownSteps n else []

/-- Without a key, the level writes nothing or one address. -/
def Spelled (g : Graph κ) (n : NodeRef) : Prop :=
  ∀ b, (g.links n).key < 0 → g.content? n = some (.branch b) →
    b.address = .nothing ∨ ∃ address, b.address = .locator address

def withKeys (g : Graph κ) (above : List NodeRef) : List (NodeRef × Int32) :=
  above.map fun m => (m, (g.links m).key)

/-- A draft is handed to a root. -/
def submit (r : RootRef) (root : Root) (draft : Draft) : GraphM κ RecordOutcome := fun g =>
  match root.commit draft with
  | .ok commit after => settle root.isStrict (.ok commit) (g.setRoot r after)
  | .error e after => settle root.isStrict (.error e) (g.setRoot r after)

section Chains
variable {g : Graph κ} {r : RootRef} {above : List NodeRef} {n : NodeRef}

theorem Chain.alive (chain : Chain g r above n) : ∃ node, g.node? n = some node := by
  cases there : g.node? n with
  | some node => exact ⟨node, rfl⟩
  | none =>
    have bare : g.links n = {} := by simp [Graph.links, there]
    cases chain with
    | top parent root => simp [bare] at root
    | under chain parent => simp [bare] at parent

theorem climb_chain (chain : Chain g r above n) (height : Nat) (below : List (NodeRef × Int32)) :
    g.climb height (g.links n) below =
      if above.length ≤ height then some (some r, g.withKeys above ++ below) else none := by
  induction chain generalizing height below with
  | top parent root =>
    unfold climb
    rw [parent, root]
    rfl
  | @under above p n chain parent ih =>
    obtain ⟨node, there⟩ := chain.alive
    have links : node.links = g.links p := by simp [Graph.links, there]
    unfold climb
    rw [parent]
    cases height with
    | zero => simp
    | succ height =>
      dsimp only
      rw [there]
      dsimp only
      rw [links, ih]
      simp [withKeys]

theorem locate?_chain (chain : Chain g r above n) {root : Root} (live : g.root? r = some root) :
    g.locate? n =
      if above.length ≤ maxWalkDepth then
        some { root := r, key := (g.links n).key, ancestors := g.withKeys above }
      else none := by
  rw [locate?, climb_chain chain]
  by_cases near : above.length ≤ maxWalkDepth
  · simp [near, live]
  · simp [near]

theorem segment_spelled (spelled : g.Spelled n) :
    g.segment n (g.links n).key = .ok ((g.ownSteps n).flatMap PathStep.bytes) := by
  by_cases keyed : 0 ≤ (g.links n).key
  · simp [segment, ownSteps, keyed, PathStep.bytes, PathStep.segment, Segment.encode]
  · have negative : (g.links n).key < 0 := Int32.not_le.mp keyed
    rw [segment, if_neg keyed, ownSteps, if_neg keyed, ownAddress]
    rcases content : g.content? n with _ | b | _ | _ | _
    · rfl
    · rcases spelled b negative content with hook | ⟨address, hook⟩
      · simp [hook]
      · simp [hook, PathStep.bytes, PathStep.segment, Segment.encode]
    all_goals rfl

theorem mapM_segment (spelled : ∀ m ∈ above, g.Spelled m) :
    (g.withKeys above).mapM (fun a => g.segment a.1 a.2) =
      .ok (above.map fun m => (g.ownSteps m).flatMap PathStep.bytes) := by
  induction above with
  | nil => rfl
  | cons m above ih =>
    have here := segment_spelled (spelled m List.mem_cons_self)
    have later := ih fun other mem => spelled other (List.mem_cons_of_mem m mem)
    simp only [withKeys, List.map_cons, List.mapM_cons] at later ⊢
    rw [here, later]
    rfl

theorem address_spelled (spelled : ∀ m ∈ above ++ [n], g.Spelled m) (withOwn : Bool) :
    g.address n { root := r, key := (g.links n).key, ancestors := g.withKeys above } withOwn =
      .ok ((g.pathOf above n withOwn).flatMap PathStep.bytes) := by
  have higher := mapM_segment fun m mem => spelled m (List.mem_append_left _ mem)
  have own := segment_spelled (spelled n (List.mem_append_right _ List.mem_cons_self))
  have whole (later : Bytes) :
      (above.map fun m => (g.ownSteps m).flatMap PathStep.bytes).flatten ++ later =
        (above.flatMap g.ownSteps).flatMap PathStep.bytes ++ later := by
    rw [List.flatMap_assoc, List.flatMap_def]
  rw [address, higher]
  cases withOwn with
  | true =>
    simp only [bind, Except.bind, pure, Except.pure, own, whole, if_true, pathOf, List.flatMap_append]
  | false =>
    simp only [bind, Except.bind, pure, Except.pure, whole, pathOf, List.flatMap_append]
    rfl

theorem beginRecord_chain (chain : Chain g r above n) {root : Root} (live : g.root? r = some root)
    (spelled : ∀ m ∈ above ++ [n], g.Spelled m) (near : above.length ≤ maxWalkDepth)
    (withOwn : Bool) :
    g.beginRecord n withOwn =
      .ok (some (.record ((g.pathOf above n withOwn).flatMap PathStep.bytes))) := by
  rw [beginRecord, locate?_chain chain live, if_pos near]
  dsimp only
  rw [address_spelled spelled]
  rfl

/-- A node shares the address that stops above it with its parent. -/
theorem pathOf_parent {p : NodeRef} : g.pathOf (above ++ [p]) n false = g.pathOf above p true := by
  simp [pathOf]

theorem Chain.parent_eq {p : NodeRef} (chain : Chain g r above n)
    (parent : (g.links n).parent = some p) : ∃ higher, above = higher ++ [p] ∧ Chain g r higher p := by
  cases chain with
  | top none root =>
    rw [parent] at none
    cases none
  | @under higher q n chain other =>
    rw [parent] at other
    cases other
    exact ⟨higher, rfl, chain⟩

section Records
variable {α : Type} {w : Wording α} {c : Codec α} {root : Root}

theorem write_chain (spelled : ∀ m ∈ above ++ [n], g.Spelled m)
    (plain : g.recordPrefix n = .ok []) (returns : w.Returns c root.layout) :
    let location : Location :=
      { root := r, key := (g.links n).key, ancestors := g.withKeys above }
    g.ownHooks.write (location.steps n w.withOwn) n w.field? w.op (w.write c root.layout)
        (.begin .record) =
      .ok () (.record (w.payload c root.layout (g.pathOf above n w.withOwn))) := by
  intro location
  have field : (w.field?.map Draft.keySegment).getD [] =
      (w.field?.map PathStep.key).toList.flatMap PathStep.bytes := by
    cases w.field? with
    | none => rfl
    | some k => simp [PathStep.bytes, PathStep.segment, Segment.encode]
  have front : g.ownHooks.front (location.steps n w.withOwn) n w.field? (.begin .record) =
      .ok () (.record ((g.pathOf above n w.withOwn).flatMap PathStep.bytes ++
        (w.field?.map Draft.keySegment).getD [] ++ [])) :=
    front_ownHooks_iff.mpr ⟨_, _, address_spelled spelled w.withOwn, plain, rfl⟩
  have opened : (Draft.record ((g.pathOf above n w.withOwn).flatMap PathStep.bytes ++
      (w.field?.map Draft.keySegment).getD [] ++ [])).marker w.op =
      .record ((w.parts (g.pathOf above n w.withOwn)).flatMap Segment.encode) := by
    rw [field, Wording.encode_parts, Draft.marker, Draft.append_record, List.append_nil,
      List.append_assoc]
  simp only [Hooks.write, Run.bind_apply, front, Run.modify_apply]
  rw [opened, Wording.write_record returns]
  rfl

/-- A node at the end of a chain hands the record to the root, unless it is too far down. -/
theorem journal_chain (chain : Chain g r above n) (live : g.root? r = some root)
    (spelled : ∀ m ∈ above ++ [n], g.Spelled m) (plain : g.recordPrefix n = .ok [])
    (returns : w.Returns c root.layout) :
    journal n w.op w.withOwn w.field? (w.write c) g =
      if above.length ≤ maxWalkDepth then
        submit r root (.record (w.payload c root.layout (g.pathOf above n w.withOwn))) g
      else .ok .unattached g := by
  rw [journal, journalBy, journalWith, locateRoot?, locate?_chain chain live]
  by_cases near : above.length ≤ maxWalkDepth
  · rw [if_pos near, if_pos near]
    simp only [Option.bind_eq_bind, Option.bind_some, live]
    dsimp only [pure]
    rw [write_chain spelled plain returns]
    rfl
  · rw [if_neg near, if_neg near]
    rfl

theorem submit_committed {draft : Draft} (begun : draft.Begun) {sequence : Nat} {g' : Graph κ}
    (done : submit r root draft g = .ok (.committed sequence) g') :
    ∃ f : Frame, f.kindByte = draft.kindByte ∧ f.payload = draft.payload ∧
      g' = g.setRoot r (root.grow f) := by
  have answer := Root.commit_result begun.header_le root
  unfold submit at done
  generalize Root.commit draft root = result at answer done
  cases answer with
  | @failed e after same =>
    rcases settle_failed root.isStrict e (g.setRoot r after) with ⟨e', run⟩ | ⟨outcome, missed, run⟩
    · simp [run] at done
    · simp only [run] at done
      cases done
      cases missed
  | @noRoom needed remaining after same =>
    rcases settle_noRoom root.isStrict needed remaining (g.setRoot r after) with
      ⟨e', run⟩ | ⟨outcome, missed, run⟩
    · simp [run] at done
    · simp only [run] at done
      cases done
      cases missed
  | appended f kind payload frame =>
    simp only [settle_appended] at done
    cases done
    exact ⟨f, kind, payload, rfl⟩

end Records

end Chains

/-- The calls that journal something about a node. -/
inductive Helper (α : Type)
  | value (a : α)
  | field (field : UInt32) (a : α)
  | delete
  | addItem (a : α)
  | deleteItem (a : α)
  | record (op : Marker) (terminal : op.isTerminal = true) (withOwn : Bool) (value? : Option α)

namespace Helper

variable {α : Type}

def wording : Helper α → Wording α
  | value a => { op := .value, terminal := rfl, value? := some a }
  | field k a => { op := .value, terminal := rfl, field? := some k, value? := some a }
  | delete => { op := .delete, terminal := rfl }
  | addItem a => { op := .addItem, terminal := rfl, value? := some a }
  | deleteItem a => { op := .deleteItem, terminal := rfl, value? := some a }
  | record op terminal withOwn value? => { op, terminal, withOwn, value? }

def run (n : NodeRef) (c : Codec α) : Helper α → GraphM κ RecordOutcome
  | value a => journalValue n c a
  | field k a => journalField n k c a
  | delete => journalDelete n
  | addItem a => journalAddItem n c a
  | deleteItem a => journalDeleteItem n c a
  | record op terminal withOwn value? =>
    journal n op withOwn none ((record op terminal withOwn value?).wording.write c)

theorem run_eq (n : NodeRef) (c : Codec α) (helper : Helper α) :
    (helper.run n c : GraphM κ RecordOutcome) =
      journal n helper.wording.op helper.wording.withOwn helper.wording.field?
        (helper.wording.write c) := by
  cases helper <;> rfl

end Helper

/-- A record spells out the levels from the top down, the field and the marker, and then the value.
What is committed reads back so. The address that stops above a node is that of its parent. -/
theorem record_grammar {g : Graph κ} {r : RootRef} {above : List NodeRef} {n : NodeRef} {root : Root}
    (chain : Chain g r above n) (live : g.root? r = some root)
    (spelled : ∀ m ∈ above ++ [n], g.Spelled m) (plain : g.recordPrefix n = .ok []) {α : Type}
    {c : Codec α} (helper : Helper α) (returns : helper.wording.Returns c root.layout) :
    let path := g.pathOf above n helper.wording.withOwn
    let payload := helper.wording.payload c root.layout path
    (helper.run n c g =
        if above.length ≤ maxWalkDepth then submit r root (.record payload) g
        else .ok .unattached g) ∧
      (∀ sequence g', helper.run n c g = .ok (.committed sequence) g' →
        ∃ f : Frame, f.kindByte = EntryKind.record.byte ∧ f.payload = payload ∧
          g' = g.setRoot r (root.grow f) ∧ helper.wording.ReadsBack c path f.payload) ∧
      ∀ p, (g.links n).parent = some p → above.length ≤ maxWalkDepth →
        g.beginRecord n false =
            .ok (some (.record ((g.pathOf above n false).flatMap PathStep.bytes))) ∧
          g.beginRecord p true = g.beginRecord n false := by
  intro path payload
  have run := journal_chain chain live spelled plain returns
  rw [← Helper.run_eq] at run
  refine ⟨run, ?_, ?_⟩
  · intro sequence g' committed
    rw [run] at committed
    split at committed
    · obtain ⟨f, kind, told, grown⟩ := submit_committed (Draft.begun_record payload) committed
      have whole : f.payload = payload := told
      have short : payload.length < 2 ^ 64 := by
        have fits := f.fits
        rw [whole] at fits
        simp only [maxLengthField] at fits
        omega
      refine ⟨f, kind, whole, grown, ?_⟩
      rw [whole]
      exact Wording.readsBack_payload returns short
    · cases committed
  · intro p parent near
    obtain ⟨higher, rfl, chain'⟩ := chain.parent_eq parent
    have spelled' : ∀ m ∈ higher ++ [p], g.Spelled m := fun m mem =>
      spelled m (List.mem_append_left _ mem)
    have near' : higher.length ≤ maxWalkDepth := by
      rw [List.length_append] at near
      omega
    have here := beginRecord_chain chain live spelled near false
    refine ⟨here, ?_⟩
    rw [here, beginRecord_chain chain' live spelled' near' true, pathOf_parent]

/-- A byte under a key, in a branch under an address that looks like two markers. -/
def slope : Graph ValueType where
  nodes := #[
    some { content := .branch {}, links := { root := some ⟨0⟩ } },
    some {
      content := .branch { address := .locator [1, 2] }
      links := { parent := some ⟨0⟩ } },
    some { content := .value .u8 (1 : UInt8), links := { parent := some ⟨1⟩, key := 300 } }]
  roots := #[some (.unbounded [])]

def fieldSeven : Helper UInt8 := .field 7 9

theorem slope_grammar :
    Chain slope ⟨0⟩ [⟨0⟩, ⟨1⟩] ⟨2⟩ ∧ slope.root? ⟨0⟩ = some (.unbounded []) ∧
      (∀ m ∈ [(⟨0⟩ : NodeRef), ⟨1⟩] ++ [⟨2⟩], slope.Spelled m) ∧ slope.recordPrefix ⟨2⟩ = .ok [] ∧
      fieldSeven.wording.Returns Codec.uint8 .compact ∧
      ∃ f : Frame, f.payload = [0, 2, 1, 2, 1, 172, 2, 1, 7, 2, 9] ∧
        fieldSeven.wording.ReadsBack Codec.uint8 [.locator [1, 2], .key 300] f.payload := by
  have chain : Chain slope ⟨0⟩ [⟨0⟩, ⟨1⟩] ⟨2⟩ := ((Chain.top rfl rfl).under rfl).under rfl
  have live : slope.root? ⟨0⟩ = some (.unbounded []) := rfl
  have spelled : ∀ m ∈ [(⟨0⟩ : NodeRef), ⟨1⟩] ++ [⟨2⟩], slope.Spelled m := by
    intro m mem b negative content
    simp only [List.cons_append, List.nil_append, List.mem_cons, List.not_mem_nil, or_false] at mem
    rcases mem with rfl | rfl | rfl
    · cases content
      exact Or.inl rfl
    · cases content
      exact Or.inr ⟨_, rfl⟩
    · cases content
  have returns : fieldSeven.wording.Returns Codec.uint8 .compact := by
    rintro a ⟨⟩
    exact ⟨rfl, (Codec.lossless_uint8 .compact maxDepth).restores 9 rfl⟩
  obtain ⟨-, back, -⟩ := record_grammar chain live spelled rfl fieldSeven returns
  have answer : (Run.answered (fieldSeven.run ⟨2⟩ Codec.uint8 slope)).1.toOption =
      some (.committed 15) := by
    decide +kernel
  cases run : fieldSeven.run ⟨2⟩ Codec.uint8 slope with
  | error e g' =>
    rw [run] at answer
    cases answer
  | ok outcome g' =>
    rw [run] at answer
    cases answer
    obtain ⟨f, -, payload, -, reads⟩ := back 15 g' run
    refine ⟨chain, live, spelled, rfl, returns, f, ?_, reads⟩
    rw [payload]
    decide +kernel

end Graph

end GraphJournal
