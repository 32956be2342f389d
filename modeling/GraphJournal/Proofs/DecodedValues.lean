import GraphJournal.Proofs.HeadForms
import GraphJournal.Proofs.ValueForms

/-!
# What decoders can answer

Whatever the bytes are, a value that is read from them has lengths that fit in 32 bits, and arrays that
nest too deep are refused. So exactly those values are read back from what is written of them that
fit and that do not nest too deep. What is wrong with other bytes is NOT told.
-/
namespace GraphJournal

set_option autoImplicit false

namespace OrderedMap

variable {α β : Type} [Ord α] [Std.TransOrd α]

omit [Std.TransOrd α] in
theorem length_place (k : α) (v : β) (entries : List (α × β)) :
    (place k v entries).length ≤ entries.length + 1 := by
  induction entries with
  | nil => exact Nat.le_refl _
  | cons e entries ih =>
    simp only [place]
    split
    · exact Nat.le_refl _
    · exact Nat.le_succ _
    · exact Nat.succ_le_succ ih

theorem foldl_insert (entries : List (α × β)) (m : OrderedMap α β) :
    (entries.foldl (fun m e => m.insert e.1 e.2) m).entries.length ≤
        m.entries.length + entries.length ∧
      ∀ e ∈ (entries.foldl (fun m e => m.insert e.1 e.2) m).entries, e ∈ m.entries ∨ e ∈ entries := by
  induction entries generalizing m with
  | nil => exact ⟨Nat.le_refl _, fun e mem => Or.inl mem⟩
  | cons x entries ih =>
    obtain ⟨length, each⟩ := ih (m.insert x.1 x.2)
    have one : (m.insert x.1 x.2).entries.length ≤ m.entries.length + 1 :=
      length_place x.1 x.2 m.entries
    rw [List.foldl_cons, List.length_cons]
    refine ⟨by omega, ?_⟩
    intro e mem
    rcases each e mem with there | there
    · rcases mem_place there with rfl | there
      · exact Or.inr List.mem_cons_self
      · exact Or.inl there
    · exact Or.inr (List.mem_cons_of_mem x there)

theorem length_ofList (entries : List (α × β)) : (ofList entries).entries.length ≤ entries.length := by
  have length := (foldl_insert entries empty).1
  rwa [empty, List.length_nil, Nat.zero_add] at length

theorem mem_ofList {entries : List (α × β)} {e : α × β} (mem : e ∈ (ofList entries).entries) :
    e ∈ entries := ((foldl_insert entries empty).2 e mem).resolve_left List.not_mem_nil

end OrderedMap

namespace MessagePack

variable {α β : Type}

/-- Whatever the decoder answers has the property. -/
def Yields (act : Decode α) (P : α → Prop) : Prop :=
  ∀ bytes a rest, act bytes = .ok (a, rest) → P a

section Yields
variable {P : α → Prop} {Q : β → Prop}

theorem Yields.mono {act : Decode α} {R : α → Prop} (h : Yields act P) (weaker : ∀ a, P a → R a) :
    Yields act R := fun bytes a rest run => weaker a (h bytes a rest run)

theorem yields_true (act : Decode α) : Yields act fun _ => True := fun _ _ _ _ => trivial

theorem yields_pure {a : α} (h : P a) : Yields (pure a) P := by
  intro bytes a' rest run
  cases run
  exact h

theorem yields_malformed : Yields (malformed : Decode α) P := by
  intro bytes a rest run
  cases run

theorem Yields.bind {act : Decode α} {next : α → Decode β} (h : Yields act P)
    (after : ∀ a, P a → Yields (next a) Q) : Yields (act >>= next) Q := by
  intro bytes b rest run
  obtain ⟨⟨a, others⟩, first, second⟩ := ok_of_bind_ok run
  exact after a (h bytes a others first) others b rest second

theorem yields_lift {x : Except SerializationFault α} (h : ∀ a, x = .ok a → P a) :
    Yields (StateT.lift x) P := by
  intro bytes a rest run
  obtain ⟨b, there, same⟩ := ok_of_bind_ok run
  cases same
  exact h _ there

theorem Yields.map {act : Decode α} {f : α → β} (h : Yields act P) (mapped : ∀ a, P a → Q (f a)) :
    Yields (f <$> act) Q :=
  h.bind fun a there => yields_pure (mapped a there)

theorem yields_orMalformed {a? : Option α} (h : ∀ a, a? = some a → P a) :
    Yields (Codec.orMalformed a?) P := by
  cases a? with
  | none => exact yields_malformed
  | some a => exact yields_pure (h a rfl)

theorem yields_takeBytes (n : Nat) : Yields (takeBytes n) fun bytes => bytes.length = n :=
  fun _ _ _ run => (takeBytes_view run).2

/-- The length that a head tells fits in 32 bits. -/
def Head.Fits : Head → Prop
  | .text n | .binary n | .array n | .map n => n < 2 ^ 32
  | _ => True

theorem Head.fits_of_spells {bytes : Bytes} {head : Head} (spelled : Spells bytes head) :
    head.Fits := by
  cases spelled with
  | short h => cases h <;> first | exact trivial | (simp only [Fits]; omega)
  | single h => cases h <;> exact trivial
  | wide h small =>
    -- A length is told in four bytes at most.
    cases h <;> first | exact trivial | exact Nat.lt_of_lt_of_le small (by decide)

theorem yields_readHead : Yields readHead Head.Fits := by
  intro bytes head rest run
  obtain ⟨used, -, spelled⟩ := spells_of_readHead run
  exact Head.fits_of_spells spelled

theorem yields_times {read : Decode α} (h : Yields read P) (n : Nat) :
    Yields (times read n) fun xs => xs.length = n ∧ ∀ x ∈ xs, P x := by
  induction n with
  | zero => exact yields_pure ⟨rfl, by simp⟩
  | succ n ih =>
    refine h.bind fun x there => ih.bind fun xs rest => yields_pure ?_
    refine ⟨congrArg (· + 1) rest.1, ?_⟩
    intro y mem
    rcases List.mem_cons.mp mem with rfl | mem
    · exact there
    · exact rest.2 y mem

end Yields

namespace Codec

theorem textBytes_of_textOfBytes? {bytes : Bytes} {s : String} (h : textOfBytes? bytes = some s) :
    textBytes s = bytes := by
  unfold textOfBytes? String.fromUTF8? at h
  split at h
  · cases h
    change bytes.toByteArray.data.toList = bytes
    rw [List.data_toByteArray]
  · cases h

theorem yields_text (depth : Nat) : Yields (text.decode depth) ShortText := by
  refine yields_readHead.bind fun head fits => ?_
  cases head with
  | text n | binary n =>
    refine (yields_takeBytes n).bind fun bytes length => yields_orMalformed fun s found => ?_
    rw [ShortText, textBytes_of_textOfBytes? found, length]
    exact fits
  | _ => exact yields_malformed

section Compounds
variable {c : Codec α} {P : α → Prop}

theorem mapM_ofByte {ofByte : UInt8 → Except SerializationFault α}
    (h : ∀ b a, ofByte b = .ok a → P a) {bytes : Bytes} {xs : List α}
    (run : bytes.mapM ofByte = .ok xs) : xs.length = bytes.length ∧ ∀ x ∈ xs, P x := by
  induction bytes generalizing xs with
  | nil =>
    cases run
    exact ⟨rfl, by simp⟩
  | cons b bytes ih =>
    rw [List.mapM_cons] at run
    obtain ⟨x, first, run⟩ := ok_of_bind_ok run
    obtain ⟨ys, others, same⟩ := ok_of_bind_ok run
    obtain ⟨length, each⟩ := ih others
    cases same
    exact ⟨congrArg (· + 1) length, List.forall_mem_cons.mpr ⟨h b x first, each⟩⟩

theorem yields_list (items : ∀ depth, Yields (c.decode depth) P)
    (ofByte : ∀ b a, c.ofByte b = .ok a → P a) (depth : Nat) :
    Yields ((list c).decode depth) fun xs => xs.length < 2 ^ 32 ∧ ∀ x ∈ xs, P x := by
  refine yields_readHead.bind fun head fits => ?_
  cases head with
  | array n =>
    cases depth with
    | zero => exact yields_malformed
    | succ depth => exact (yields_times (items depth) n).mono fun xs h => ⟨h.1 ▸ fits, h.2⟩
  | binary n =>
    refine (yields_takeBytes n).bind fun bytes length => yields_lift fun xs read => ?_
    obtain ⟨same, each⟩ := mapM_ofByte ofByte read
    refine ⟨?_, each⟩
    rw [same, length]
    exact fits
  | _ => exact yields_malformed

theorem yields_both {first : Decode α} {second : Decode β} {Q : β → Prop} (h : Yields first P)
    (h' : Yields second Q) : Yields (do return (← first, ← second)) fun p => P p.1 ∧ Q p.2 :=
  h.bind fun _ there => h'.bind fun _ there' => yields_pure ⟨there, there'⟩

theorem yields_pair {d : Codec β} {Q : β → Prop} (first : ∀ depth, Yields (c.decode depth) P)
    (second : ∀ depth, Yields (d.decode depth) Q) (depth : Nat) :
    Yields ((pair c d).decode depth) fun p => P p.1 ∧ Q p.2 := by
  refine yields_readHead.bind fun head _ => ?_
  split
  · exact yields_both (first _) (second _)
  · exact yields_malformed

theorem yields_textMap (values : ∀ depth, Yields (c.decode depth) P) (depth : Nat) :
    Yields ((textMap c).decode depth) fun m =>
      m.entries.length < 2 ^ 32 ∧ ∀ e ∈ m.entries, ShortText e.1 ∧ P e.2 := by
  refine yields_readHead.bind fun head fits => ?_
  split
  · rename_i n inner
    refine (yields_times (yields_both (yields_text inner) (values inner)) n).bind ?_
    rintro entries ⟨length, each⟩
    refine yields_pure ⟨?_, ?_⟩
    · exact Nat.lt_of_le_of_lt (OrderedMap.length_ofList entries) (length ▸ fits)
    · intro e mem
      exact each e (OrderedMap.mem_ofList mem)
  · exact yields_malformed

end Compounds

section Structures

/-- The text of a body that is read in part, if it is there. -/
def PartialBody.Fits (b : PartialBody) : Prop := ∀ s ∈ b.text?, ShortText s

theorem yields_readBodyField (depth : Nat) {b : PartialBody} (fits : PartialBody.Fits b) :
    Yields (readBodyField depth b) PartialBody.Fits := by
  refine (yields_true BodyField.read).bind fun field _ => ?_
  cases field with
  | text =>
    dsimp only
    split
    · exact yields_malformed
    · exact (yields_text depth).bind fun s short =>
        yields_pure fun s' mem => Option.mem_some.mp mem ▸ short
  | revision =>
    dsimp only
    split
    · exact yields_malformed
    · exact (yields_true _).bind fun n _ => yields_pure fits
  | unknown => exact (yields_true _).bind fun _ _ => yields_pure fits

theorem yields_readBodyFields (depth n : Nat) {b : PartialBody} (fits : PartialBody.Fits b) :
    Yields (readBodyFields depth n b) PartialBody.Fits := by
  induction n generalizing b with
  | zero => exact yields_pure fits
  | succ n ih => exact (yields_readBodyField depth fits).bind fun b' fits' => ih fits'

theorem yields_body (depth : Nat) : Yields (body.decode depth) fun b => ShortText b.text := by
  refine yields_readHead.bind fun head _ => ?_
  split
  · exact (yields_text _).bind fun s short => (yields_true _).bind fun _ _ => yields_pure short
  · rename_i n inner _
    have none : PartialBody.Fits {} := fun s mem => by cases mem
    refine (yields_readBodyFields inner n none).bind fun b fits => ?_
    split
    · exact yields_pure (fits _ rfl)
    · exact yields_malformed
  · exact yields_malformed

end Structures

end Codec

end MessagePack

namespace Nested

open MessagePack

theorem yields_nested (depth : Nat) : Yields (decode depth) Fits := by
  induction depth with
  | zero =>
    rw [decode]
    refine yields_readHead.bind fun head _ => ?_
    split
    · exact yields_malformed
    · exact yields_pure trivial
    · exact yields_malformed
  | succ depth ih =>
    rw [decode]
    refine yields_readHead.bind fun head fits => ?_
    split
    · rename_i n
      refine (yields_times ih n).map fun vs h => ?_
      rw [fits_iff, items_ofList, h.1]
      exact ⟨fits, h.2⟩
    · exact yields_pure trivial
    · exact yields_malformed

/-- Items are read one after the other, each only if those before it were. -/
theorem each_of_times {read : Decode Nested} {P : Nested → Prop} {vs : List Nested}
    (needs : ∀ v ∈ vs, ∀ rest w rest', read (v.encode ++ rest) = .ok (w, rest') → P v)
    (back : ∀ v ∈ vs, P v → Gives read v.encode v) {rest : Bytes} {ws : List Nested} {rest' : Bytes}
    (run : times read vs.length (vs.flatMap encode ++ rest) = .ok (ws, rest')) : ∀ v ∈ vs, P v := by
  induction vs generalizing rest ws rest' with
  | nil => simp
  | cons v vs ih =>
    rw [List.flatMap_cons, List.append_assoc] at run
    obtain ⟨⟨w, others⟩, first, run⟩ := ok_of_bind_ok run
    have here : P v := needs v List.mem_cons_self _ w others first
    have read_v := back v List.mem_cons_self here (vs.flatMap encode ++ rest)
    rw [first] at read_v
    cases read_v
    obtain ⟨⟨ws, rest''⟩, tail, run⟩ := ok_of_bind_ok run
    have each := ih (fun v mem => needs v (List.mem_cons_of_mem _ mem))
      (fun v mem => back v (List.mem_cons_of_mem _ mem)) tail
    exact List.forall_mem_cons.mpr ⟨here, each⟩

/-- What is written of an array is read only where it does not nest too deep. -/
theorem depth_le_of_decode (depth : Nat) {v : Nested} (fits : v.Fits) {rest : Bytes} {w : Nested}
    {rest' : Bytes} (run : decode depth (v.encode ++ rest) = .ok (w, rest')) : v.depth ≤ depth := by
  -- Where no array may be entered the head alone is refused; elsewhere the first item that nests too
  -- deep is, and the items before it are read back.
  induction depth generalizing v rest w rest' with
  | zero =>
    obtain ⟨short, -⟩ := v.fits_iff.mp fits
    rw [encode_eq, List.append_assoc, decode] at run
    obtain ⟨⟨head, others⟩, first, run⟩ := ok_of_bind_ok run
    rw [gives_arrayHead short] at first
    cases first
    cases run
  | succ depth ih =>
    obtain ⟨short, each⟩ := v.fits_iff.mp fits
    rw [encode_eq, List.append_assoc, decode] at run
    obtain ⟨⟨head, others⟩, first, run⟩ := ok_of_bind_ok run
    rw [gives_arrayHead short] at first
    cases first
    obtain ⟨⟨ws, others⟩, items, -⟩ := ok_of_bind_ok run
    rw [depth_le_iff]
    refine each_of_times ?_ ?_ items
    · intro x mem rest w rest' found
      exact ih (each x mem) found
    · intro x mem shallow
      exact gives_nested depth (each x mem) shallow

end Nested

namespace ValueType

open MessagePack Codec

theorem yields_codec (t : ValueType) (depth : Nat) : Yields (t.codec.decode depth) t.Fits := by
  cases t with
  | string => exact yields_text depth
  | vecU32 =>
    exact (yields_list (fun _ => yields_true _) (fun _ _ _ => trivial) depth).mono fun _ h => h.1
  | vecString => exact yields_list yields_text (fun _ _ none => by cases none) depth
  | pair => exact (yields_pair (fun _ => yields_true _) yields_text depth).mono fun _ h => h.2
  | map =>
    exact (yields_textMap (fun _ => yields_true _) depth).mono fun _ h =>
      ⟨h.1, fun e mem => (h.2 e mem).1⟩
  | body => exact yields_body depth
  | nested => exact Nested.yields_nested depth
  | _ => exact yields_true _

/-- A value is read back from what has been written of it if and only if it fits and does not nest too
deep. Nothing refuses to write the others. -/
theorem decodeAll_encode_iff {t : ValueType} {v : t.Carrier} {layout : Layout}
    (whole : (t.codec.encode layout v).fault? = none) :
    t.codec.decodeAll (t.codec.encode layout v).bytes = .ok v ↔
      t.Fits v ∧ t.nesting v ≤ maxDepth := by
  have writable : t ≠ .fail := by
    rintro rfl
    cases whole
  constructor
  · intro back
    have read := decodeFront_of_decodeAll back
    have fits : t.Fits v := yields_codec t maxDepth _ v [] read
    refine ⟨fits, ?_⟩
    cases t with
    | nested =>
      have again : Nested.decode maxDepth (v.encode ++ []) = .ok (v, []) := by
        rw [List.append_nil]
        exact read
      exact Nested.depth_le_of_decode maxDepth fits again
    | fail => exact absurd rfl writable
    | vecU32 | vecString | pair | map | body => exact (by decide : 1 ≤ maxDepth)
    | _ => exact Nat.zero_le _
  · intro room
    exact decodeAll_of_gives ((faithful_codec writable).back layout room)

end ValueType

end GraphJournal
