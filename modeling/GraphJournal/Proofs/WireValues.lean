import GraphJournal.MessagePack.Skip
import GraphJournal.Proofs.HeadForms

/-!
# Values of any kind

The forms in which MessagePack values can be written, the short ones and the long ones, and what
passing over such values does: it takes all their bytes and no others, unless they nest deeper than it
may go. An extension counts as a level of its own, though there is nothing inside it but bytes. There
are no other bytes that can be passed over.

Which types have values in these forms is NOT told here.
-/
namespace GraphJournal.MessagePack

set_option autoImplicit false

/-- The head of so many bytes that are text or stand for text. -/
def SpellsText (bytes : Bytes) (length : Nat) : Prop :=
  Spells bytes (.text length) ∨ Spells bytes (.binary length)

theorem spells_unary : Spells [0x91] (.array 1) := .short (k := 0x91) (.array (n := 1) (by decide))

/-- A value that has nothing behind its head. -/
def Head.IsWhole : Head → Prop
  | .nil | .bool _ | .unsigned _ | .signed _ | .single _ | .double _ => True
  | _ => False

/-- So many values one behind the other, each in some form. The entries of a map are its keys and
values in turn. -/
inductive Wire : Nat → Type
  | done : Wire 0
  | plain {n : Nat} (bytes : Bytes) (head : Head) (spelled : Spells bytes head)
    (whole : head.IsWhole) (rest : Wire n) : Wire (n + 1)
  | text {n : Nat} (bytes content : Bytes) (spelled : SpellsText bytes content.length)
    (rest : Wire n) : Wire (n + 1)
  | extension {n : Nat} (bytes : Bytes) (type : UInt8) (content : Bytes)
    (spelled : Spells bytes (.extension content.length)) (rest : Wire n) : Wire (n + 1)
  | array {m n : Nat} (bytes : Bytes) (spelled : Spells bytes (.array m)) (items : Wire m)
    (rest : Wire n) : Wire (n + 1)
  | map {m n : Nat} (bytes : Bytes) (spelled : Spells bytes (.map m)) (entries : Wire (2 * m))
    (rest : Wire n) : Wire (n + 1)

namespace Wire

def bytes {n : Nat} : Wire n → Bytes
  | done => []
  | plain head _ _ _ rest => head ++ rest.bytes
  | text head content _ rest => head ++ (content ++ rest.bytes)
  | extension head type content _ rest => head ++ (type :: content ++ rest.bytes)
  | array head _ items rest => head ++ (items.bytes ++ rest.bytes)
  | map head _ entries rest => head ++ (entries.bytes ++ rest.bytes)

/-- The number of arrays, maps and extensions that lie one inside the other. -/
def levels {n : Nat} : Wire n → Nat
  | done => 0
  | plain _ _ _ _ rest => rest.levels
  | text _ _ _ rest => rest.levels
  | extension _ _ _ _ rest => max 1 rest.levels
  | array _ _ items rest => max (items.levels + 1) rest.levels
  | map _ _ entries rest => max (entries.levels + 1) rest.levels

/-- The number of arrays and maps alone that lie one inside the other. -/
def containers {n : Nat} : Wire n → Nat
  | done => 0
  | plain _ _ _ _ rest => rest.containers
  | text _ _ _ rest => rest.containers
  | extension _ _ _ _ rest => rest.containers
  | array _ _ items rest => max (items.containers + 1) rest.containers
  | map _ _ entries rest => max (entries.containers + 1) rest.containers

/-- A value inside so many arrays of one item each, one inside the other. -/
def inArrays (w : Wire 1) : Nat → Wire 1
  | 0 => w
  | n + 1 => .array [0x91] spells_unary (w.inArrays n) .done

theorem levels_inArrays (w : Wire 1) (n : Nat) : (w.inArrays n).levels = w.levels + n := by
  induction n with
  | zero => rfl
  | succ n ih => rw [inArrays, levels, ih, levels, Nat.max_zero, Nat.add_assoc]

theorem containers_inArrays (w : Wire 1) (n : Nat) :
    (w.inArrays n).containers = w.containers + n := by
  induction n with
  | zero => rfl
  | succ n ih => rw [inArrays, containers, ih, containers, Nat.max_zero, Nat.add_assoc]

end Wire

/-- In front of whatever stands behind these bytes, the decoder takes just them and answers one of the
values that have the property, or it fails if there is none. -/
def Reads {α : Type} (act : Decode α) (bytes : Bytes) (P : α → Prop) : Prop :=
  ∀ rest a rest', act (bytes ++ rest) = .ok (a, rest') ↔ P a ∧ rest' = rest

section Reads
variable {α β : Type} {act : Decode α} {xs ys : Bytes} {P Q : α → Prop}

theorem reads_malformed : Reads (malformed : Decode α) xs fun _ => False :=
  fun _ _ _ => iff_of_false nofun fun none => none.1

theorem Gives.reads {a : α} (given : Gives act xs a) : Reads act xs (· = a) := by
  intro rest b rest'
  rw [given rest]
  constructor
  · intro same
    cases same
    exact ⟨rfl, rfl⟩
  · rintro ⟨rfl, rfl⟩
    rfl

theorem Reads.congr (h : Reads act xs P) (same : ∀ a, Q a ↔ P a) : Reads act xs Q :=
  fun rest a rest' => (h rest a rest').trans (and_congr_left fun _ => (same a).symm)

theorem Reads.bind {next : α → Decode β} {R : α → β → Prop} (h : Reads act xs P)
    (after : ∀ a, P a → Reads (next a) ys (R a)) :
    Reads (act >>= next) (xs ++ ys) fun b => ∃ a, P a ∧ R a b := by
  intro rest b rest'
  rw [List.append_assoc]
  constructor
  · intro run
    obtain ⟨⟨a, others⟩, first, second⟩ := ok_of_bind_ok run
    obtain ⟨there, rfl⟩ := (h _ a others).mp first
    obtain ⟨related, rfl⟩ := (after a there rest b rest').mp second
    exact ⟨⟨a, there, related⟩, rfl⟩
  · rintro ⟨⟨a, there, related⟩, rfl⟩
    have first := (h (ys ++ rest') a (ys ++ rest')).mpr ⟨there, rfl⟩
    change (act (xs ++ (ys ++ rest'))).bind _ = _
    rw [first]
    exact (after a there rest' b rest').mpr ⟨related, rfl⟩

/-- Behind something that is always read alike. -/
theorem Gives.bind_reads {next : α → Decode β} {a : α} {R : β → Prop} (given : Gives act xs a)
    (after : Reads (next a) ys R) : Reads (act >>= next) (xs ++ ys) R := by
  refine (given.reads.bind (R := fun _ => R) fun b same => same ▸ after).congr fun b => ?_
  exact ⟨fun there => ⟨a, rfl, there⟩, fun ⟨_, _, there⟩ => there⟩

theorem Reads.andThen {first next : Decode Unit} {p q : Prop} (h : Reads first xs fun _ => p)
    (h' : Reads next ys fun _ => q) :
    Reads (first >>= fun _ => next) (xs ++ ys) fun _ => p ∧ q :=
  (h.bind fun _ _ => h').congr fun _ => ⟨fun both => ⟨(), both⟩, fun ⟨_, both⟩ => both⟩

theorem reads_malformed_of (none : ∀ a, ¬ P a) : Reads (malformed : Decode α) xs P :=
  reads_malformed.congr fun a => iff_of_false (none a) id

end Reads

section Skip

/-- Passes over so many values in turn. -/
def skips (depth n : Nat) : Decode Unit := Functor.discard (times (skip depth) n)

theorem discard_eq {α : Type} (act : Decode α) : Functor.discard act = (act >>= fun _ => pure ()) :=
  rfl

theorem discard_bind {α β : Type} (act : Decode α) (next : α → Decode β) :
    Functor.discard (act >>= next) = (act >>= fun a => Functor.discard (next a)) := by
  simp only [discard_eq, bind_assoc]

theorem skips_succ (depth n : Nat) :
    skips depth (n + 1) = (skip depth >>= fun _ => skips depth n) := by
  simp only [skips, times, discard_bind]
  rfl

/-- The entries of a map are passed over as twice as many values. -/
theorem discard_times_pairs (depth n : Nat) :
    Functor.discard (times (do skip depth; skip depth) n) = skips depth (2 * n) := by
  induction n with
  | zero => rfl
  | succ n ih =>
    rw [Nat.mul_succ, skips_succ, skips_succ, ← ih, times, discard_bind]
    simp only [discard_bind, bind_assoc]
    rfl

variable {head : Bytes} {m : Nat}

theorem reads_of_fits {act : Decode Unit} {xs : Bytes} {p : Prop} (given : Gives act xs ()) (fits : p) :
    Reads act xs fun _ => p := given.reads.congr fun _ => iff_of_true fits rfl

theorem skip_plain {h : Head} (spelled : Spells head h) (whole : h.IsWhole) (depth : Nat) :
    Gives (skip depth) head () := by
  rw [skip.eq_def, ← List.append_nil head]
  refine (gives_spells spelled).bind ?_
  cases h <;> first | exact gives_pure () | cases whole

theorem skip_text {content : Bytes} (spelled : SpellsText head content.length) (depth : Nat) :
    Gives (skip depth) (head ++ content) () := by
  have taken : Gives (Functor.discard (takeBytes content.length)) content () :=
    (gives_takeBytes content).map fun _ => ()
  rw [skip.eq_def]
  rcases spelled with spelled | spelled
  · exact (gives_spells spelled).bind taken
  · exact (gives_spells spelled).bind taken

theorem reads_extension {content : Bytes} (type : UInt8)
    (spelled : Spells head (.extension content.length)) (depth : Nat) :
    Reads (skip depth) (head ++ type :: content) fun _ => 1 ≤ depth := by
  have taken : Gives (Functor.discard (takeBytes (content.length + 1))) (type :: content) () :=
    (gives_takeBytes (type :: content)).map fun _ => ()
  rw [skip.eq_def]
  refine (gives_spells spelled).bind_reads ?_
  cases depth with
  | zero => exact reads_malformed_of fun _ => by decide
  | succ depth => exact reads_of_fits taken (Nat.succ_le_succ (Nat.zero_le depth))

theorem reads_array {items : Bytes} {levels : Nat} (spelled : Spells head (.array m))
    (each : ∀ depth, Reads (skips depth m) items fun _ => levels ≤ depth) (depth : Nat) :
    Reads (skip depth) (head ++ items) fun _ => levels + 1 ≤ depth := by
  rw [skip.eq_def]
  refine (gives_spells spelled).bind_reads ?_
  cases depth with
  | zero => exact reads_malformed_of fun _ => Nat.not_succ_le_zero levels
  | succ depth => exact (each depth).congr fun _ => Nat.succ_le_succ_iff

theorem reads_map {entries : Bytes} {levels : Nat} (spelled : Spells head (.map m))
    (each : ∀ depth, Reads (skips depth (2 * m)) entries fun _ => levels ≤ depth) (depth : Nat) :
    Reads (skip depth) (head ++ entries) fun _ => levels + 1 ≤ depth := by
  rw [skip.eq_def]
  refine (gives_spells spelled).bind_reads ?_
  cases depth with
  | zero => exact reads_malformed_of fun _ => Nat.not_succ_le_zero levels
  | succ depth =>
    dsimp only
    rw [discard_times_pairs]
    exact (each depth).congr fun _ => Nat.succ_le_succ_iff

theorem reads_skips {n : Nat} (w : Wire n) (depth : Nat) :
    Reads (skips depth n) w.bytes fun _ => w.levels ≤ depth := by
  induction w generalizing depth with
  | done => exact reads_of_fits (gives_pure ()) (Nat.zero_le depth)
  | plain head h spelled whole rest ih =>
    rw [skips_succ]
    exact (skip_plain spelled whole depth).bind_reads (ih depth)
  | text head content spelled rest ih =>
    rw [skips_succ, Wire.bytes, ← List.append_assoc]
    exact (skip_text spelled depth).bind_reads (ih depth)
  | extension head type content spelled rest ih =>
    rw [skips_succ, Wire.bytes, ← List.append_assoc]
    exact ((reads_extension type spelled depth).andThen (ih depth)).congr fun _ => Nat.max_le
  | array head spelled items rest each ih =>
    rw [skips_succ, Wire.bytes, ← List.append_assoc]
    exact ((reads_array spelled each depth).andThen (ih depth)).congr fun _ => Nat.max_le
  | map head spelled entries rest each ih =>
    rw [skips_succ, Wire.bytes, ← List.append_assoc]
    exact ((reads_map spelled each depth).andThen (ih depth)).congr fun _ => Nat.max_le

/-- A single value is passed over whole if and only if it does not nest too deep. -/
theorem reads_skip (w : Wire 1) (depth : Nat) :
    Reads (skip depth) w.bytes fun _ => w.levels ≤ depth := by
  have one : skips depth 1 = skip depth := by
    rw [skips_succ]
    exact bind_pure (skip depth)
  rw [← one]
  exact reads_skips w depth

end Skip

section Found

/-- A value in front of others. -/
def Wire.before {n : Nat} (rest : Wire n) : Wire 1 → Wire (n + 1)
  | .plain bytes head spelled whole _ => .plain bytes head spelled whole rest
  | .text bytes content spelled _ => .text bytes content spelled rest
  | .extension bytes type content spelled _ => .extension bytes type content spelled rest
  | .array bytes spelled items _ => .array bytes spelled items rest
  | .map bytes spelled entries _ => .map bytes spelled entries rest

theorem Wire.bytes_before {n : Nat} (rest : Wire n) (w : Wire 1) :
    (rest.before w).bytes = w.bytes ++ rest.bytes := by
  cases w <;> rename_i none <;> cases none <;> simp [before, Wire.bytes]

theorem content_of_discard {n : Nat} {bytes rest : Bytes}
    (run : Functor.discard (takeBytes n) bytes = .ok ((), rest)) :
    ∃ content : Bytes, bytes = content ++ rest ∧ content.length = n := by
  obtain ⟨⟨content, others⟩, first, last⟩ := ok_of_bind_ok run
  cases last
  exact ⟨content, takeBytes_view first⟩

theorem wire_of_skips {depth : Nat}
    (one : ∀ bytes rest, skip depth bytes = .ok ((), rest) → ∃ w : Wire 1, bytes = w.bytes ++ rest)
    {n : Nat} {bytes rest : Bytes} (run : skips depth n bytes = .ok ((), rest)) :
    ∃ w : Wire n, bytes = w.bytes ++ rest := by
  induction n generalizing bytes with
  | zero =>
    cases run
    exact ⟨.done, rfl⟩
  | succ n ih =>
    rw [skips_succ] at run
    obtain ⟨⟨⟨⟩, others⟩, first, last⟩ := ok_of_bind_ok run
    obtain ⟨ws, rfl⟩ := ih last
    obtain ⟨w, rfl⟩ := one bytes _ first
    exact ⟨ws.before w, by rw [Wire.bytes_before, List.append_assoc]⟩

theorem wire_of_skip (depth : Nat) {bytes rest : Bytes} (run : skip depth bytes = .ok ((), rest)) :
    ∃ w : Wire 1, bytes = w.bytes ++ rest := by
  -- By the depth: what is inside an array or a map is passed over with one less.
  induction depth using Nat.strongRecOn generalizing bytes rest with
  | ind depth ih =>
    rw [skip.eq_def] at run
    obtain ⟨⟨head, others⟩, first, last⟩ := ok_of_bind_ok run
    obtain ⟨used, rfl, spelled⟩ := spells_of_readHead first
    cases head with
    | text n =>
      obtain ⟨content, rfl, rfl⟩ := content_of_discard last
      exact ⟨.text used content (.inl spelled) .done, by simp [Wire.bytes]⟩
    | binary n =>
      obtain ⟨content, rfl, rfl⟩ := content_of_discard last
      exact ⟨.text used content (.inr spelled) .done, by simp [Wire.bytes]⟩
    | extension n =>
      cases depth with
      | zero => cases last
      | succ depth =>
        obtain ⟨content, rfl, length⟩ := content_of_discard last
        obtain ⟨type, content, rfl⟩ := List.exists_cons_of_length_eq_add_one length
        obtain rfl := Nat.succ_inj.mp length
        exact ⟨.extension used type content spelled .done, by simp [Wire.bytes]⟩
    | array n =>
      cases depth with
      | zero => cases last
      | succ depth =>
        obtain ⟨items, rfl⟩ := wire_of_skips (fun _ _ => ih depth depth.lt_succ_self) last
        exact ⟨.array used spelled items .done, by simp [Wire.bytes]⟩
    | map n =>
      cases depth with
      | zero => cases last
      | succ depth =>
        dsimp only at last
        rw [discard_times_pairs] at last
        obtain ⟨entries, rfl⟩ := wire_of_skips (fun _ _ => ih depth depth.lt_succ_self) last
        exact ⟨.map used spelled entries .done, by simp [Wire.bytes]⟩
    | _ =>
      cases last
      exact ⟨.plain used _ spelled trivial .done, by simp [Wire.bytes]⟩

/-- Values in these forms are passed over where there is room for their levels, and nothing else is. -/
theorem skip_eq_ok_iff {depth : Nat} {bytes rest : Bytes} :
    skip depth bytes = .ok ((), rest) ↔ ∃ w : Wire 1, bytes = w.bytes ++ rest ∧ w.levels ≤ depth := by
  constructor
  · intro run
    obtain ⟨w, rfl⟩ := wire_of_skip depth run
    exact ⟨w, rfl, ((reads_skip w depth rest () rest).mp run).1⟩
  · rintro ⟨w, rfl, shallow⟩
    exact (reads_skip w depth rest () rest).mpr ⟨shallow, rfl⟩

end Found

end GraphJournal.MessagePack
