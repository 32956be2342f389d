import GraphJournal.Proofs.Consumption
import GraphJournal.Proofs.VarintAnswers

/-!
# The windows of readers

A reader is given a window of a byte string, and readers made from it are given windows inside that
one. Whatever is done with any of them, each stays in its window, knows where in the whole string it
stands, and says where its window ends when bytes are missing there.

What the bytes of a window are read as is NOT treated here.
-/
namespace GraphJournal

set_option autoImplicit false

open MessagePack

namespace Reader
variable {whole : Bytes} {start first last : Nat} {r : Reader}

/-- The reader has the window of `whole` from `first` up to `last`. The string `whole` is itself a
part of something larger, in which it stands at `start`. -/
structure Sees (whole : Bytes) (start first last : Nat) (r : Reader) : Prop where
  base : r.base = start + first
  inside : first + r.position ≤ last
  within : last ≤ whole.length
  unread : r.unread = (whole.take last).drop (first + r.position)

theorem skip_skip (r : Reader) (m n : Nat) : (r.skip m).skip n = r.skip (m + n) := by
  simp only [skip, List.drop_drop, Nat.add_assoc]

theorem length_skip (r : Reader) (n : Nat) : (r.skip n).unread.length = r.unread.length - n :=
  List.length_drop

/-- The place where the window ends does not change as it is read. -/
theorem end_skip {n : Nat} (there : n ≤ r.unread.length) :
    (r.skip n).offset + (r.skip n).unread.length = r.offset + r.unread.length := by
  rw [length_skip]
  simp only [offset, skip]
  omega

theorem Sees.remaining (h : r.Sees whole start first last) :
    first + r.position + r.unread.length = last := by
  have inside := h.inside
  have within := h.within
  rw [h.unread, List.length_drop, List.length_take]
  omega

theorem Sees.offset (h : r.Sees whole start first last) :
    r.offset = start + (first + r.position) := by
  rw [Reader.offset, h.base, Nat.add_assoc]

theorem Sees.ends (h : r.Sees whole start first last) :
    r.offset + r.unread.length = start + last := by
  rw [h.offset, Nat.add_assoc, h.remaining]

theorem sees_ofBytes (whole : Bytes) (start : Nat) :
    (ofBytes whole start).Sees whole start 0 whole.length := by
  refine ⟨rfl, Nat.zero_le _, Nat.le_refl _, ?_⟩
  rw [List.take_length]
  rfl

theorem Sees.skip (h : r.Sees whole start first last) {n : Nat} (there : n ≤ r.unread.length) :
    (r.skip n).Sees whole start first last := by
  have whole_window := h.remaining
  refine ⟨h.base, ?_, h.within, ?_⟩
  · simp only [Reader.skip]
    omega
  · simp only [Reader.skip]
    rw [h.unread, List.drop_drop, Nat.add_assoc]

theorem Sees.fork (h : r.Sees whole start first last) :
    r.fork.Sees whole start (first + r.position) last :=
  ⟨h.offset, h.inside, h.within, h.unread⟩

theorem Sees.front (h : r.Sees whole start first last) {n : Nat} (there : n ≤ r.unread.length) :
    (ofBytes (r.unread.take n) r.offset).Sees whole start (first + r.position)
      (first + r.position + n) := by
  have whole_window := h.remaining
  have within := h.within
  refine ⟨h.offset, Nat.le_add_right _ _, by omega, ?_⟩
  have cut : (whole.take last).take (first + r.position + n) =
      whole.take (first + r.position + n) := by
    rw [List.take_take, Nat.min_eq_left (by omega)]
  simp only [ofBytes, Nat.add_zero]
  rw [h.unread, ← cut, List.take_drop]

end Reader

namespace Read
variable {α β : Type}

/-- What a read does with its reader, whether it succeeds or not: it goes forward over bytes that are
there, and an error for missing bytes tells where they end. -/
structure Orderly (act : Read α) : Prop where
  forward : ∀ r, ∃ n, n ≤ r.unread.length ∧ (Run.answered (act r)).2 = r.skip n
  missing : ∀ r place r', act r = .error (.truncated place) r' →
    place = r.offset + r.unread.length

/-- A failure leaves the reader as it was. -/
def Atomic (act : Read α) : Prop := ∀ r e r', act r = .error e r' → r' = r

theorem orderly_pure (a : α) : Orderly (pure a : Read α) := by
  refine ⟨fun r => ⟨0, Nat.zero_le _, rfl⟩, ?_⟩
  intro r place r' failed
  cases failed

theorem orderly_fail {e : Error} (other : ∀ place, e ≠ .truncated place) :
    Orderly (fail e : Read α) := by
  refine ⟨fun r => ⟨0, Nat.zero_le _, rfl⟩, ?_⟩
  intro r place r' failed
  cases failed
  exact absurd rfl (other place)

theorem Orderly.of_ok {act : Read α} (h : Orderly act) {r r' : Reader} {a : α}
    (read : act r = .ok a r') : ∃ n, n ≤ r.unread.length ∧ r' = r.skip n := by
  obtain ⟨n, there, moved⟩ := h.forward r
  rw [read] at moved
  exact ⟨n, there, moved⟩

theorem Orderly.bind {act : Read α} {next : α → Read β} (first : Orderly act)
    (second : ∀ a, Orderly (next a)) : Orderly (act >>= next) := by
  refine ⟨fun r => ?_, fun r place r'' failed => ?_⟩
  · obtain ⟨m, there, moved⟩ := first.forward r
    rw [Run.bind_apply]
    cases run : act r with
    | error e r' =>
      rw [run] at moved
      exact ⟨m, there, moved⟩
    | ok a r' =>
      rw [run] at moved
      obtain rfl : r' = r.skip m := moved
      obtain ⟨n, there', moved'⟩ := (second a).forward (r.skip m)
      rw [Reader.length_skip] at there'
      exact ⟨m + n, by omega, moved'.trans (Reader.skip_skip r m n)⟩
  · rcases Run.error_of_bind failed with here | ⟨a, r', run, later⟩
    · exact first.missing r place r'' here
    · obtain ⟨m, there, rfl⟩ := first.of_ok run
      rw [(second a).missing _ place r'' later, Reader.end_skip there]

theorem Orderly.map {act : Read α} (h : Orderly act) (f : α → β) : Orderly (f <$> act) :=
  h.bind fun a => orderly_pure (f a)

theorem Atomic.map {act : Read α} (h : Atomic act) (f : α → β) : Atomic (f <$> act) := by
  intro r e r' failed
  have apart : (act >>= fun a => pure (f a)) r = .error e r' := failed
  rcases Run.error_of_bind apart with here | ⟨a, s, -, later⟩
  · exact h r e r' here
  · cases later

/-- A read of so many bytes, whatever is made of them. -/
theorem orderly_of_enough {n : Nat} (answer : Reader → α) {act : Read α}
    (run : ∀ r, act r =
      if Bytes.hasAtLeast n r.unread then .ok (answer r) (r.skip n) else .error r.shortRead r) :
    Orderly act ∧ Atomic act := by
  have either (r : Reader) : (n ≤ r.unread.length ∧ act r = .ok (answer r) (r.skip n)) ∨
      act r = .error r.shortRead r := by
    rw [run]
    split
    · exact Or.inl ⟨Bytes.hasAtLeast_iff.mp ‹_›, rfl⟩
    · exact Or.inr rfl
  refine ⟨⟨fun r => ?_, fun r place r' failed => ?_⟩, fun r e r' failed => ?_⟩
  · rcases either r with ⟨there, run⟩ | run
    · exact ⟨n, there, by rw [run]; rfl⟩
    · exact ⟨0, Nat.zero_le _, by rw [run]; rfl⟩
  · rcases either r with ⟨-, run⟩ | run
    · rw [run] at failed
      cases failed
    · rw [run] at failed
      cases failed
      rfl
  · rcases either r with ⟨-, run⟩ | run
    · rw [run] at failed
      cases failed
    · rw [run] at failed
      cases failed
      rfl

theorem orderly_byte : Orderly byte ∧ Atomic byte := by
  refine orderly_of_enough (n := 1) (fun r => r.unread.headD 0) fun r => ?_
  rw [byte]
  cases r.unread <;> rfl

theorem orderly_bytes (n : Nat) : Orderly (bytes n) ∧ Atomic (bytes n) :=
  orderly_of_enough (fun r => r.unread.take n) fun _ => rfl

theorem orderly_advance (n : Nat) : Orderly (advance n) ∧ Atomic (advance n) :=
  orderly_of_enough (fun _ => ()) fun _ => rfl

theorem orderly_bigEndian (width : Nat) : Orderly (bigEndian width) ∧ Atomic (bigEndian width) :=
  ⟨(orderly_bytes width).1.map _, (orderly_bytes width).2.map _⟩

theorem orderly_varint : Orderly varint := by
  refine ⟨fun r => ?_, fun r place r' failed => ?_⟩
  · rw [varint]
    cases found : Varint.decode r.unread r.offset with
    | ok answer => exact ⟨answer.2, (Varint.used_le_of_decode found).2, rfl⟩
    | error e => exact ⟨0, Nat.zero_le _, rfl⟩
  · rw [varint] at failed
    cases found : Varint.decode r.unread r.offset with
    | ok answer =>
      rw [found] at failed
      cases failed
    | error e =>
      rw [found] at failed
      cases failed
      exact Varint.place_of_truncated found

theorem atomic_varint : Atomic varint := by
  intro r e r' failed
  rw [varint] at failed
  split at failed <;> cases failed
  rfl

theorem orderly_varint32 : Orderly varint32 := by
  refine orderly_varint.bind fun v => ?_
  split
  · exact orderly_pure _
  · exact orderly_fail fun _ => nofun

theorem orderly_lengthPrefixed : Orderly lengthPrefixed :=
  orderly_varint.bind fun v => (orderly_bytes v.toNat).1

theorem orderly_value (c : Codec α) : Orderly (value c) ∧ Atomic (value c) := by
  refine ⟨⟨fun r => ?_, fun r place r' failed => ?_⟩, fun r e r' failed => (value_failed failed).1⟩
  · rw [value]
    cases c.decodeFront r.unread with
    | ok found => exact ⟨r.unread.length - found.2.length, Nat.sub_le _ _, rfl⟩
    | error fault => exact ⟨0, Nat.zero_le _, rfl⟩
  · rw [value] at failed
    split at failed <;> cases failed

theorem orderly_formatted (layout : Layout) (c : Codec α) :
    Orderly (formatted layout c) ∧ Atomic (formatted layout c) := by
  rw [formatted_eq]
  exact orderly_value c

/-- A read that begins with a varint and goes on with a part that is atomic. -/
theorem failed_after_varint {next : UInt64 → Read α} (rest : ∀ v, Atomic (next v)) {r r' : Reader}
    {e : Error} (failed : (varint >>= next) r = .error e r') :
    (varint r = .error e r ∧ r' = r) ∨ ∃ v, varint r = .ok v r' := by
  rcases Run.error_of_bind failed with here | ⟨v, past, read, later⟩
  · obtain rfl := atomic_varint _ _ _ here
    exact Or.inl ⟨here, rfl⟩
  · obtain rfl := rest v _ _ _ later
    exact Or.inr ⟨v, read⟩

end Read

namespace Readers

/-- The ways to read from a reader. -/
inductive Call (κ : Type) [Values κ]
  | byte
  | bigEndian (width : Nat)
  | varint
  | varint32
  | bytes (n : Nat)
  | lengthPrefixed
  | advance (n : Nat)
  | value (layout : Layout) (kind : κ)

variable {κ : Type} [Values κ]

namespace Call

def Answer : Call κ → Type
  | byte => UInt8
  | bigEndian _ => Nat
  | varint => UInt64
  | varint32 => UInt32
  | bytes _ | lengthPrefixed => Bytes
  | advance _ => Unit
  | value _ kind => Values.Carrier kind

def perform : (c : Call κ) → Read c.Answer
  | byte => Read.byte
  | bigEndian width => Read.bigEndian width
  | varint => Read.varint
  | varint32 => Read.varint32
  | bytes n => Read.bytes n
  | lengthPrefixed => Read.lengthPrefixed
  | advance n => Read.advance n
  | value layout kind => Read.formatted layout (Values.codec kind)

/-- Whether the call reads a varint first, and then does something with it that can fail. -/
def goesOn : Call κ → Bool
  | varint32 | lengthPrefixed => true
  | _ => false

/-- The reader after the call, whatever its answer. -/
def after (c : Call κ) (r : Reader) : Reader := (Run.answered (c.perform r)).2

theorem orderly (c : Call κ) : Read.Orderly c.perform := by
  cases c with
  | byte => exact Read.orderly_byte.1
  | bigEndian width => exact (Read.orderly_bigEndian width).1
  | varint => exact Read.orderly_varint
  | varint32 => exact Read.orderly_varint32
  | bytes n => exact (Read.orderly_bytes n).1
  | lengthPrefixed => exact Read.orderly_lengthPrefixed
  | advance n => exact (Read.orderly_advance n).1
  | value layout kind => exact (Read.orderly_formatted layout _).1

theorem atomic {c : Call κ} (h : c.goesOn = false) : Read.Atomic c.perform := by
  cases c with
  | byte => exact Read.orderly_byte.2
  | bigEndian width => exact (Read.orderly_bigEndian width).2
  | varint => exact Read.atomic_varint
  | bytes n => exact (Read.orderly_bytes n).2
  | advance n => exact (Read.orderly_advance n).2
  | value layout kind => exact (Read.orderly_formatted layout _).2
  | varint32 => cases h
  | lengthPrefixed => cases h

theorem failed_going_on {c : Call κ} (h : c.goesOn = true) {r r' : Reader} {e : Error}
    (failed : c.perform r = .error e r') :
    (Read.varint r = .error e r ∧ r' = r) ∨ ∃ v, Read.varint r = .ok v r' := by
  cases c with
  | varint32 =>
    refine Read.failed_after_varint (fun v => ?_) failed
    intro s e s' late
    split at late <;> cases late
    rfl
  | lengthPrefixed =>
    exact Read.failed_after_varint (fun v => (Read.orderly_bytes v.toNat).2) failed
  | byte | bigEndian _ | varint | bytes _ | advance _ | value _ _ => cases h

end Call

/-- What can be done with a reader: to read from it, or to make another one of it. -/
inductive Use (κ : Type) [Values κ]
  | read (call : Call κ)
  | fork
  | copy
  | window (n : Nat)

/-- Does something with the reader at `i`. A reader that is made is put behind the others. -/
def use (readers : List Reader) (i : Nat) (what : Use κ) : List Reader :=
  match readers[i]? with
  | none => readers
  | some r =>
    match what with
    | .read call => readers.set i (call.after r)
    | .fork => readers ++ [r.fork]
    | .copy => readers ++ [r]
    | .window n =>
      match Read.window n r with
      | .ok part r' => readers.set i r' ++ [part]
      | .error _ r' => readers.set i r'

def run (uses : List (Nat × Use κ)) (readers : List Reader) : List Reader :=
  uses.foldl (fun readers u => use readers u.1 u.2) readers

/-- What is true of a reader of the window from `first` to `last`, whatever it is used for. -/
structure Exact (κ : Type) [Values κ] (whole : Bytes) (start first last : Nat) (r : Reader) :
    Prop where
  sees : r.Sees whole start first last
  offset : r.offset = start + (first + r.position)
  reading : ∀ c : Call κ, (c.after r).Sees whole start first last ∧ r.offset ≤ (c.after r).offset
  fork : r.fork.Sees whole start (first + r.position) last ∧ r.fork.offset = r.offset
  /-- The next bytes as a window of their own count as read. -/
  part : ∀ n, n ≤ r.remaining → ∃ part : Reader, Read.window n r = .ok part (r.skip n) ∧
    part.Sees whole start (first + r.position) (first + r.position + n) ∧
    part.offset = r.offset ∧ (r.skip n).offset = r.offset + n
  noPart : ∀ n, r.remaining < n → Read.window n r = .error (.truncated (start + last)) r
  missing : ∀ (c : Call κ) place r', c.perform r = .error (.truncated place) r' →
    place = start + last
  unmoved : ∀ c : Call κ, c.goesOn = false → ∀ e r', c.perform r = .error e r' → r' = r
  /-- A call that goes on after a varint fails at the varint or behind it. -/
  behindVarint : ∀ c : Call κ, c.goesOn = true → ∀ e r', c.perform r = .error e r' →
    (Read.varint r = .error e r ∧ r' = r) ∨ ∃ v, Read.varint r = .ok v r'

/-- What is true of readers that come from one, whatever happens next. -/
structure Grown (κ : Type) [Values κ] (whole : Bytes) (start : Nat) (readers : List Reader) :
    Prop where
  /-- The first reader still has the whole string for its window. -/
  first : ∃ r, readers[0]? = some r ∧ r.Sees whole start 0 whole.length
  exact : ∀ r ∈ readers, ∃ first last, Exact κ whole start first last r
  /-- The use of one reader does nothing to another. -/
  alone : ∀ (i : Nat) (what : Use κ) (j : Nat) (r : Reader), j ≠ i → readers[j]? = some r →
    (use readers i what)[j]? = some r
  /-- No reader ever leaves its window. -/
  stays : ∀ (i : Nat) (what : Use κ) (j : Nat) (r : Reader) (first last : Nat),
    readers[j]? = some r → r.Sees whole start first last →
      ∃ r', (use readers i what)[j]? = some r' ∧ r'.Sees whole start first last

theorem exact_of_sees {whole : Bytes} {start first last : Nat} {r : Reader}
    (h : r.Sees whole start first last) : Exact κ whole start first last r := by
  refine ⟨h, h.offset, ?_, ⟨h.fork, rfl⟩, ?_, ?_, ?_, ?_, ?_⟩
  · intro c
    obtain ⟨n, there, moved⟩ := c.orderly.forward r
    rw [Call.after, moved]
    refine ⟨h.skip there, ?_⟩
    simp only [Reader.offset, Reader.skip]
    omega
  · intro n there
    have enough : Bytes.hasAtLeast n r.unread = true := Bytes.hasAtLeast_iff.mpr there
    refine ⟨_, if_pos enough, h.front there, rfl, ?_⟩
    simp only [Reader.offset, Reader.skip, Nat.add_assoc]
  · intro n short
    have lacking : ¬ Bytes.hasAtLeast n r.unread = true := by
      rw [Bytes.hasAtLeast_iff]
      exact Nat.not_le_of_lt short
    have run : Read.window n r = .error r.shortRead r := if_neg lacking
    rw [run, Reader.shortRead, h.ends]
  · intro c place r' failed
    rw [c.orderly.missing r place r' failed, h.ends]
  · exact fun c single e r' failed => c.atomic single r e r' failed
  · exact fun c further e r' failed => c.failed_going_on further failed

section Use
variable {readers : List Reader} {i j : Nat} {r : Reader}

/-- A reader that is what becomes of `r`, or that is made of it. -/
inductive Descends (r : Reader) : Reader → Prop
  | moved {n : Nat} (there : n ≤ r.unread.length) : Descends r (r.skip n)
  | fork : Descends r r.fork
  | part {n : Nat} (there : n ≤ r.unread.length) :
      Descends r (.ofBytes (r.unread.take n) r.offset)

theorem Descends.sees {whole : Bytes} {start first last : Nat} {r' : Reader}
    (descends : Descends r r') (h : r.Sees whole start first last) :
    ∃ first' last', r'.Sees whole start first' last' := by
  cases descends with
  | moved there => exact ⟨_, _, h.skip there⟩
  | fork => exact ⟨_, _, h.fork⟩
  | part there => exact ⟨_, _, h.front there⟩

/-- The reader that is used goes forward in its window; what it is used for may add another one. -/
theorem use_result (here : readers[i]? = some r) (what : Use κ) :
    ∃ n made, n ≤ r.unread.length ∧ (∀ r' ∈ made, Descends r r') ∧
      use readers i what = readers.set i (r.skip n) ++ made := by
  have same : readers.set i (r.skip 0) = readers := by
    obtain ⟨there, rfl⟩ := List.getElem?_eq_some_iff.mp here
    exact List.set_getElem_self there
  rw [use, here]
  cases what with
  | read call =>
    obtain ⟨n, there, moved⟩ := call.orderly.forward r
    refine ⟨n, [], there, nofun, ?_⟩
    rw [List.append_nil, ← moved]
    rfl
  | fork =>
    refine ⟨0, [r.fork], Nat.zero_le _, ?_, by rw [same]⟩
    intro r' made
    cases List.mem_singleton.mp made
    exact .fork
  | copy =>
    refine ⟨0, [r], Nat.zero_le _, ?_, by rw [same]⟩
    intro r' made
    cases List.mem_singleton.mp made
    exact .moved (n := 0) (Nat.zero_le _)
  | window n =>
    dsimp only
    by_cases enough : Bytes.hasAtLeast n r.unread = true
    · have there := Bytes.hasAtLeast_iff.mp enough
      have run : Read.window n r = .ok (.ofBytes (r.unread.take n) r.offset) (r.skip n) :=
        if_pos enough
      rw [run]
      refine ⟨n, _, there, ?_, rfl⟩
      intro r' made
      cases List.mem_singleton.mp made
      exact .part there
    · have run : Read.window n r = .error r.shortRead r := if_neg enough
      rw [run]
      exact ⟨0, [], Nat.zero_le _, nofun, (List.append_nil _).symm⟩

theorem use_nothing (nobody : readers[i]? = none) (what : Use κ) :
    use readers i what = readers := by
  rw [use, nobody]

theorem use_other (what : Use κ) (other : j ≠ i) (there : readers[j]? = some r) :
    (use readers i what)[j]? = some r := by
  cases here : readers[i]? with
  | none => rw [use_nothing here, there]
  | some s =>
    obtain ⟨n, made, -, -, result⟩ := use_result here what
    have within : j < readers.length := (List.getElem?_eq_some_iff.mp there).1
    rw [result, List.getElem?_append_left (by rwa [List.length_set]),
      List.getElem?_set_ne (Ne.symm other), there]

theorem use_self (what : Use κ) (here : readers[i]? = some r) :
    ∃ n, n ≤ r.unread.length ∧ (use readers i what)[i]? = some (r.skip n) := by
  obtain ⟨n, made, there, -, result⟩ := use_result here what
  have within : i < readers.length := (List.getElem?_eq_some_iff.mp here).1
  refine ⟨n, there, ?_⟩
  rw [result, List.getElem?_append_left (by rwa [List.length_set]), List.getElem?_set_self within]

theorem use_stays {whole : Bytes} {start first last : Nat} (i : Nat) (what : Use κ)
    (there : readers[j]? = some r) (h : r.Sees whole start first last) :
    ∃ r', (use readers i what)[j]? = some r' ∧ r'.Sees whole start first last := by
  by_cases same : j = i
  · subst same
    obtain ⟨n, enough, result⟩ := use_self what there
    exact ⟨_, result, h.skip enough⟩
  · exact ⟨r, use_other what same there, h⟩

end Use

/-- All readers have windows of the string, and the first one has all of it. -/
structure Kept (whole : Bytes) (start : Nat) (readers : List Reader) : Prop where
  first : ∃ r, readers[0]? = some r ∧ r.Sees whole start 0 whole.length
  sees : ∀ r ∈ readers, ∃ first last, r.Sees whole start first last

theorem kept_use {whole : Bytes} {start : Nat} {readers : List Reader}
    (h : Kept whole start readers) (i : Nat) (what : Use κ) :
    Kept whole start (use readers i what) := by
  obtain ⟨r, there, sees⟩ := h.first
  refine ⟨use_stays i what there sees, ?_⟩
  intro r' member
  cases here : readers[i]? with
  | none =>
    rw [use_nothing here] at member
    exact h.sees r' member
  | some s =>
    obtain ⟨n, made, enough, descends, result⟩ := use_result here what
    obtain ⟨first, last, sees⟩ := h.sees s (List.mem_of_getElem? here)
    rw [result] at member
    rcases List.mem_append.mp member with old | new
    · rcases List.mem_or_eq_of_mem_set old with old | rfl
      · exact h.sees r' old
      · exact (Descends.moved enough).sees sees
    · exact (descends r' new).sees sees

theorem kept_run {whole : Bytes} {start : Nat} (uses : List (Nat × Use κ)) {readers : List Reader}
    (h : Kept whole start readers) : Kept whole start (run uses readers) := by
  induction uses generalizing readers with
  | nil => exact h
  | cons u uses ih => exact ih (kept_use h u.1 u.2)

/-- For every string, and all readers that any uses make of it. -/
theorem windows_exact (whole : Bytes) (start : Nat) (uses : List (Nat × Use κ)) :
    Grown κ whole start (run uses [.ofBytes whole start]) := by
  have begun : Kept whole start [.ofBytes whole start] := by
    refine ⟨⟨_, rfl, Reader.sees_ofBytes whole start⟩, ?_⟩
    intro r member
    cases List.mem_singleton.mp member
    exact ⟨_, _, Reader.sees_ofBytes whole start⟩
  have kept := kept_run uses begun
  refine ⟨kept.first, ?_, fun _ what _ _ => use_other what,
    fun i what _ _ _ _ => use_stays i what⟩
  intro r member
  obtain ⟨first, last, sees⟩ := kept.sees r member
  exact ⟨first, last, exact_of_sees sees⟩

end Readers

end GraphJournal
