import GraphJournal.Proofs.Applying
import GraphJournal.Proofs.Frame

/-!
# Offsets

A reader knows where its bytes stand in order to say so in errors. What is read of the bytes does not
depend on the place, and neither does what a record does to a graph, so entries can be replayed at
another place of a buffer. What the errors say does depend on it, and is NOT compared.
-/
namespace GraphJournal

set_option autoImplicit false

theorem Varint.decodeGroups_place (o o' : Nat) (index : Nat) (value : UInt64) (bytes : Bytes) :
    (decodeGroups o index value bytes).toOption = (decodeGroups o' index value bytes).toOption := by
  induction bytes generalizing index value with
  | nil =>
    rw [decodeGroups, decodeGroups]
    split <;> rfl
  | cons byte rest ih =>
    rw [decodeGroups, decodeGroups]
    split
    · rfl
    · dsimp only
      split
      · rfl
      · split
        · rfl
        · exact ih _ _

namespace Read

variable {α β : Type}

/-- Both sides read the same, or neither can be read. -/
inductive Agree : EStateM.Result Error Reader α → EStateM.Result Error Reader α → Prop
  | ok (a : α) {r r' : Reader} (same : r.unread = r'.unread) : Agree (.ok a r) (.ok a r')
  | error {e e' : Error} {r r' : Reader} : Agree (.error e r) (.error e' r')

/-- What is read depends on the bytes only. -/
def Blind (act : Read α) : Prop :=
  ∀ r r' : Reader, r.unread = r'.unread → Agree (act r) (act r')

theorem blind_pure (a : α) : Blind (pure a) := fun _ _ same => .ok a same

theorem blind_fail (e : Error) : Blind (fail e : Read α) := fun _ _ _ => .error

theorem Blind.bind {act : Read α} {next : α → Read β} (first : Blind act)
    (second : ∀ a, Blind (next a)) : Blind (act >>= next) := by
  intro r r' same
  have agree := first r r' same
  rw [Run.bind_apply, Run.bind_apply]
  generalize act r = x at agree
  generalize act r' = y at agree
  cases agree with
  | ok a same' => exact second a _ _ same'
  | error => exact .error

theorem unread_skip {r r' : Reader} (same : r.unread = r'.unread) (n : Nat) :
    (r.skip n).unread = (r'.skip n).unread := congrArg (List.drop n) same

theorem blind_byte : Blind byte := by
  intro r r' same
  cases front : r.unread with
  | nil =>
    rw [byte, byte, ← same, front]
    exact .error
  | cons b rest =>
    rw [byte, byte, ← same, front]
    exact .ok b (unread_skip same 1)

theorem blind_bytes (n : Nat) : Blind (bytes n) := by
  intro r r' same
  rw [bytes, bytes, ← same]
  split
  · exact .ok _ (unread_skip same n)
  · exact .error

theorem blind_varint : Blind varint := by
  intro r r' same
  have place : (Varint.decode r.unread r.offset).toOption =
      (Varint.decode r.unread r'.offset).toOption := Varint.decodeGroups_place _ _ 0 0 _
  rw [varint, varint, ← same]
  generalize Varint.decode r.unread r.offset = x at place
  generalize Varint.decode r.unread r'.offset = y at place
  cases x <;> cases y <;> cases place
  · exact .error
  · exact .ok _ (unread_skip same _)

theorem blind_varint32 : Blind varint32 := by
  refine blind_varint.bind fun value => ?_
  split
  · exact blind_pure _
  · exact blind_fail _

theorem blind_lengthPrefixed : Blind lengthPrefixed :=
  blind_varint.bind fun length => blind_bytes length.toNat

theorem blind_marker : Blind marker := by
  refine blind_byte.bind fun b => ?_
  split
  · exact blind_fail _
  · split
    · exact blind_fail _
    · exact blind_pure _

theorem blind_segment : Blind segment := by
  refine blind_marker.bind fun m => ?_
  cases m with
  | key => exact blind_varint32.bind fun k => blind_pure _
  | locator => exact blind_lengthPrefixed.bind fun address => blind_pure _
  | _ => exact blind_pure _

theorem blind_expect (m : Marker) : Blind (expect m) := by
  refine blind_byte.bind fun found => ?_
  split
  · exact blind_pure _
  · exact blind_fail _

theorem blind_value (c : MessagePack.Codec α) : Blind (value c) := by
  intro r r' same
  rw [value, value, ← same]
  cases c.decodeFront r.unread with
  | error fault => exact .error
  | ok found => exact .ok _ (unread_skip same _)

theorem blind_replacement (c : MessagePack.Codec α) : Blind (replacement c) :=
  (blind_expect .value).bind fun _ => blind_value c

end Read

variable {σ : Type}

/-- Two answers to a record that differ at most in what their errors say. -/
structure SameEffect (x y : Verdict × σ) : Prop where
  applied : x.1.isApplied = y.1.isApplied
  state : x.2 = y.2

theorem SameEffect.refl (x : Verdict × σ) : SameEffect x x := ⟨rfl, rfl⟩

/-- What is done with a record does not depend on where it stands. -/
def PlaceFree (apply : Reader → σ → Verdict × σ) : Prop :=
  ∀ (r r' : Reader) (s : σ), r.unread = r'.unread → SameEffect (apply r s) (apply r' s)

namespace Graph

variable {κ : Type} [Values κ] {g : Graph κ}

theorem reading_place {α : Type} {read : Read α} (blind : Read.Blind read) {r r' : Reader}
    (same : r.unread = r'.unread) (use : α → Verdict × Graph κ) :
    SameEffect (reading read r g use) (reading read r' g use) := by
  have agree := blind r r' same
  rw [reading, reading]
  generalize read r = x at agree
  generalize read r' = y at agree
  cases agree with
  | ok a same' => exact .refl _
  | error => exact ⟨rfl, rfl⟩

theorem applyList_place {n : NodeRef} {kind : κ} {items : List (Values.Carrier kind)} {r r' : Reader}
    (same : r.unread = r'.unread) :
    SameEffect (applyList n kind items r g) (applyList n kind items r' g) := by
  have agree := Read.blind_segment r r' same
  rw [applyList, applyList]
  generalize Read.segment r = x at agree
  generalize Read.segment r' = y at agree
  cases agree with
  | error => exact ⟨rfl, rfl⟩
  | ok part same' =>
    cases part with
    | key k => exact .refl _
    | locator address => exact .refl _
    | terminal op =>
      cases op with
      | addItem => exact reading_place (Read.blind_value _) same' _
      | deleteItem => exact reading_place (Read.blind_value _) same' _
      | value => exact reading_place (Read.blind_value _) same' _
      | _ => exact .refl _

theorem unread_passPrefix_congr (b : Branch) {r r' : Reader} (same : r.unread = r'.unread) :
    (b.passPrefix r).unread = (b.passPrefix r').unread := by
  rw [Branch.passPrefix, Branch.passPrefix, ← same]
  split
  · exact Read.unread_skip same _
  · exact same

theorem applyRecord_unread {n : NodeRef} {b : Branch} {r r' : Reader} {e : Error}
    (content : g.content? n = some (.branch b))
    (read : Read.segment (b.passPrefix r) = .error e r') :
    applyRecord n r g = (.rejected e, g) := by
  rw [applyRecord]
  split
  all_goals
    rename_i found
    rw [content] at found
    cases found
  split
  · rename_i again
    rw [read] at again
    cases again
    rfl
  · rename_i again
    rw [read] at again
    cases again

/-- The effect of a record on a graph depends on its bytes only. -/
theorem applyRecord_placeFree (n : NodeRef) : PlaceFree (applyRecord n : Reader → Graph κ → _) := by
  intro r r' g same
  induction length : r.unread.length using Nat.strongRecOn generalizing n r r' with
  | ind size ih =>
    subst length
    rcases content : g.content? n with _ | b | ⟨kind, value⟩ | ⟨kind, items⟩ | ⟨kind, cell, s⟩
    · rw [applyRecord, applyRecord, content]
      exact .refl _
    · have agree := Read.blind_segment _ _ (unread_passPrefix_congr b same)
      cases front : Read.segment (b.passPrefix r) with
      | error e left =>
        rw [front] at agree
        cases front' : Read.segment (b.passPrefix r') with
        | error e' left' =>
          rw [applyRecord_unread content front, applyRecord_unread content front']
          exact ⟨rfl, rfl⟩
        | ok part left' =>
          rw [front'] at agree
          cases agree
      | ok part left =>
        rw [front] at agree
        cases front' : Read.segment (b.passPrefix r') with
        | error e' left' =>
          rw [front'] at agree
          cases agree
        | ok part' left' =>
          rw [front'] at agree
          cases agree with
          | ok _ rest =>
            have shorter := Branch.unread_lt_of_segment front
            rw [applyRecord_branch content front, applyRecord_branch content front']
            cases part with
            | key k =>
              cases found : b.keyed.get? k with
              | none =>
                simp only [found]
                exact .refl _
              | some child =>
                have ahead : left'.peek? = left.peek? := congrArg List.head? rest.symm
                simp only [found]
                by_cases gone : left.peek? = some Marker.delete.byte
                · rw [if_pos gone, if_pos (ahead.trans gone)]
                  exact .refl _
                · rw [if_neg gone, if_neg (ahead ▸ gone)]
                  exact ih _ shorter child _ _ rest rfl
            | locator address =>
              cases found : b.named.get? address with
              | none =>
                simp only [found]
                exact .refl _
              | some child =>
                simp only [found]
                exact ih _ shorter child _ _ rest rfl
            | terminal op =>
              cases op with
              | value => exact reading_place (Read.blind_value _) rest _
              | _ => exact .refl _
    · rw [applyRecord, applyRecord, content]
      exact reading_place (Read.blind_replacement _) same _
    · rw [applyRecord, applyRecord, content]
      exact applyList_place same
    · rw [applyRecord, applyRecord, content]
      exact reading_place (Read.blind_replacement _) same _

end Graph

namespace Frame

variable {apply : Reader → σ → Verdict × σ}

theorem replayEntry_place (free : PlaceFree apply) (f : Frame) (o o' : Nat) (stats : ReplayStats)
    (s : σ) :
    replayEntry apply f.header o f.payload stats s =
      replayEntry apply f.header o' f.payload stats s := by
  have same := free (.ofBytes f.payload o) (.ofBytes f.payload o') s rfl
  unfold replayEntry
  split
  · rfl
  · split
    · dsimp only
      rw [ReplayStats.countRecord, ReplayStats.countRecord, same.applied, same.state]
    · rfl

/-- Frames are replayed alike wherever they stand. -/
theorem replayFrames_place (free : PlaceFree apply) (fs : List Frame) (o o' : Nat)
    (r : ReplayStats × σ) : replayFrames apply o fs r = replayFrames apply o' fs r := by
  induction fs generalizing o o' r with
  | nil => rfl
  | cons f fs ih =>
    obtain ⟨stats, s⟩ := r
    rw [replayFrames, replayFrames, replayEntry_place free f _ (o' + entryHeaderSize)]
    exact ih _ _ _

end Frame

end GraphJournal
