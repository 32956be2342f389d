import GraphJournal.Proofs.Run
import GraphJournal.Store

/-!
# Lawful stores

What a store keeps, and what each call on it may change in that. A store may decline to keep bytes,
fail, or find nothing where it keeps something; then nothing changes. A script that declines to
forget, and says that it has done so, is NOT lawful; whoever erases has to exclude it.
-/
namespace GraphJournal

set_option autoImplicit false

section Results
variable {σ : Type} (kept : σ → NodeId → Option Bytes) (s : σ) (id : NodeId)

/-- The ways in which a call that should keep bytes can end. -/
inductive Persisted (bytes : Bytes) : EStateM.Result Error σ Bool → Prop
  | accepted {s' : σ} (now : kept s' = fun other => if other = id then some bytes else kept s other) :
      Persisted bytes (.ok true s')
  | declined {s' : σ} (same : kept s' = kept s) : Persisted bytes (.ok false s')
  | failed {e : Error} {s' : σ} (same : kept s' = kept s) : Persisted bytes (.error e s')

inductive Loaded : EStateM.Result Error σ (Option Bytes) → Prop
  | found {bytes : Bytes} {s' : σ} (there : kept s id = some bytes) (same : kept s' = kept s) :
      Loaded (.ok (some bytes) s')
  | missing {s' : σ} (same : kept s' = kept s) : Loaded (.ok none s')
  | failed {e : Error} {s' : σ} (same : kept s' = kept s) : Loaded (.error e s')

inductive Forgot : EStateM.Result Error σ Bool → Prop
  | gone {there : Bool} {s' : σ}
      (now : kept s' = fun other => if other = id then none else kept s other) :
      Forgot (.ok there s')
  | failed {e : Error} {s' : σ} (same : kept s' = kept s) : Forgot (.error e s')

end Results

/-- What a store keeps, and that its calls do to it what they answer. -/
class LawfulStore (σ : Type) [ByteStore σ] where
  kept : σ → NodeId → Option Bytes
  /-- Whether the store has forgotten what it says that it has forgotten. -/
  honest : σ → Prop
  persisted (s : σ) (id : NodeId) (bytes : Bytes) :
    Persisted kept s id bytes (ByteStore.persist id bytes s)
  loaded (s : σ) (id : NodeId) : Loaded kept s id (ByteStore.load id s)
  forgot (s : σ) (id : NodeId) : honest s → Forgot kept s id (ByteStore.forget id s)
  honest_persist (s : σ) (id : NodeId) (bytes : Bytes) :
    honest s → honest (Run.answered (ByteStore.persist id bytes s)).2
  honest_load (s : σ) (id : NodeId) : honest s → honest (Run.answered (ByteStore.load id s)).2
  honest_forget (s : σ) (id : NodeId) : honest s → honest (Run.answered (ByteStore.forget id s)).2

namespace LawfulStore

variable {σ : Type} [ByteStore σ] [LawfulStore σ]

/-- The store keeps what it kept before. -/
structure Unchanged (s s' : σ) : Prop where
  kept : kept s' = kept s
  honest : honest s → honest s'

/-- The store keeps something else, or nothing, for one node. -/
structure Replaced (id : NodeId) (held : Option Bytes) (s s' : σ) : Prop where
  kept : kept s' = fun other => if other = id then held else kept s other
  honest : honest s → honest s'

theorem Unchanged.refl (s : σ) : Unchanged s s := ⟨rfl, fun h => h⟩

theorem Replaced.here {id : NodeId} {held : Option Bytes} {s s' : σ} (h : Replaced id held s s') :
    LawfulStore.kept s' id = held := by
  rw [h.kept]
  exact if_pos rfl

theorem Replaced.elsewhere {id other : NodeId} {held : Option Bytes} {s s' : σ}
    (h : Replaced id held s s') (apart : other ≠ id) :
    LawfulStore.kept s' other = LawfulStore.kept s other := by
  rw [h.kept]
  exact if_neg apart

theorem persist_cases (s : σ) (id : NodeId) (bytes : Bytes) :
    (∃ s', ByteStore.persist id bytes s = .ok true s' ∧ Replaced id (some bytes) s s') ∨
      (∃ s', ByteStore.persist id bytes s = .ok false s' ∧ Unchanged s s') ∨
      ∃ e s', ByteStore.persist id bytes s = .error e s' ∧ Unchanged s s' := by
  have answer := persisted s id bytes
  have stays := honest_persist s id bytes
  cases result : (ByteStore.persist id bytes s : EStateM.Result Error σ Bool) with
  | ok accepted s' =>
    rw [result] at answer stays
    cases answer with
    | accepted now => exact Or.inl ⟨s', rfl, now, stays⟩
    | declined same => exact Or.inr (Or.inl ⟨s', rfl, same, stays⟩)
  | error e s' =>
    rw [result] at answer stays
    cases answer with
    | failed same => exact Or.inr (Or.inr ⟨e, s', rfl, same, stays⟩)

theorem load_cases (s : σ) (id : NodeId) :
    (∃ bytes s', ByteStore.load id s = .ok (some bytes) s' ∧ LawfulStore.kept s id = some bytes ∧
        Unchanged s s') ∨
      (∃ s', ByteStore.load id s = .ok none s' ∧ Unchanged s s') ∨
      ∃ e s', ByteStore.load id s = .error e s' ∧ Unchanged s s' := by
  have answer := loaded s id
  have stays := honest_load s id
  cases result : (ByteStore.load id s : EStateM.Result Error σ (Option Bytes)) with
  | ok found s' =>
    rw [result] at answer stays
    cases answer with
    | found there same => exact Or.inl ⟨_, s', rfl, there, same, stays⟩
    | missing same => exact Or.inr (Or.inl ⟨s', rfl, same, stays⟩)
  | error e s' =>
    rw [result] at answer stays
    cases answer with
    | failed same => exact Or.inr (Or.inr ⟨e, s', rfl, same, stays⟩)

theorem forget_cases (s : σ) (id : NodeId) (h : honest s) :
    (∃ there s', ByteStore.forget id s = .ok there s' ∧ Replaced id none s s') ∨
      ∃ e s', ByteStore.forget id s = .error e s' ∧ Unchanged s s' := by
  have answer := forgot s id h
  have stays := honest_forget s id
  cases result : (ByteStore.forget id s : EStateM.Result Error σ Bool) with
  | ok there s' =>
    rw [result] at answer stays
    cases answer with
    | gone now => exact Or.inl ⟨there, s', rfl, now, stays⟩
  | error e s' =>
    rw [result] at answer stays
    cases answer with
    | failed same => exact Or.inr ⟨e, s', rfl, same, stays⟩

end LawfulStore

namespace MemoryStore

def kept (s : MemoryStore) (id : NodeId) : Option Bytes := s.entries.get? id

theorem persisted (s : MemoryStore) (id : NodeId) (bytes : Bytes) :
    Persisted kept s id bytes (ByteStore.persist id bytes s) := by
  refine .accepted ?_
  funext other
  exact OrderedMap.get?_insert s.entries id other bytes

theorem loaded (s : MemoryStore) (id : NodeId) : Loaded kept s id (ByteStore.load id s) := by
  change Loaded kept s id (.ok (s.kept id) s)
  cases there : s.kept id with
  | some bytes => exact .found there rfl
  | none => exact .missing rfl

theorem forgot (s : MemoryStore) (id : NodeId) : Forgot kept s id (ByteStore.forget id s) := by
  refine .gone ?_
  funext other
  exact OrderedMap.get?_erase s.entries id other

instance : LawfulStore MemoryStore where
  kept := kept
  honest _ := True
  persisted := persisted
  loaded := loaded
  forgot s id _ := s.forgot id
  honest_persist _ _ _ _ := trivial
  honest_load _ _ _ := trivial
  honest_forget _ _ _ := trivial

end MemoryStore

namespace ScriptedStore

def kept (s : ScriptedStore) : NodeId → Option Bytes := s.memory.kept

theorem persisted (s : ScriptedStore) (id : NodeId) (bytes : Bytes) :
    Persisted kept s id bytes (ByteStore.persist id bytes s) := by
  have answer := s.memory.persisted id bytes
  change Persisted kept s id bytes (follow _ _ _ _)
  unfold follow
  split
  · exact .declined rfl
  · exact .failed rfl
  all_goals
    cases answer with
    | accepted now => exact .accepted now

theorem loaded (s : ScriptedStore) (id : NodeId) : Loaded kept s id (ByteStore.load id s) := by
  have answer := s.memory.loaded id
  change Loaded kept s id (follow _ _ _ _)
  unfold follow
  split
  · exact .missing rfl
  · exact .failed rfl
  all_goals
    dsimp only
    cases result : (ByteStore.load id s.memory : EStateM.Result Error MemoryStore (Option Bytes)) with
    | ok found memory =>
      rw [result] at answer
      cases answer with
      | found there same => exact .found there same
      | missing same => exact .missing same
    | error e memory =>
      rw [result] at answer
      cases answer with
      | failed same => exact .failed same

theorem forgot (s : ScriptedStore) (id : NodeId) (honest : Answer.decline ∉ s.forgets) :
    Forgot kept s id (ByteStore.forget id s) := by
  have answer := s.memory.forgot id
  change Forgot kept s id (follow _ _ _ _)
  unfold follow
  split
  · rename_i head
    exact absurd (List.mem_of_head? head) honest
  · exact .failed rfl
  all_goals
    cases answer with
    | gone now => exact .gone now

theorem forgets_follow {α : Type} (answer : Option Answer) (declined : α)
    (call : EStateM Error MemoryStore α) (s : ScriptedStore) :
    (Run.answered (follow answer declined call s)).2.forgets = s.forgets := by
  unfold follow
  repeat' split
  all_goals rfl

instance : LawfulStore ScriptedStore where
  kept := kept
  honest s := Answer.decline ∉ s.forgets
  persisted := persisted
  loaded := loaded
  forgot := forgot
  honest_persist s id bytes honest := by
    change _ ∉ (Run.answered (follow _ _ _ _)).2.forgets
    rw [forgets_follow]
    exact honest
  honest_load s id honest := by
    change _ ∉ (Run.answered (follow _ _ _ _)).2.forgets
    rw [forgets_follow]
    exact honest
  honest_forget s id honest := by
    change _ ∉ (Run.answered (follow _ _ _ _)).2.forgets
    rw [forgets_follow]
    exact fun mem => honest (List.mem_of_mem_tail mem)

end ScriptedStore

namespace Bytes

theorem hexDigit_inj : ∀ a < 16, ∀ b < 16, hexDigit a = hexDigit b → a = b := by decide

theorem toHex_inj {xs ys : Bytes} (h : toHex xs = toHex ys) : xs = ys := by
  have digits := congrArg String.toList h
  simp only [toHex, String.toList_ofList] at digits
  clear h
  induction xs generalizing ys with
  | nil =>
    cases ys with
    | nil => rfl
    | cons y ys => cases digits
  | cons x xs ih =>
    cases ys with
    | nil => cases digits
    | cons y ys =>
      simp only [List.flatMap_cons, List.cons_append, List.nil_append, List.cons.injEq] at digits
      obtain ⟨high, low, rest⟩ := digits
      have below (b : UInt8) : b.toNat < 256 := b.toNat_lt
      have sameHigh := hexDigit_inj _ (by have := below x; omega) _ (by have := below y; omega) high
      have sameLow := hexDigit_inj _ (by omega) _ (by omega) low
      have same : x = y := UInt8.toNat_inj.mp (by omega)
      rw [same, ih rest]

end Bytes

namespace Directory

theorem text_inj {a b : NodeId} (h : a.text = b.text) : a = b := by
  have bytes := congrArg Bytes.toNat (Bytes.toHex_inj h)
  rw [Bytes.toNat_bigEndian, Bytes.toNat_bigEndian] at bytes
  have below (n : UInt64) : n.toNat < Bytes.limit 8 := n.toNat_lt
  rw [Nat.mod_eq_of_lt (below _), Nat.mod_eq_of_lt (below _)] at bytes
  cases a
  cases b
  exact congrArg NodeId.mk (UInt64.toNat_inj.mp bytes)

theorem fileName_inj {a b : NodeId} (h : fileName a = fileName b) : a = b := by
  apply text_inj
  have letters := congrArg String.toList h
  simp only [fileName, String.toList_append] at letters
  exact String.toList_inj.mp (List.append_cancel_right letters)

/-- A file in which bytes are prepared is the file of no node. -/
theorem fileName_ne_temporaryName (a b : NodeId) : fileName a ≠ temporaryName b := by
  intro h
  have letters := congrArg (fun s : String => s.toList.reverse.head?) h
  simp [fileName, temporaryName, String.toList_append] at letters

def kept (d : Directory) (id : NodeId) : Option Bytes :=
  match d.entries.get? (fileName id) with
  | some (.file bytes) => some bytes
  | _ => none

theorem kept_put_temporaryName (d : Directory) (id : NodeId) (held : Option DirectoryEntry) :
    (d.put (temporaryName id) held).kept = d.kept := by
  funext other
  have apart := fileName_ne_temporaryName other id
  cases held with
  | some entry => simp only [kept, put, OrderedMap.get?_insert, if_neg apart]
  | none => simp only [kept, put, OrderedMap.get?_erase, if_neg apart]

theorem kept_put_fileName (d : Directory) (id : NodeId) (held : Option Bytes) :
    (d.put (fileName id) (held.map .file)).kept =
      fun other => if other = id then held else d.kept other := by
  funext other
  have same : fileName other = fileName id ↔ other = id := ⟨fileName_inj, fun h => by rw [h]⟩
  by_cases here : other = id
  · cases held <;> simp [kept, put, here]
  · cases held <;> simp [kept, put, same, here]

theorem attempt_result (broken : Option Bytes → Directory → Directory) (d : Directory) :
    (∃ d', attempt broken d = .ok () d' ∧ d'.entries = d.entries) ∨
      ∃ left d', attempt broken d = .error failure (broken left d') ∧ d'.entries = d.entries := by
  unfold attempt
  split
  · exact Or.inr ⟨_, _, rfl, rfl⟩
  · exact Or.inl ⟨_, rfl, rfl⟩
  · exact Or.inl ⟨_, rfl, rfl⟩

theorem kept_of_entries {d d' : Directory} (same : d'.entries = d.entries) : d'.kept = d.kept := by
  funext id
  rw [kept, kept, same]

section Temporary
variable (d : Directory) (id : NodeId)

theorem create_result :
    ∃ d' : Directory, d'.kept = d.kept ∧ (create (temporaryName id) d = .ok () d' ∨
      create (temporaryName id) d = .error failure d') := by
  rcases attempt_result (leave (temporaryName id)) d with ⟨d', run, same⟩ | ⟨left, d', run, same⟩
  · simp only [create, Run.bind_apply, run, Run.get_apply]
    have emptied : (d'.put (temporaryName id) (some (.file []))).kept = d.kept := by
      rw [kept_put_temporaryName, kept_of_entries same]
    rcases d'.entries.get? (temporaryName id) with _ | _ | _
    · exact ⟨_, emptied, Or.inl rfl⟩
    · exact ⟨_, emptied, Or.inl rfl⟩
    · exact ⟨d', kept_of_entries same, Or.inr rfl⟩
  · refine ⟨leave (temporaryName id) left d', ?_, Or.inr ?_⟩
    · rw [leave, kept_put_temporaryName, kept_of_entries same]
    · simp only [create, Run.bind_apply, run]

theorem write_result (bytes : Bytes) :
    ∃ d' : Directory, d'.kept = d.kept ∧ (write (temporaryName id) bytes d = .ok () d' ∧
      d'.entries.get? (temporaryName id) = some (.file bytes) ∨
      write (temporaryName id) bytes d = .error failure d') := by
  rcases attempt_result (leave (temporaryName id)) d with ⟨d', run, same⟩ | ⟨left, d', run, same⟩
  · refine ⟨d'.put (temporaryName id) (some (.file bytes)), ?_, Or.inl ⟨?_, ?_⟩⟩
    · rw [kept_put_temporaryName, kept_of_entries same]
    · simp only [write, Run.bind_apply, run, Run.modify_apply]
    · simp [put]
  · refine ⟨leave (temporaryName id) left d', ?_, Or.inr ?_⟩
    · rw [leave, kept_put_temporaryName, kept_of_entries same]
    · simp only [write, Run.bind_apply, run]

theorem sync_result :
    ∃ d' : Directory, d'.kept = d.kept ∧ (sync (temporaryName id) d = .ok () d' ∧
      d'.entries = d.entries ∨ sync (temporaryName id) d = .error failure d') := by
  rcases attempt_result (leave (temporaryName id)) d with ⟨d', run, same⟩ | ⟨left, d', run, same⟩
  · exact ⟨d', kept_of_entries same, Or.inl ⟨run, same⟩⟩
  · refine ⟨leave (temporaryName id) left d', ?_, Or.inr run⟩
    rw [leave, kept_put_temporaryName, kept_of_entries same]

theorem rename_result {bytes : Bytes}
    (prepared : d.entries.get? (temporaryName id) = some (.file bytes)) :
    (∃ d', rename (temporaryName id) (fileName id) d = .ok () d' ∧
      d'.kept = fun other => if other = id then some bytes else d.kept other) ∨
    (∃ d', rename (temporaryName id) (fileName id) d = .error failure d' ∧ d'.kept = d.kept) := by
  rcases attempt_result (fun _ d => d) d with ⟨d', run, same⟩ | ⟨left, d', run, same⟩
  · simp only [rename, Run.bind_apply, run, Run.get_apply, same, prepared]
    have moved : ((d'.put (fileName id) (some (.file bytes))).put (temporaryName id) none).kept =
        fun other => if other = id then some bytes else d.kept other := by
      rw [kept_put_temporaryName, ← kept_of_entries same]
      exact kept_put_fileName d' id (some bytes)
    rcases d.entries.get? (fileName id) with _ | _ | _
    · exact Or.inl ⟨_, rfl, moved⟩
    · exact Or.inl ⟨_, rfl, moved⟩
    · exact Or.inr ⟨d', rfl, kept_of_entries same⟩
  · refine Or.inr ⟨d', ?_, kept_of_entries same⟩
    simp only [rename, Run.bind_apply, run]

end Temporary

/-- Bytes take their place only when they have been written as a whole. -/
theorem persisted (d : Directory) (id : NodeId) (bytes : Bytes) :
    Persisted kept d id bytes (ByteStore.persist id bytes d) := by
  change Persisted kept d id bytes ((do
    create (temporaryName id)
    write (temporaryName id) bytes
    sync (temporaryName id)
    rename (temporaryName id) (fileName id)
    return true : EStateM Error Directory Bool) d)
  simp only [Run.bind_apply]
  obtain ⟨d₁, kept₁, run₁ | run₁⟩ := create_result d id
  · obtain ⟨d₂, kept₂, ⟨run₂, written⟩ | run₂⟩ := write_result d₁ id bytes
    · obtain ⟨d₃, kept₃, ⟨run₃, entries⟩ | run₃⟩ := sync_result d₂ id
      · rcases rename_result d₃ id (entries ▸ written) with ⟨d₄, run₄, now⟩ | ⟨d₄, run₄, same⟩
        · simp only [run₁, run₂, run₃, run₄]
          exact .accepted (by rw [now, kept₃, kept₂, kept₁])
        · simp only [run₁, run₂, run₃, run₄]
          exact .failed (by rw [same, kept₃, kept₂, kept₁])
      · simp only [run₁, run₂, run₃]
        exact .failed (by rw [kept₃, kept₂, kept₁])
    · simp only [run₁, run₂]
      exact .failed (by rw [kept₂, kept₁])
  · simp only [run₁]
    exact .failed kept₁

theorem loaded (d : Directory) (id : NodeId) : Loaded kept d id (ByteStore.load id d) := by
  change Loaded kept d id (read (fileName id) d)
  rcases attempt_result (fun _ d => d) d with ⟨d', run, same⟩ | ⟨left, d', run, same⟩
  · simp only [read, Run.bind_apply, run, Run.get_apply]
    rcases found : d'.entries.get? (fileName id) with _ | bytes | _
    · exact .missing (kept_of_entries same)
    · refine .found ?_ (kept_of_entries same)
      rw [kept, ← same, found]
    · exact .failed (kept_of_entries same)
  · simp only [read, Run.bind_apply, run]
    exact .failed (kept_of_entries same)

theorem forgot (d : Directory) (id : NodeId) : Forgot kept d id (ByteStore.forget id d) := by
  change Forgot kept d id (remove (fileName id) d)
  rcases attempt_result (fun _ d => d) d with ⟨d', run, same⟩ | ⟨left, d', run, same⟩
  · simp only [remove, Run.bind_apply, run, Run.get_apply]
    rcases found : d'.entries.get? (fileName id) with _ | bytes | _
    · refine .gone ?_
      funext other
      rw [kept_of_entries same]
      split
      · rename_i here
        rw [here, kept, ← same, found]
      · rfl
    · refine .gone ?_
      rw [← kept_of_entries same]
      exact kept_put_fileName d' id none
    · exact .failed (kept_of_entries same)
  · simp only [remove, Run.bind_apply, run]
    exact .failed (kept_of_entries same)

instance : LawfulStore Directory where
  kept := kept
  honest _ := True
  persisted := persisted
  loaded := loaded
  forgot d id _ := d.forgot id
  honest_persist _ _ _ _ := trivial
  honest_load _ _ _ := trivial
  honest_forget _ _ _ := trivial

end Directory

namespace Store

section Within
variable {τ : Type} [ByteStore τ] [LawfulStore τ] {kind : τ → Store}
  (view : ∀ s, (kind s).kept? = LawfulStore.kept s) (s : τ) (id : NodeId)
include view

theorem persisted_within (bytes : Bytes) :
    Persisted kept? (kind s) id bytes (within kind (ByteStore.persist id bytes) s) := by
  have answer := LawfulStore.persisted s id bytes
  unfold within
  cases result : (ByteStore.persist id bytes s : EStateM.Result Error τ Bool) with
  | ok accepted s' =>
    rw [result] at answer
    cases answer with
    | accepted now => exact .accepted (by rw [view, view, now])
    | declined same => exact .declined (by rw [view, view, same])
  | error e s' =>
    rw [result] at answer
    cases answer with
    | failed same => exact .failed (by rw [view, view, same])

theorem loaded_within : Loaded kept? (kind s) id (within kind (ByteStore.load id) s) := by
  have answer := LawfulStore.loaded s id
  unfold within
  cases result : (ByteStore.load id s : EStateM.Result Error τ (Option Bytes)) with
  | ok found s' =>
    rw [result] at answer
    cases answer with
    | found there same => exact .found (by rw [view, there]) (by rw [view, view, same])
    | missing same => exact .missing (by rw [view, view, same])
  | error e s' =>
    rw [result] at answer
    cases answer with
    | failed same => exact .failed (by rw [view, view, same])

theorem forgot_within (honest : LawfulStore.honest s) :
    Forgot kept? (kind s) id (within kind (ByteStore.forget id) s) := by
  have answer := LawfulStore.forgot s id honest
  unfold within
  cases result : (ByteStore.forget id s : EStateM.Result Error τ Bool) with
  | ok there s' =>
    rw [result] at answer
    cases answer with
    | gone now => exact .gone (by rw [view, view, now])
  | error e s' =>
    rw [result] at answer
    cases answer with
    | failed same => exact .failed (by rw [view, view, same])

end Within

def honest : Store → Prop
  | memory s => LawfulStore.honest s
  | scripted s => LawfulStore.honest s
  | directory s => LawfulStore.honest s

theorem honest_within {τ α : Type} [ByteStore τ] [LawfulStore τ] (kind : τ → Store)
    (view : ∀ s, (kind s).honest = LawfulStore.honest s) (call : EStateM Error τ α) (s : τ)
    (h : LawfulStore.honest (Run.answered (call s)).2) :
    (Run.answered (within kind call s)).2.honest := by
  have same : (Run.answered (within kind call s)).2 = kind (Run.answered (call s)).2 := by
    unfold within
    cases call s <;> rfl
  rw [same, view]
  exact h

instance : LawfulStore Store where
  kept := kept?
  honest := honest
  persisted s id bytes :=
    match s with
    | memory s => persisted_within (fun _ => rfl) s id bytes
    | scripted s => persisted_within (fun _ => rfl) s id bytes
    | directory s => persisted_within (fun _ => rfl) s id bytes
  loaded s id :=
    match s with
    | memory s => loaded_within (fun _ => rfl) s id
    | scripted s => loaded_within (fun _ => rfl) s id
    | directory s => loaded_within (fun _ => rfl) s id
  forgot s id :=
    match s with
    | memory s => forgot_within (fun _ => rfl) s id
    | scripted s => forgot_within (fun _ => rfl) s id
    | directory s => forgot_within (fun _ => rfl) s id
  honest_persist s id bytes h :=
    match s with
    | memory s => honest_within memory (fun _ => rfl) _ s (LawfulStore.honest_persist s id bytes h)
    | scripted s => honest_within scripted (fun _ => rfl) _ s (LawfulStore.honest_persist s id bytes h)
    | directory s =>
      honest_within directory (fun _ => rfl) _ s (LawfulStore.honest_persist s id bytes h)
  honest_load s id h :=
    match s with
    | memory s => honest_within memory (fun _ => rfl) _ s (LawfulStore.honest_load s id h)
    | scripted s => honest_within scripted (fun _ => rfl) _ s (LawfulStore.honest_load s id h)
    | directory s => honest_within directory (fun _ => rfl) _ s (LawfulStore.honest_load s id h)
  honest_forget s id h :=
    match s with
    | memory s => honest_within memory (fun _ => rfl) _ s (LawfulStore.honest_forget s id h)
    | scripted s => honest_within scripted (fun _ => rfl) _ s (LawfulStore.honest_forget s id h)
    | directory s => honest_within directory (fun _ => rfl) _ s (LawfulStore.honest_forget s id h)

end Store

end GraphJournal
