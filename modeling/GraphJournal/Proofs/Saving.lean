import GraphJournal.Proofs.Skeleton
import GraphJournal.Proofs.Tree

/-!
# Saves of nodes

A save of a persistent node, in whatever mode and however the store answers it, changes nothing that
the node holds, nor anything that other nodes hold, unless these are kept under the same identity in
the same store. All that it writes, if anything, is the value. Erasures are NOT saves.
-/
namespace GraphJournal

set_option autoImplicit false

open MessagePack

namespace Cell

variable {α : Type} {codec : Codec α} {c : Cell α} {value : α}

/-- All that has been done to the store, if anything, is to write this value for this cell. -/
def WritesOnly (codec : Codec α) (c : Cell α) (value : α) (store : Store) {β : Type}
    (result : EStateM.Result Error (Cell α × Store) β) : Prop :=
  (Run.answered result).2.2 = store ∨ (Run.answered result).2.2 =
    (Run.answered (ByteStore.persist c.id (codec.encode c.config.layout value).bytes store)).2

theorem persist_writesOnly (store : Store) :
    WritesOnly codec c value store (persist codec value (c, store)) := by
  simp only [WritesOnly, persist, Run.bind_apply, Run.get_apply, Encoded.toExcept]
  cases (codec.encode c.config.layout value).fault? with
  | some fault => exact Or.inl rfl
  | none =>
    simp only [onStore]
    cases ByteStore.persist c.id (codec.encode c.config.layout value).bytes store <;>
      exact Or.inr rfl

theorem persistAndRelease_writesOnly {store : Store}
    (was : logical? codec (c, store) = some value) :
    WritesOnly codec c value store (persistAndRelease codec (c, store)) := by
  simp only [persistAndRelease, Run.bind_apply, Run.get_apply]
  cases state : c.state with
  | released => exact Or.inl rfl
  | resident held =>
    have same : held = value := by
      simpa only [logical?, state, Option.some.injEq] using was
    subst same
    have written : WritesOnly codec c held store _ := persist_writesOnly store
    simp only [Run.bind_apply]
    generalize persist codec held (c, store) = result at written ⊢
    rcases result with ⟨_ | _, now⟩ | ⟨e, now⟩ <;> exact written

theorem save_writesOnly {store : Store} (was : logical? codec (c, store) = some value)
    (mode : SaveMode) : WritesOnly codec c value store (save codec mode (c, store)) := by
  cases mode with
  | storeOnly =>
    simp only [save, awaitReader, Run.bind_apply, Run.get_apply]
    cases c.lock.admitsReader with
    | false => exact Or.inl rfl
    | true =>
      simp only [if_true, Run.pure_apply]
      cases state : c.state with
      | released => exact Or.inl rfl
      | resident held =>
        have same : held = value := by
          simpa only [logical?, state, Option.some.injEq] using was
        subst same
        have written : WritesOnly codec c held store _ := persist_writesOnly store
        simp only [Run.bind_apply]
        generalize persist codec held (c, store) = result at written ⊢
        rcases result with ⟨_ | _, now⟩ | ⟨e, now⟩ <;> exact written
  | tryRelease =>
    simp only [save, Run.bind_apply, Run.get_apply]
    cases c.lock.admitsWriter with
    | false => exact Or.inl rfl
    | true => exact persistAndRelease_writesOnly was
  | forceRelease =>
    simp only [save, awaitWriter, Run.bind_apply, Run.get_apply]
    cases c.lock.admitsWriter with
    | false => exact Or.inl rfl
    | true => exact persistAndRelease_writesOnly was

end Cell

namespace Graph

variable {κ : Type} [Values κ]

/-- Two persistent nodes whose values are kept in one place. -/
def SharesCopy (g : Graph κ) (n m : NodeRef) : Prop :=
  ∃ kind kind' id config config' lock lock' s,
    g.shape? n = some (.persistent kind id config lock s) ∧
      g.shape? m = some (.persistent kind' id config' lock' s)

/-- No two nodes of a tree are kept in one place. -/
def Apart (g : Graph κ) (top : NodeRef) : Prop :=
  ∀ path other n m, Reaches g top path n → Reaches g top other m → n ≠ m → ¬ SharesCopy g n m

/-- What was kept of a node can be read back. -/
def RestoresCopy (g : Graph κ) (n : NodeRef) : Prop :=
  ∀ kind id config lock s, g.shape? n = some (.persistent kind id config lock s) →
    (Values.codec kind).Restores config.layout

/-- Nothing has changed but where the value of one node is, and its copy. -/
structure Saved (g : Graph κ) (n : NodeRef) (g' : Graph κ) : Prop where
  skeleton : g'.skeleton = g.skeleton
  roots : g'.roots = g.roots
  same : g'.held? n = g.held? n
  others : ∀ m, m ≠ n → ¬ SharesCopy g n m → g'.held? m = g.held? m

theorem Saved.refl (g : Graph κ) (n : NodeRef) : Saved g n g :=
  ⟨rfl, rfl, rfl, fun _ _ _ => rfl⟩

section Persistent
variable {g : Graph κ} {n : NodeRef} {kind : κ} {cell : Cell (Values.Carrier kind)} {s : StoreRef}
  {store : Store}

/-- A save of a node is a save of its cell. -/
theorem answered_save (there : g.content? n = some (.persistent kind cell s))
    (found : g.stores[s.index]? = some store) (mode : SaveMode) :
    Run.answered (save n mode g) =
      ((Run.answered (Cell.save (Values.codec kind) mode (cell, store))).1,
        g.putCell n kind s (Run.answered (Cell.save (Values.codec kind) mode (cell, store))).2) := by
  simp only [save, onCell, Run.bind_apply, Run.get_apply, there]
  rw [withCell_eq g found]
  cases Cell.save (Values.codec kind) mode (cell, store) <;> rfl

theorem saved_putCell (there : g.content? n = some (.persistent kind cell s))
    (found : g.stores[s.index]? = some store) {now : Cell (Values.Carrier kind) × Store}
    (framed : Cell.Framed (cell, store) now)
    (logical : Cell.logical? (Values.codec kind) now =
      Cell.logical? (Values.codec kind) (cell, store)) :
    Saved g n (g.putCell n kind s now) := by
  refine ⟨skeleton_putCell g there framed, roots_putCell g now, ?_, ?_⟩
  · rw [held?_putCell_self g there found, logical]
    simp only [held?, there, Option.bind_some, holding?, found]
  · intro m apart separate
    refine held?_putCell_other g apart found ?_
    intro kind' c there'
    refine framed.others c.id ?_
    intro shared
    refine separate ⟨kind, kind', cell.id, cell.config, c.config, cell.lock, c.lock, s, ?_, ?_⟩
    · rw [shape?, there]
      rfl
    · rw [shape?, there', ← shared]
      rfl

theorem framed_of_saved {codec : Codec (Values.Carrier kind)} {value : Values.Carrier kind}
    {result : EStateM.Result Error (Cell (Values.Carrier kind) × Store) SaveOutcome}
    (was : Cell.logical? codec (cell, store) = some value)
    (saved : Cell.Saved codec value cell store result) :
    Cell.Framed (cell, store) (Run.answered result).2 ∧
      Cell.logical? codec (Run.answered result).2 = Cell.logical? codec (cell, store) := by
  cases saved with
  | stored copied framed => exact ⟨framed, by rw [was]; exact Cell.logical?_of_copied copied was⟩
  | released copied framed => exact ⟨framed, by rw [was]; exact copied⟩
  | rejected same =>
    exact ⟨Cell.Framed.of_unchanged same cell.state, Cell.logical?_of_unchanged same⟩
  | skipped held =>
    exact ⟨Cell.Framed.of_unchanged (LawfulStore.Unchanged.refl store) cell.state, rfl⟩
  | failed same =>
    exact ⟨Cell.Framed.of_unchanged same cell.state, Cell.logical?_of_unchanged same⟩

/-- The copy is as it was or the value, and it is the value if the save has succeeded. -/
theorem copied_of_saved {codec : Codec (Values.Carrier kind)} {value : Values.Carrier kind}
    {result : EStateM.Result Error (Cell (Values.Carrier kind) × Store) SaveOutcome}
    (saved : Cell.Saved codec value cell store result) :
    (Cell.copy? codec (Run.answered result).2.2 cell.id = Cell.copy? codec store cell.id ∨
        Cell.copy? codec (Run.answered result).2.2 cell.id = some value) ∧
      ((Run.answered result).1 = .ok .stored ∨ (Run.answered result).1 = .ok .released →
        Cell.copy? codec (Run.answered result).2.2 cell.id = some value) := by
  cases saved with
  | stored copied framed => exact ⟨Or.inr copied, fun _ => copied⟩
  | released copied framed => exact ⟨Or.inr copied, fun _ => copied⟩
  | rejected same =>
    refine ⟨Or.inl (Cell.copy?_of_kept same.kept _), ?_⟩
    rintro (done | done) <;> cases done
  | skipped held =>
    refine ⟨Or.inl rfl, ?_⟩
    rintro (done | done) <;> cases done
  | failed same =>
    refine ⟨Or.inl (Cell.copy?_of_kept same.kept _), ?_⟩
    rintro (done | done) <;> cases done

end Persistent

/-- Every save, in whatever mode, and whatever becomes of it. -/
theorem save_saved {g : Graph κ} {n : NodeRef} {holding : Holding κ}
    (restores : RestoresCopy g n) (held : g.held? n = some holding) (mode : SaveMode) :
    Saved g n (Run.answered (save n mode g)).2 := by
  unfold save onCell
  simp only [Run.bind_apply, Run.get_apply]
  rcases there : g.content? n with _ | _ | _ | _ | ⟨kind, cell, s⟩
  · exact Saved.refl g n
  · exact Saved.refl g n
  · exact Saved.refl g n
  · exact Saved.refl g n
  · rw [held?, there, Option.bind_some, holding?] at held
    obtain ⟨store, found, value⟩ := Option.bind_eq_some_iff.mp held
    obtain ⟨value, was, -⟩ := Option.map_eq_some_iff.mp value
    have restores' : (Values.codec kind).Restores cell.config.layout :=
      restores kind cell.id cell.config cell.lock s (by rw [shape?, there]; rfl)
    obtain ⟨framed, logical⟩ := framed_of_saved was (Cell.save_result restores' was mode)
    have saved := saved_putCell there found framed logical
    dsimp only
    rw [withCell_eq g found]
    generalize Cell.save (Values.codec kind) mode (cell, store) = result at saved
    cases result <;> exact saved

end Graph

end GraphJournal
