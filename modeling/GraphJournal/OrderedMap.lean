/-!
Finite maps as lists of entries with strictly increasing keys. Two maps with the same entries are
equal, and the entries are listed in the order of their keys.
-/
namespace GraphJournal

/-- A finite map whose entries are kept in increasing order of their keys. -/
structure OrderedMap (α β : Type) [Ord α] where
  entries : List (α × β)
  increasing : entries.Pairwise fun a b => compare a.1 b.1 = .lt

namespace OrderedMap

variable {α β : Type} [Ord α]

def empty : OrderedMap α β := ⟨[], .nil⟩

instance : Inhabited (OrderedMap α β) := ⟨empty⟩

@[ext] theorem ext {m n : OrderedMap α β} (h : m.entries = n.entries) : m = n := by
  cases m
  cases n
  cases h
  rfl

/-- The entry for `k` in a list of entries. -/
def find? (k : α) : List (α × β) → Option β
  | [] => none
  | (k', v) :: rest => if compare k k' = .eq then some v else find? k rest

def get? (m : OrderedMap α β) (k : α) : Option β := find? k m.entries

def keys (m : OrderedMap α β) : List α := m.entries.map (·.1)

def values (m : OrderedMap α β) : List β := m.entries.map (·.2)

/-- Puts an entry in its place, instead of one with the same key. -/
def place (k : α) (v : β) : List (α × β) → List (α × β)
  | [] => [(k, v)]
  | (k', v') :: rest =>
    match compare k k' with
    | .lt => (k, v) :: (k', v') :: rest
    | .eq => (k, v) :: rest
    | .gt => (k', v') :: place k v rest

theorem mem_place {k : α} {v : β} {entries : List (α × β)} {e : α × β}
    (h : e ∈ place k v entries) : e = (k, v) ∨ e ∈ entries := by
  induction entries with
  | nil => simpa [place] using h
  | cons head rest ih =>
    simp only [place] at h
    split at h
    · simpa using h
    · rcases List.mem_cons.1 h with h | h
      · exact .inl h
      · exact .inr (List.mem_cons_of_mem _ h)
    · rcases List.mem_cons.1 h with h | h
      · exact .inr (h ▸ List.mem_cons_self)
      · exact (ih h).imp_right (List.mem_cons_of_mem _)

theorem increasing_place [Std.TransOrd α] (k : α) (v : β) {entries : List (α × β)}
    (h : entries.Pairwise fun a b => compare a.1 b.1 = .lt) :
    (place k v entries).Pairwise fun a b => compare a.1 b.1 = .lt := by
  induction entries with
  | nil => simp [place]
  | cons head rest ih =>
    obtain ⟨below, tail⟩ := List.pairwise_cons.1 h
    simp only [place]
    split
    · rename_i lt
      refine List.pairwise_cons.2 ⟨fun e he => ?_, h⟩
      rcases List.mem_cons.1 he with rfl | he
      · exact lt
      · exact Std.TransCmp.lt_trans lt (below e he)
    · rename_i eq
      exact List.pairwise_cons.2
        ⟨fun e he => Std.TransCmp.lt_of_eq_of_lt eq (below e he), tail⟩
    · rename_i gt
      refine List.pairwise_cons.2 ⟨fun e he => ?_, ih tail⟩
      rcases mem_place he with rfl | he
      · exact Std.OrientedCmp.lt_of_gt gt
      · exact below e he

def insert [Std.TransOrd α] (m : OrderedMap α β) (k : α) (v : β) : OrderedMap α β :=
  ⟨place k v m.entries, increasing_place k v m.increasing⟩

def erase (m : OrderedMap α β) (k : α) : OrderedMap α β :=
  ⟨m.entries.filter fun e => compare k e.1 ≠ .eq, m.increasing.filter _⟩

/-- The map with the entries of a list, of which the last for a key counts. -/
def ofList [Std.TransOrd α] (entries : List (α × β)) : OrderedMap α β :=
  entries.foldl (fun m e => m.insert e.1 e.2) empty

theorem find?_place [DecidableEq α] [Std.TransOrd α] [Std.LawfulEqOrd α] (k j : α) (v : β)
    (entries : List (α × β)) :
    find? j (place k v entries) = if j = k then some v else find? j entries := by
  induction entries with
  | nil => simp [place, find?]
  | cons head rest ih =>
    obtain ⟨k', v'⟩ := head
    simp only [place]
    split
    · simp [find?]
    · rename_i eq
      have same : k = k' := Std.LawfulEqOrd.eq_of_compare eq
      subst same
      by_cases hj : j = k <;> simp [find?, hj]
    · rename_i gt
      simp only [find?, ih]
      by_cases hj : j = k
      · subst hj
        simp [gt]
      · simp [hj]

theorem mem_of_find? [Std.LawfulEqOrd α] {k : α} {v : β} {entries : List (α × β)}
    (h : find? k entries = some v) : (k, v) ∈ entries := by
  induction entries with
  | nil => cases h
  | cons head rest ih =>
    obtain ⟨k', v'⟩ := head
    rw [find?] at h
    split at h
    · rename_i same
      rw [Std.LawfulEqOrd.eq_of_compare same, Option.some.inj h]
      exact List.mem_cons_self
    · exact List.mem_cons_of_mem _ (ih h)

theorem mem_of_get? [Std.LawfulEqOrd α] {m : OrderedMap α β} {k : α} {v : β}
    (h : m.get? k = some v) : (k, v) ∈ m.entries := mem_of_find? h

/-- Insertion changes the value of its own key only. -/
@[simp] theorem get?_insert [DecidableEq α] [Std.TransOrd α] [Std.LawfulEqOrd α] (m : OrderedMap α β)
    (k j : α) (v : β) : (m.insert k v).get? j = if j = k then some v else m.get? j :=
  find?_place k j v m.entries

/-- Erasing takes away the value of its own key only. -/
@[simp] theorem get?_erase [DecidableEq α] [Std.LawfulEqOrd α] (m : OrderedMap α β) (k j : α) :
    (m.erase k).get? j = if j = k then none else m.get? j := by
  obtain ⟨entries, increasing⟩ := m
  simp only [get?, erase]
  clear increasing
  induction entries with
  | nil => simp [find?]
  | cons head rest ih =>
    obtain ⟨k', v'⟩ := head
    by_cases hk : k = k'
    · subst hk
      by_cases hj : j = k <;> simp_all [find?]
    · by_cases hj : j = k'
      · subst hj
        simp [find?, hk, Ne.symm hk]
      · simp_all [find?]

end OrderedMap

end GraphJournal
