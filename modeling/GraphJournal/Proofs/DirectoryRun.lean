import GraphJournal.Proofs.LawfulStore

/-!
# Runs on a directory

A store in a directory answers as one in memory, and a call of it that fails might as well not have
been made. What it answers is told by the files of the nodes and by what happens to its operations;
the files in which bytes are prepared have no part in it, also where a failure has left them behind.
Directories in which names stand for directories are NOT treated.
-/
namespace GraphJournal

set_option autoImplicit false

/-- What a store is asked to do, or that it is opened once more. -/
inductive StoreCall
  | persist (id : NodeId) (bytes : Bytes)
  | forget (id : NodeId)
  | load (id : NodeId)
  | reopen
  deriving DecidableEq, Repr

inductive StoreReply
  | persisted (accepted : Bool)
  | forgot (there : Bool)
  | loaded (bytes : Option Bytes)
  | opened
  deriving DecidableEq, Repr

namespace StoreCall

section Runs
variable {σ : Type} [ByteStore σ] (reopened : EStateM Error σ Unit)

def run : StoreCall → EStateM Error σ StoreReply
  | persist id bytes => .persisted <$> ByteStore.persist id bytes
  | forget id => .forgot <$> ByteStore.forget id
  | load id => .loaded <$> ByteStore.load id
  | reopen => (fun _ => .opened) <$> reopened

/-- The answers to calls made one after the other, and the store after the last. -/
def runAll : List StoreCall → σ → List (Except Error StoreReply) × σ
  | [], s => ([], s)
  | call :: calls, s =>
    let now := Run.answered (call.run reopened s)
    let later := runAll calls now.2
    (now.1 :: later.1, later.2)

end Runs

/-- The operations on a directory that make up a call. -/
def cost : StoreCall → Nat
  | persist _ _ => 4
  | forget _ | load _ | reopen => 1

/-- What is answered where `kept` is kept. -/
def reply (kept : NodeId → Option Bytes) : StoreCall → StoreReply
  | persist _ _ => .persisted true
  | forget id => .forgot (kept id).isSome
  | load id => .loaded (kept id)
  | reopen => .opened

/-- What is kept afterwards. -/
def after (kept : NodeId → Option Bytes) : StoreCall → NodeId → Option Bytes
  | persist id bytes => fun other => if other = id then some bytes else kept other
  | forget id => fun other => if other = id then none else kept other
  | load _ | reopen => kept

/-- The names in a directory that a call touches. -/
def names : StoreCall → List String
  | persist id _ => [Directory.temporaryName id, Directory.fileName id]
  | forget id => [Directory.fileName id]
  | load _ | reopen => []

/-- The calls that were not answered by an error. -/
def answered : List StoreCall → List (Except Error StoreReply) → List StoreCall
  | call :: calls, .ok _ :: answers => call :: answered calls answers
  | _ :: calls, .error _ :: answers => answered calls answers
  | _, _ => []

end StoreCall

/-- Whether so many operations work, and what happens to the operations after them; none is made
after one that breaks. -/
def DiskEvent.spend : Nat → List DiskEvent → Bool × List DiskEvent
  | 0, events => (true, events)
  | _ + 1, [] => (true, [])
  | n + 1, .works :: events => spend n events
  | _ + 1, .breaks _ :: events => (false, events)

/-- What a store answers that keeps `kept`, told without its files, and what it keeps in the end. -/
def StoreCall.serve : List StoreCall → (NodeId → Option Bytes) → List DiskEvent →
    List (Except Error StoreReply) × (NodeId → Option Bytes)
  | [], kept, _ => ([], kept)
  | call :: calls, kept, events =>
    match DiskEvent.spend call.cost events with
    | (true, events) =>
      let later := serve calls (call.after kept) events
      (.ok (call.reply kept) :: later.1, later.2)
    | (false, events) =>
      let later := serve calls kept events
      (.error Directory.failure :: later.1, later.2)

def MemoryStore.runAll (calls : List StoreCall) (m : MemoryStore) :
    List (Except Error StoreReply) × MemoryStore :=
  StoreCall.runAll (pure ()) calls m

namespace Directory

def runAll (calls : List StoreCall) (d : Directory) : List (Except Error StoreReply) × Directory :=
  StoreCall.runAll reopen calls d

/-- No name stands for a directory. -/
def Plain (d : Directory) : Prop := ∀ name, d.entries.get? name ≠ some .directory

section Entries
variable {d : Directory} {name : String}

theorem get?_put (held : Option DirectoryEntry) (other : String) :
    (d.put name held).entries.get? other =
      if other = name then held else d.entries.get? other := by
  cases held with
  | some entry => exact OrderedMap.get?_insert d.entries name other entry
  | none => exact OrderedMap.get?_erase d.entries name other

@[simp] theorem events_put (held : Option DirectoryEntry) : (d.put name held).events = d.events := by
  cases held <;> rfl

theorem Plain.put (plain : Plain d) {held : Option DirectoryEntry} (file : held ≠ some .directory) :
    Plain (d.put name held) := by
  intro other
  rw [get?_put]
  split
  · exact file
  · exact plain other

end Entries

/-- How a computation ends that needs some operations on a plain directory: it has made all of them,
or one of them broke, and then nothing that was kept has changed. -/
inductive Spent {α : Type} (kept : NodeId → Option Bytes) (post : α → Directory → Prop) :
    Bool × List DiskEvent → EStateM.Result Error Directory α → Prop
  | worked {events : List DiskEvent} {a : α} {d' : Directory} (plain : Plain d')
      (left : d'.events = events) (now : post a d') : Spent kept post (true, events) (.ok a d')
  | broke {events : List DiskEvent} {d' : Directory} (plain : Plain d') (left : d'.events = events)
      (same : d'.kept = kept) : Spent kept post (false, events) (.error failure d')

/-- From a plain directory that keeps `kept`, with entries as `pre` says, a computation needs `n`
operations and then ends as `post` says. -/
def Spends {α : Type} (kept : NodeId → Option Bytes)
    (pre : OrderedMap String DirectoryEntry → Prop) (n : Nat) (act : EStateM Error Directory α)
    (post : α → Directory → Prop) : Prop :=
  ∀ d, Plain d → d.kept = kept → pre d.entries → Spent kept post (DiskEvent.spend n d.events) (act d)

section Spending
variable {α β : Type} {kept : NodeId → Option Bytes}
  {pre : OrderedMap String DirectoryEntry → Prop} {id : NodeId}

theorem spend_add (m n : Nat) (events : List DiskEvent) :
    DiskEvent.spend (m + n) events =
      match DiskEvent.spend m events with
      | (true, events) => DiskEvent.spend n events
      | (false, events) => (false, events) := by
  induction m generalizing events with
  | zero => rw [Nat.zero_add]; rfl
  | succ m ih =>
    rw [Nat.add_right_comm]
    match events with
    | [] => cases n <;> rfl
    | .works :: events => exact ih events
    | .breaks _ :: events => rfl

theorem Spends.bind {m n : Nat} {first : EStateM Error Directory α}
    {next : α → EStateM Error Directory β} {mid : α → OrderedMap String DirectoryEntry → Prop}
    {post : β → Directory → Prop}
    (before : Spends kept pre m first fun a d => d.kept = kept ∧ mid a d.entries)
    (after : ∀ a, Spends kept (mid a) n (next a) post) :
    Spends kept pre (m + n) (first >>= next) post := by
  intro d plain same start
  have here := before d plain same start
  rw [spend_add, Run.bind_apply]
  generalize DiskEvent.spend m d.events = spent, first d = result at here ⊢
  cases here with
  | worked plain' left now =>
    rw [← left]
    exact after _ _ plain' now.1 now.2
  | broke plain' left same' => exact .broke plain' left same'

/-- One operation that may break without harm, and then what no longer can. -/
theorem spends_attempt {broken : Option Bytes → Directory → Directory}
    {rest : EStateM Error Directory α} {post : α → Directory → Prop}
    (harmless : ∀ left d, Plain d → d.kept = kept →
      Plain (broken left d) ∧ (broken left d).events = d.events ∧ (broken left d).kept = kept)
    (done : ∀ d, Plain d → d.kept = kept → pre d.entries →
      ∃ a d', rest d = .ok a d' ∧ Plain d' ∧ d'.events = d.events ∧ post a d') :
    Spends kept pre 1 (attempt broken >>= fun _ => rest) post := by
  intro d plain same start
  have goesOn (events : List DiskEvent) :
      Spent kept post (true, events) (rest { d with events }) := by
    obtain ⟨a, d', run, plain', left, now⟩ := done { d with events } plain same start
    rw [run]
    exact .worked plain' left now
  obtain ⟨entries, events⟩ := d
  match events with
  | [] => exact goesOn []
  | .works :: events => exact goesOn events
  | .breaks left :: events =>
    obtain ⟨plain', events', same'⟩ := harmless left ⟨entries, events⟩ plain same
    exact .broke plain' events' same'

theorem leave_harmless (left : Option Bytes) (d : Directory) (plain : Plain d)
    (same : d.kept = kept) :
    Plain (leave (temporaryName id) left d) ∧ (leave (temporaryName id) left d).events = d.events ∧
      (leave (temporaryName id) left d).kept = kept := by
  refine ⟨plain.put ?_, events_put _, ?_⟩
  · cases left <;> simp
  · rw [leave, kept_put_temporaryName, same]

theorem idle_harmless (_left : Option Bytes) (d : Directory) (plain : Plain d) (same : d.kept = kept) :
    Plain d ∧ d.events = d.events ∧ d.kept = kept := ⟨plain, rfl, same⟩

theorem put_temporary {d : Directory} (plain : Plain d) (same : d.kept = kept) (bytes : Bytes) :
    Plain (d.put (temporaryName id) (some (.file bytes))) ∧
      (d.put (temporaryName id) (some (.file bytes))).kept = kept := by
  refine ⟨plain.put (by simp), ?_⟩
  rw [kept_put_temporaryName, same]

variable (id)

theorem spends_create : Spends kept (fun _ => True) 1 (create (temporaryName id))
    fun _ d => d.kept = kept ∧ True := by
  apply spends_attempt leave_harmless
  intro d plain same _
  have ⟨plain', same'⟩ : _ ∧ (d.put (temporaryName id) _).kept = _ := put_temporary plain same []
  refine ⟨(), _, ?_, plain', events_put _, same', trivial⟩
  rcases found : d.entries.get? (temporaryName id) with _ | _ | _
  · simp only [Run.bind_apply, Run.get_apply, found, Run.modify_apply]
  · simp only [Run.bind_apply, Run.get_apply, found, Run.modify_apply]
  · exact absurd found (plain _)

theorem spends_write (bytes : Bytes) :
    Spends kept (fun _ => True) 1 (write (temporaryName id) bytes) fun _ d =>
      d.kept = kept ∧ d.entries.get? (temporaryName id) = some (.file bytes) := by
  apply spends_attempt leave_harmless
  intro d plain same _
  have ⟨plain', same'⟩ : _ ∧ (d.put (temporaryName id) _).kept = _ := put_temporary plain same bytes
  refine ⟨(), _, rfl, plain', events_put _, same', ?_⟩
  rw [get?_put, if_pos rfl]

theorem spends_sync : Spends kept pre 1 (sync (temporaryName id))
    fun _ d => d.kept = kept ∧ pre d.entries := by
  rw [← bind_pure_unit (x := sync (temporaryName id))]
  apply spends_attempt leave_harmless
  intro d plain same start
  exact ⟨(), d, rfl, plain, rfl, same, start⟩

theorem spends_rename (bytes : Bytes) :
    Spends kept (fun entries => entries.get? (temporaryName id) = some (.file bytes)) 1
      (rename (temporaryName id) (fileName id)) fun _ d =>
        d.kept = fun other => if other = id then some bytes else kept other := by
  apply spends_attempt idle_harmless
  intro d plain same prepared
  have moved : ((d.put (fileName id) (some (.file bytes))).put (temporaryName id) none).kept =
      fun other => if other = id then some bytes else kept other := by
    rw [kept_put_temporaryName, ← same]
    exact kept_put_fileName d id (some bytes)
  refine ⟨(), (d.put (fileName id) (some (.file bytes))).put (temporaryName id) none, ?_,
    (plain.put (by simp)).put (by simp), ?_, moved⟩
  · rw [Run.bind_apply, Run.get_apply]
    dsimp only
    rw [prepared]
    rcases found : d.entries.get? (fileName id) with _ | _ | _
    · rfl
    · rfl
    · exact absurd found (plain _)
  · rw [events_put, events_put]

theorem spends_remove : Spends kept (fun _ => True) 1 (remove (fileName id)) fun there d =>
    there = (kept id).isSome ∧ d.kept = fun other => if other = id then none else kept other := by
  apply spends_attempt idle_harmless
  intro d plain same _
  have here := congrFun same id
  have gone : (d.put (fileName id) none).kept =
      fun other => if other = id then none else kept other := by
    rw [← same]
    exact kept_put_fileName d id none
  rcases found : d.entries.get? (fileName id) with _ | bytes | _
  · rw [Directory.kept, found] at here
    refine ⟨false, d, ?_, plain, rfl, ?_, ?_⟩
    · simp only [Run.bind_apply, Run.get_apply, found, Run.pure_apply]
    · rw [← here]
      rfl
    · rw [same]
      funext other
      split
      · rename_i self
        rw [self, ← here]
      · rfl
  · rw [Directory.kept, found] at here
    refine ⟨true, _, ?_, plain.put (by simp), events_put none, ?_, gone⟩
    · simp only [Run.bind_apply, Run.get_apply, found, Run.set_apply, Run.pure_apply]
    · rw [← here]
      rfl
  · exact absurd found (plain _)

theorem spends_read : Spends kept (fun _ => True) 1 (read (fileName id)) fun found d =>
    found = kept id ∧ d.kept = kept := by
  apply spends_attempt idle_harmless
  intro d plain same _
  have here := congrFun same id
  rw [Directory.kept] at here
  rcases found : d.entries.get? (fileName id) with _ | bytes | _
  · rw [found] at here
    refine ⟨none, d, ?_, plain, rfl, here, same⟩
    simp only [Run.bind_apply, Run.get_apply, found, Run.pure_apply]
  · rw [found] at here
    refine ⟨some bytes, d, ?_, plain, rfl, here, same⟩
    simp only [Run.bind_apply, Run.get_apply, found, Run.pure_apply]
  · exact absurd found (plain _)

theorem Spends.map {n : Nat} {act : EStateM Error Directory α} {f : α → β}
    {post : α → Directory → Prop} {post' : β → Directory → Prop} (spends : Spends kept pre n act post)
    (told : ∀ a d, post a d → post' (f a) d) : Spends kept pre n (f <$> act) post' := by
  intro d plain same start
  have here := spends d plain same start
  rw [Run.map_apply]
  generalize DiskEvent.spend n d.events = spent, act d = result at here ⊢
  cases here with
  | worked plain' left now => exact .worked plain' left (told _ _ now)
  | broke plain' left same' => exact .broke plain' left same'

/-- A call needs its operations, and if all of them work it answers and keeps what a store has to. -/
theorem spends_call (call : StoreCall) :
    Spends kept (fun _ => True) call.cost (call.run reopen) fun reply d =>
      reply = call.reply kept ∧ d.kept = call.after kept := by
  cases call with
  | persist id bytes =>
    have renamed : Spends kept (fun entries => entries.get? (temporaryName id) = some (.file bytes)) 1
        (rename (temporaryName id) (fileName id) >>= fun _ => pure true) fun accepted d =>
          accepted = true ∧ d.kept = (StoreCall.persist id bytes).after kept := by
      rw [bind_pure_comp]
      exact (spends_rename id bytes).map fun _ d now => ⟨rfl, now⟩
    have whole := (spends_create id).bind fun _ => (spends_write id bytes).bind fun _ =>
      (spends_sync id).bind fun _ => renamed
    exact Spends.map whole fun accepted d now => ⟨congrArg _ now.1, now.2⟩
  | forget id => exact (spends_remove id).map fun there d now => ⟨congrArg _ now.1, now.2⟩
  | load id => exact (spends_read id).map fun found d now => ⟨congrArg _ now.1, now.2⟩
  | reopen =>
    have opened : Spends kept (fun _ => True) 1 (reopen >>= fun _ => pure StoreReply.opened)
        fun reply d => reply = .opened ∧ d.kept = kept := by
      apply spends_attempt idle_harmless
      intro d plain same _
      exact ⟨.opened, d, rfl, plain, rfl, rfl, same⟩
    rw [bind_pure_comp] at opened
    exact opened

end Spending

/-- The answers of a plain directory are those of what it keeps and of what happens to it. -/
theorem runAll_serve (calls : List StoreCall) {d : Directory} (plain : Plain d) :
    Plain (runAll calls d).2 ∧
      (runAll calls d).1 = (StoreCall.serve calls d.kept d.events).1 ∧
      (runAll calls d).2.kept = (StoreCall.serve calls d.kept d.events).2 := by
  induction calls generalizing d with
  | nil => exact ⟨plain, rfl, rfl⟩
  | cons call calls ih =>
    have here := spends_call call d plain rfl trivial
    simp only [runAll, StoreCall.runAll, StoreCall.serve] at ih ⊢
    generalize DiskEvent.spend call.cost d.events = spent, call.run reopen d = result at here ⊢
    cases here with
    | worked plain' left now =>
      obtain ⟨stays, answers, kept⟩ := ih plain'
      rw [now.2, left] at answers kept
      simp only [Run.answered_ok, now.1]
      exact ⟨stays, by rw [answers], kept⟩
    | broke plain' left same =>
      obtain ⟨stays, answers, kept⟩ := ih plain'
      rw [same, left] at answers kept
      simp only [Run.answered_error]
      exact ⟨stays, by rw [answers], kept⟩

end Directory

theorem DiskEvent.spend_nil (n : Nat) : spend n [] = (true, []) := by
  cases n <;> rfl

theorem DiskEvent.spend_working (n : Nat) {events : List DiskEvent}
    (working : ∀ e ∈ events, e = .works) :
    ∃ later, spend n events = (true, later) ∧ ∀ e ∈ later, e = .works := by
  induction n generalizing events with
  | zero => exact ⟨events, rfl, working⟩
  | succ n ih =>
    cases events with
    | nil => exact ⟨[], rfl, working⟩
    | cons e events =>
      have head := working e List.mem_cons_self
      subst head
      exact ih fun e mem => working e (List.mem_cons_of_mem _ mem)

namespace MemoryStore

/-- A store in memory answers like a directory to which nothing happens. -/
theorem runAll_serve (calls : List StoreCall) (m : MemoryStore) :
    (runAll calls m).1 = (StoreCall.serve calls m.kept []).1 ∧
      (runAll calls m).2.kept = (StoreCall.serve calls m.kept []).2 := by
  induction calls generalizing m with
  | nil => exact ⟨rfl, rfl⟩
  | cons call calls ih =>
    have here : ∃ m' : MemoryStore, call.run (pure ()) m = .ok (call.reply m.kept) m' ∧
        m'.kept = call.after m.kept := by
      cases call with
      | persist id bytes =>
        exact ⟨_, rfl, funext fun other => OrderedMap.get?_insert m.entries id other bytes⟩
      | forget id => exact ⟨_, rfl, funext fun other => OrderedMap.get?_erase m.entries id other⟩
      | load id => exact ⟨m, rfl, rfl⟩
      | reopen => exact ⟨m, rfl, rfl⟩
    obtain ⟨m', run, kept⟩ := here
    obtain ⟨answers, kept'⟩ := ih m'
    simp only [runAll, StoreCall.runAll, StoreCall.serve, DiskEvent.spend_nil, run,
      Run.answered_ok] at answers kept' ⊢
    rw [kept] at answers kept'
    exact ⟨by rw [answers], kept'⟩

end MemoryStore

namespace StoreCall

theorem serve_working (calls : List StoreCall) (kept : NodeId → Option Bytes)
    {events : List DiskEvent} (working : ∀ e ∈ events, e = .works) :
    serve calls kept events = serve calls kept [] := by
  induction calls generalizing kept events with
  | nil => rfl
  | cons call calls ih =>
    obtain ⟨later, spent, still⟩ := DiskEvent.spend_working call.cost working
    simp only [serve, spent, DiskEvent.spend_nil, ih _ still]

/-- Without the calls that failed, the others have the same answers where nothing happens. -/
theorem serve_answered (calls : List StoreCall) (kept : NodeId → Option Bytes)
    (events : List DiskEvent) :
    serve (answered calls (serve calls kept events).1) kept [] =
      ((serve calls kept events).1.filter (·.isOk), (serve calls kept events).2) := by
  induction calls generalizing kept events with
  | nil => rfl
  | cons call calls ih =>
    rcases spent : DiskEvent.spend call.cost events with ⟨_ | _, later⟩
    · simp only [serve, spent, answered, ih]
      rfl
    · simp only [serve, spent, answered, DiskEvent.spend_nil, ih]
      rfl

end StoreCall

namespace Directory

/-- Whatever comes of it, the computation leaves all names alone but these. -/
def Touches {α : Type} (names : List String) (act : EStateM Error Directory α) : Prop :=
  ∀ d name, name ∉ names → (Run.answered (act d)).2.entries.get? name = d.entries.get? name

section Touching
variable {α β : Type} {names : List String}

theorem Touches.bind {act : EStateM Error Directory α} {next : α → EStateM Error Directory β}
    (first : Touches names act) (rest : ∀ a, Touches names (next a)) :
    Touches names (act >>= next) := by
  intro d name other
  have before := first d name other
  rw [Run.bind_apply]
  cases run : act d with
  | ok a d' =>
    rw [run] at before
    exact (rest a d' name other).trans before
  | error e d' =>
    rw [run] at before
    exact before

theorem Touches.mono {names' : List String} {act : EStateM Error Directory α}
    (touches : Touches names act) (more : names ⊆ names') : Touches names' act :=
  fun d name other => touches d name (mt (@more name) other)

theorem touches_attempt {broken : Option Bytes → Directory → Directory}
    (harmless : ∀ left d name, name ∉ names →
      (broken left d).entries.get? name = d.entries.get? name) :
    Touches names (attempt broken) := by
  intro d name other
  unfold attempt
  split
  · exact harmless _ _ name other
  · rfl
  · rfl

theorem touches_leave (name : String) : Touches [name] (attempt (leave name)) := by
  apply touches_attempt
  intro left d other apart
  rw [leave, get?_put, if_neg (List.ne_of_not_mem_cons apart)]

theorem touches_idle : Touches [] (attempt fun _ d => d) := touches_attempt fun _ _ _ _ => rfl

theorem touches_get (act : Directory → EStateM Error Directory α)
    (rest : ∀ d name, name ∉ names →
      (Run.answered (act d d)).2.entries.get? name = d.entries.get? name) :
    Touches names (get >>= act) := by
  intro d name other
  rw [Run.bind_apply, Run.get_apply]
  exact rest d name other

theorem touches_put (name : String) (held : Option DirectoryEntry) :
    Touches [name] (modify fun d => d.put name held) := by
  intro d other apart
  rw [Run.modify_apply, Run.answered_ok, get?_put, if_neg (List.ne_of_not_mem_cons apart)]

theorem touches_create (name : String) : Touches [name] (create name) := by
  refine (touches_leave name).bind fun _ => touches_get _ ?_
  intro d other apart
  rcases d.entries.get? name with _ | _ | _
  · exact touches_put name _ d other apart
  · exact touches_put name _ d other apart
  · rfl

theorem touches_write (name : String) (bytes : Bytes) : Touches [name] (write name bytes) :=
  (touches_leave name).bind fun _ => touches_put name _

theorem touches_rename (old new : String) : Touches [old, new] (rename old new) := by
  refine (touches_idle.mono (List.nil_subset _)).bind fun _ => touches_get _ ?_
  intro d other apart
  rw [List.mem_cons, List.mem_singleton, not_or] at apart
  have moved (entry : DirectoryEntry) :
      ((d.put new (some entry)).put old none).entries.get? other = d.entries.get? other := by
    rw [get?_put, if_neg apart.1, get?_put, if_neg apart.2]
  rcases d.entries.get? old with _ | entry
  · rfl
  · rcases d.entries.get? new with _ | _ | _
    · exact moved entry
    · exact moved entry
    · rfl

theorem touches_remove (name : String) : Touches [name] (remove name) := by
  refine (touches_idle.mono (List.nil_subset _)).bind fun _ => touches_get _ ?_
  intro d other apart
  rcases d.entries.get? name with _ | _ | _
  · rfl
  · exact touches_put name none d other apart
  · rfl

theorem touches_read (name : String) : Touches [] (read name) := by
  refine touches_idle.bind fun _ => touches_get _ ?_
  intro d other _
  rcases d.entries.get? name with _ | _ | _ <;> rfl

theorem Touches.map {act : EStateM Error Directory α} (touches : Touches names act) (f : α → β) :
    Touches names (f <$> act) := by
  intro d name other
  have here := touches d name other
  rw [Run.map_apply]
  cases run : act d <;> rw [run] at here <;> exact here

theorem touches_call (call : StoreCall) : Touches call.names (call.run reopen) := by
  cases call with
  | persist id bytes =>
    have temporary : [temporaryName id] ⊆ [temporaryName id, fileName id] := by simp
    have whole := ((touches_create (temporaryName id)).mono temporary).bind fun _ =>
      ((touches_write (temporaryName id) bytes).mono temporary).bind fun _ =>
        ((touches_leave (temporaryName id)).mono temporary).bind fun _ =>
          (touches_rename (temporaryName id) (fileName id)).bind fun _ =>
            (show Touches _ (pure true : EStateM Error Directory Bool) from fun _ _ _ => rfl)
    exact whole.map _
  | forget id => exact (touches_remove (fileName id)).map _
  | load id => exact (touches_read (fileName id)).map _
  | reopen => exact touches_idle.map _

end Touching

theorem temporaryName_inj {a b : NodeId} (h : temporaryName a = temporaryName b) : a = b := by
  apply text_inj
  have letters := congrArg String.toList h
  simp only [temporaryName, String.toList_append] at letters
  exact String.toList_inj.mp (List.append_cancel_right letters)

/-- What a call that did not keep its bytes leaves of a directory, and of whatever is asked later. -/
structure Undone (d d' : Directory) : Prop where
  kept : d'.kept = d.kept
  later : ∀ calls events, (runAll calls { d' with events }).1 = (runAll calls { d with events }).1 ∧
    (runAll calls { d' with events }).2.kept = (runAll calls { d with events }).2.kept

theorem undone_of_kept {d d' : Directory} (plain : Plain d) (plain' : Plain d')
    (kept : d'.kept = d.kept) : Undone d d' := by
  refine ⟨kept, ?_⟩
  intro calls events
  obtain ⟨-, answers, now⟩ := runAll_serve calls (d := { d with events }) plain
  obtain ⟨-, answers', now'⟩ := runAll_serve calls (d := { d' with events }) plain'
  have same : ({ d' with events } : Directory).kept = ({ d with events } : Directory).kept := kept
  rw [same] at answers' now'
  exact ⟨answers'.trans answers.symm, now'.trans now.symm⟩

theorem undone_of_failed {d d' : Directory} {id : NodeId} {bytes : Bytes} {e : Error}
    (plain : Plain d) (failed : ByteStore.persist id bytes d = .error e d') : Undone d d' := by
  have here := spends_call (.persist id bytes) d plain rfl trivial
  rw [StoreCall.run, Run.map_apply, failed] at here
  generalize DiskEvent.spend _ d.events = spent at here
  cases here with
  | broke plain' left same => exact undone_of_kept plain plain' same

theorem file_of_loaded {d d' : Directory} {id : NodeId} {bytes : Bytes}
    (loaded : ByteStore.load id d = .ok (some bytes) d') :
    d.entries.get? (fileName id) = some (.file bytes) := by
  have answer := d.loaded id
  rw [loaded] at answer
  cases answer with
  | found there same =>
    unfold Directory.kept at there
    split at there
    · rename_i bytes' entry
      cases there
      exact entry
    · cases there

/-- What there is to say of calls on a directory in comparison with a store in memory. -/
structure Serves (d : Directory) (m : MemoryStore) (calls : List StoreCall) : Prop where
  unfailing : (∀ e ∈ d.events, e = .works) → (runAll calls d).1 = (m.runAll calls).1
  answers : (m.runAll (StoreCall.answered calls (runAll calls d).1)).1 =
    (runAll calls d).1.filter (·.isOk)
  kept : (m.runAll (StoreCall.answered calls (runAll calls d).1)).2.kept = (runAll calls d).2.kept
  failed : ∀ id bytes e d', ByteStore.persist id bytes (runAll calls d).2 = .error e d' →
    Undone (runAll calls d).2 d'
  /-- Files that are those of no node make no difference. -/
  others : ∀ d', Plain d' → d'.kept = (runAll calls d).2.kept → Undone (runAll calls d).2 d'
  touched : ∀ (call : StoreCall) (name : String), name ∉ call.names →
    (Run.answered (call.run reopen (runAll calls d).2)).2.entries.get? name =
      (runAll calls d).2.entries.get? name
  loaded : ∀ id bytes d', ByteStore.load id (runAll calls d).2 = .ok (some bytes) d' →
    (runAll calls d).2.entries.get? (fileName id) = some (.file bytes)

/-- A directory of files, with whatever happens to its operations, serves as a store in memory does.
Where nothing fails the answers are the same, and else those of the calls that did not fail are. A
failed call to keep bytes might as well not have been made. Each node has a file of its own and a
temporary one of its own, and only a call to keep bytes has to do with the latter. -/
theorem directory_serves {d : Directory} (plain : Plain d) {m : MemoryStore} (same : m.kept = d.kept)
    (calls : List StoreCall) :
    Serves d m calls ∧
      ∀ a b, (fileName a = fileName b → a = b) ∧ (temporaryName a = temporaryName b → a = b) ∧
        fileName a ≠ temporaryName b := by
  obtain ⟨plain', answers, kept⟩ := runAll_serve calls plain
  have others := StoreCall.serve_answered calls d.kept d.events
  rw [← answers, ← kept, ← same] at others
  refine ⟨⟨?_, ?_, ?_, ?_, ?_, ?_, ?_⟩, ?_⟩
  · intro working
    rw [answers, (m.runAll_serve calls).1, same, StoreCall.serve_working calls _ working]
  · rw [(m.runAll_serve _).1, others]
  · rw [(m.runAll_serve _).2, others]
  · intro id bytes e d' failed
    exact undone_of_failed plain' failed
  · intro d' other kept'
    exact undone_of_kept plain' other kept'
  · intro call name other
    exact touches_call call _ name other
  · intro id bytes d' loaded
    exact file_of_loaded loaded
  · intro a b
    exact ⟨fileName_inj, temporaryName_inj, fileName_ne_temporaryName a b⟩

/-- An empty directory in which each step of keeping bytes breaks once. -/
def drive : Directory where
  events := [.breaks none, .works, .breaks (some [7]), .works, .works, .breaks (some [7, 7]),
    .works, .works, .works, .breaks none]

def driveCalls : List StoreCall :=
  [.persist ⟨5⟩ [1], .persist ⟨5⟩ [2], .persist ⟨5⟩ [3], .persist ⟨5⟩ [4], .reopen, .load ⟨5⟩,
    .persist ⟨6⟩ [8], .forget ⟨5⟩, .load ⟨6⟩]

theorem drive_serves : Plain drive ∧ MemoryStore.kept {} = drive.kept ∧
    (runAll driveCalls drive).1.map Except.toOption =
      [none, none, none, none, some .opened, some (.loaded none), some (.persisted true),
        some (.forgot false), some (.loaded (some [8]))] ∧
    Serves drive {} driveCalls := by
  have plain : Plain drive := fun name entry => nomatch entry
  have empty : drive.kept = fun _ => none := rfl
  refine ⟨plain, rfl, ?_, (directory_serves plain rfl driveCalls).1⟩
  rw [(runAll_serve driveCalls plain).2.1, empty]
  decide +kernel

end Directory

end GraphJournal
