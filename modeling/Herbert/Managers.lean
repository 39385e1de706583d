import Herbert.WalOrder
import Herbert.Metadata
/-!
# One manager, many calls

Any number of threads call `create`, `add` and `fetch` on one `TopicManager`.
`add` holds the read guard of `topic_metadatas` until it returns, and in between
takes the steps of `Threads` with the map it read. `create` needs the write
guard, for one step. `fetch` asks the backend alone; a call of the backend is one
step. Alone, a thread does what the manager's own function does (`solo_create`,
`solo_fetch`, and `Threads.solo_add`).

`At` says what a thread knows at each place, `Inv` what holds in every reachable
state, and `metadata_shape` that no schedule can put a raw record behind a batch.
-/
open Lib Lib.Bytes Lib.Runs Lib.Mutex herbert.WriteAheadLog herbert.WalOrder herbert.Metadata
open herbert.TopicManager (stored_record)

namespace herbert.Managers

variable {ι σ ρ : Type}

/-! ## The system -/

inductive Call (σ : Type) where
  | create (topic : String) (schema : Option σ)
  | add (topic : String) (record : Bytes)
  | fetch (topic : String) (fetch_offset : Int)

inductive Answer where
  | created (result : Except HerbertError Unit)
  | added (result : Except HerbertError Unit)
  | fetched (result : Except HerbertError Bytes)

/-- Where a call is. -/
inductive Phase (σ : Type) where
  | ready (call : Call σ)
  /-- `add` with its read guard, and the map behind it. -/
  | adding (topic : String) (record : Bytes) (read : HashMap String (TopicMetadata σ))
  | returned (answer : Answer)

structure State (ι σ ρ : Type) where
  topic_metadatas : HashMap String (TopicMetadata σ)
  /-- The calls that hold a read guard. -/
  readers : Finset ι
  threads : Threads.State ι σ ρ
  phase : ι → Phase σ

/-- The manager the calls work on. -/
def State.tm (s : State ι σ ρ) : TopicManager σ ρ (InMemoryLog σ ρ) :=
  ⟨s.threads.backend, s.topic_metadatas, s.threads.wal⟩

/-- The calls are about to begin on a manager. -/
def start (tm : TopicManager σ ρ (InMemoryLog σ ρ)) (calls : ι → Call σ) : State ι σ ρ where
  topic_metadatas := tm.topic_metadatas
  readers := ∅
  threads := ⟨tm.wal, tm.backend, none, none, fun _ => .ready, [], []⟩
  phase i := .ready (calls i)

/-- A manager between calls, when `recover` has returned: its log and its file
hold `base`, and nothing is buffered. -/
structure Recovered (ipc : ArrowIpc σ ρ) (base : History σ ρ) (tm : TopicManager σ ρ (InMemoryLog σ ρ)) : Prop where
  log : Holds tm.backend base
  file : tm.wal.file.Holds (frame ipc) base base.length
  buffer : tm.wal.buffer = []

theorem recovered_new {ipc : ArrowIpc σ ρ} (config : Config) :
    Recovered ipc [] (.new .new config [] : TopicManager σ ρ (InMemoryLog σ ρ)) :=
  ⟨holds_new, ⟨Nat.le_refl _, rfl, rfl⟩, rfl⟩

/-- What an `add` works with, once it has its guard. -/
def setup (ipc : ArrowIpc σ ρ) (topic : String) (record : Bytes) (read : HashMap String (TopicMetadata σ)) :
    Threads.Setup ι σ ρ :=
  ⟨ipc, read, fun _ => (topic, record)⟩

section
variable [DecidableEq ι] [DecidableEq σ] (ipc : ArrowIpc σ ρ)

/-- The next step of thread `i`; `none` if it waits for a guard or a lock, or has
returned. -/
def step (s : State ι σ ρ) (i : ι) : Option (State ι σ ρ) :=
  let go (phase : Phase σ) := Function.update s.phase i phase
  match s.phase i with
  | .ready (.create topic schema) =>
    if s.readers = ∅ then
      let (result, tm) := s.tm.create topic schema
      some { s with topic_metadatas := tm.topic_metadatas, phase := go (.returned (.created result)) }
    else none
  | .ready (.add topic record) =>
    some { s with readers := insert i s.readers, phase := go (.adding topic record s.topic_metadatas) }
  | .ready (.fetch topic fetch_offset) =>
    let (result, tm) := s.tm.fetch ipc topic fetch_offset
    some { s with
      threads := { s.threads with backend := tm.backend }, phase := go (.returned (.fetched result)) }
  | .adding topic record read =>
    -- the guard is dropped on return
    match s.threads.pc i with
    | .failed e => some { s with readers := s.readers.erase i, phase := go (.returned (.added (.error e))) }
    | .adding .done _ => some { s with readers := s.readers.erase i, phase := go (.returned (.added (.ok ()))) }
    | _ => (Threads.step (setup ipc topic record read) s.threads i).map fun threads => { s with threads }
  | .returned _ => none

/-- What one step can be. -/
inductive Move (s : State ι σ ρ) (i : ι) : State ι σ ρ → Prop
  | create (t schema) : s.phase i = .ready (.create t schema) → s.readers = ∅ →
      Move s i { s with
        topic_metadatas := (s.tm.create t schema).2.topic_metadatas,
        phase := Function.update s.phase i (.returned (.created (s.tm.create t schema).1)) }
  | enter (t record) : s.phase i = .ready (.add t record) →
      Move s i { s with
        readers := insert i s.readers, phase := Function.update s.phase i (.adding t record s.topic_metadatas) }
  | fetch (t o) : s.phase i = .ready (.fetch t o) →
      Move s i { s with
        threads := { s.threads with backend := (s.threads.backend.fetch ipc t o).2 },
        phase := Function.update s.phase i (.returned (.fetched (s.threads.backend.fetch ipc t o).1)) }
  | inside (t record read threads) : s.phase i = .adding t record read →
      Threads.step (setup ipc t record read) s.threads i = some threads → Move s i { s with threads }
  | reject (t record read e) : s.phase i = .adding t record read → s.threads.pc i = .failed e →
      Move s i { s with
        readers := s.readers.erase i, phase := Function.update s.phase i (.returned (.added (.error e))) }
  | accept (t record read e) : s.phase i = .adding t record read → s.threads.pc i = .adding .done e →
      Move s i { s with
        readers := s.readers.erase i, phase := Function.update s.phase i (.returned (.added (.ok ()))) }

variable {ipc} {s s' : State ι σ ρ} {i : ι}

theorem step_move (hs : step ipc s i = some s') : Move ipc s i s' := by
  unfold step at hs
  cases hi : s.phase i with
  | ready call =>
    cases call with
    | create t schema =>
      simp only [hi, Option.ite_none_right_eq_some, Option.some.injEq] at hs
      obtain ⟨hfree, rfl⟩ := hs
      exact .create t schema hi hfree
    | add t record =>
      simp only [hi, Option.some.injEq] at hs
      exact hs ▸ .enter t record hi
    | fetch t o =>
      simp only [hi, Option.some.injEq] at hs
      exact hs ▸ .fetch t o hi
  | adding t record read =>
    simp only [hi] at hs
    split at hs
    · rename_i e hpc
      cases hs
      exact .reject t record read e hi hpc
    · rename_i e hpc
      cases hs
      exact .accept t record read e hi hpc
    · obtain ⟨threads, hstep, rfl⟩ := Option.map_eq_some_iff.1 hs
      exact .inside t record read threads hi hstep
  | returned answer => simp [hi] at hs

theorem solo_create {t : String} {schema : Option σ} (hi : s.phase i = .ready (.create t schema))
    (hfree : s.readers = ∅) :
    ∃ s', step ipc s i = some s' ∧ s'.tm = (s.tm.create t schema).2 ∧
      s'.phase i = .returned (.created (s.tm.create t schema).1) := by
  refine ⟨_, by simp [step, hi, hfree]; rfl, ?_, by simp⟩
  have hwal := TopicManager.wal_create s.tm t schema
  have hback := TopicManager.backend_create s.tm t schema
  cases h : (s.tm.create t schema).2 with
  | mk backend topic_metadatas wal =>
    rw [h] at hwal hback
    simp only [State.tm] at hwal hback ⊢
    rw [hwal, hback]

theorem solo_fetch {t : String} {o : Int} (hi : s.phase i = .ready (.fetch t o)) :
    ∃ s', step ipc s i = some s' ∧ s'.tm = (s.tm.fetch ipc t o).2 ∧
      s'.phase i = .returned (.fetched (s.tm.fetch ipc t o).1) :=
  ⟨_, by simp [step, hi]; rfl, rfl, by simp⟩

omit [DecidableEq ι] [DecidableEq σ] in
/-- `create` looks at the topics alone. -/
theorem create_same {tm tm' : TopicManager σ ρ (InMemoryLog σ ρ)} (h : tm.topic_metadatas = tm'.topic_metadatas)
    (t : String) (schema : Option σ) :
    (tm.create t schema).1 = (tm'.create t schema).1 ∧
      (tm.create t schema).2.topic_metadatas = (tm'.create t schema).2.topic_metadatas := by
  obtain ⟨backend, topic_metadatas, wal⟩ := tm
  obtain ⟨backend', topic_metadatas', wal'⟩ := tm'
  cases h
  unfold TopicManager.create TopicManager.topic_exists
  split <;> exact ⟨rfl, rfl⟩

/-! ## What a thread knows -/

variable (ipc) in
/-- `add` refuses the record, and this is its error. -/
def Refuses (read : HashMap String (TopicMetadata σ)) (t : String) (record : Bytes) (e : HerbertError) : Prop :=
  stored_record ipc read t record = .error e ∨
    ∃ r, stored_record ipc read t record = .ok r ∧ serialize ipc t r = .error e

theorem Refuses.add {tm : TopicManager σ ρ (InMemoryLog σ ρ)} {t : String} {record : Bytes} {e : HerbertError}
    (h : Refuses ipc tm.topic_metadatas t record e) : tm.add ipc t record = (.error e, tm) := by
  rcases h with hr | ⟨r, hr, hs⟩
  · exact TopicManager.add_error tm hr
  · exact TopicManager.add_unserialized tm hr hs

variable (ipc) in
/-- What is known of a call from its phase and its place. -/
inductive At : Call σ → Phase σ → Threads.Pc σ ρ → Prop
  | ready (call) : At call (.ready call) .ready
  | created (t schema result) : At (.create t schema) (.returned (.created result)) .ready
  | fetched (t o result) : At (.fetch t o) (.returned (.fetched result)) .ready
  | entered (t record read) : At (.add t record) (.adding t record read) .ready
  | adding (t record read r place) : stored_record ipc read t record = .ok r → Writable ipc r →
      At (.add t record) (.adding t record read) (.adding place (t, r))
  | refused (t record read e) : Refuses ipc read t record e →
      At (.add t record) (.adding t record read) (.failed e)
  | added (t record e) : At (.add t record) (.returned (.added (.ok ()))) (.adding .done e)
  | failed (t record e) : At (.add t record) (.returned (.added (.error e))) (.failed e)

variable {th th' : Threads.State ι σ ρ} {t : String} {record : Bytes} {read : HashMap String (TopicMetadata σ)}

/-- The first step inside an `add`: it refuses the record or writes its frame. -/
theorem first_step (hi : th.pc i = .ready) (hs : Threads.step (setup ipc t record read) th i = some th') :
    (∃ e, Refuses ipc read t record e ∧ th' = { th with pc := Function.update th.pc i (.failed e) }) ∨
    ∃ r, stored_record ipc read t record = .ok r ∧ Writable ipc r ∧ th' = { th with
      wal := { th.wal with file := th.wal.file.write (frame ipc (t, r)) }, fileLock := some i,
      pc := Function.update th.pc i (.adding .written (t, r)), logged := th.logged ++ [(i, t, r)] } := by
  unfold Threads.step at hs
  simp only [hi, setup] at hs
  split at hs
  · rename_i e hr
    cases hs
    exact .inl ⟨e, .inl hr, rfl⟩
  · rename_i r hr
    split at hs
    · split at hs
      · rename_i e he
        cases hs
        exact .inl ⟨e, .inr ⟨r, hr, he⟩, rfl⟩
      · rename_i buffer hbuf
        cases hs
        rw [serialize_ok ipc hbuf]
        exact .inr ⟨r, hr, writable_of_serialize ipc hbuf, rfl⟩
    · cases hs

/-- A later step moves on with the record, or hands one over. -/
theorem later_step {place : Threads.Place} {e : String × StoredRecord σ ρ} (hi : th.pc i = .adding place e)
    (hs : Threads.step (setup ipc t record read) th i = some th') :
    ∃ place', th'.pc = Function.update th.pc i (.adding place' e) ∧ th'.logged = th.logged := by
  have hsame : Function.update th.pc i (.adding place e) = th.pc := by rw [← hi, Function.update_eq_self]
  cases Threads.step_move hs with
  | fail e' hpc => rw [hi] at hpc; cases hpc
  | write r hpc => rw [hi] at hpc; cases hpc
  | hand e' x rest hpc => exact ⟨place, hsame.symm, rfl⟩
  | push e' hpc | unlock e' hpc | enough e' hpc | few e' hpc | flush e' hpc | drain e' hpc | finish e' hpc =>
    rw [hi] at hpc
    cases hpc
    exact ⟨_, rfl, rfl⟩

/-- A thread moves nobody else. -/
theorem pc_inside (hs : Threads.step (setup ipc t record read) th i = some th') {j : ι} (hj : j ≠ i) :
    th'.pc j = th.pc j := by
  cases Threads.step_move hs with
  | hand e x rest hpc => rfl
  | _ => exact Function.update_of_ne hj _ _

omit [DecidableEq ι] in
theorem At.of_ready {call call' : Call σ} {pc : Threads.Pc σ ρ} (h : At ipc call (.ready call') pc) :
    call = call' ∧ pc = .ready := by
  cases h
  exact ⟨rfl, rfl⟩

omit [DecidableEq ι] in
theorem At.of_adding {call : Call σ} {pc : Threads.Pc σ ρ} (h : At ipc call (.adding t record read) pc) :
    call = .add t record := by
  cases h <;> rfl

/-- A thread inside `add` still knows what it knew. -/
theorem At.inside {call : Call σ} (h : At ipc call (.adding t record read) (th.pc i))
    (hs : Threads.step (setup ipc t record read) th i = some th') :
    At ipc call (.adding t record read) (th'.pc i) := by
  generalize hpc : th.pc i = pc at h
  cases h with
  | entered =>
    rcases first_step hpc hs with ⟨e, he, rfl⟩ | ⟨r, hr, hw, rfl⟩
    · simpa using At.refused t record read e he
    · simpa using At.adding t record read r .written hr hw
  | adding _ _ _ r place hr hw =>
    obtain ⟨place', hpc', -⟩ := later_step hpc hs
    rw [hpc', Function.update_self]
    exact .adding t record read r place' hr hw
  | refused _ _ _ e he =>
    rw [Threads.step, hpc] at hs
    cases hs

/-! ## The invariant -/

def isAdding : Phase σ → Bool
  | .adding _ _ _ => true
  | _ => false

variable (ipc) in
/-- Readers and threads agree, a guard's map is the current one, and the parts of
`WalOrder.Inv` that do not depend on the metadata. -/
structure Inv (config : Config) (base : History σ ρ) (calls : ι → Call σ) (s : State ι σ ρ) : Prop where
  config : s.threads.wal.config = config
  guards : Shares s.readers isAdding s.phase
  current : ∀ i t record read, s.phase i = .adding t record read → read = s.topic_metadatas
  place : ∀ i, At ipc (calls i) (s.phase i) (s.threads.pc i)
  locked : Locked s.threads
  ordered : Ordered ipc base s.threads
  logged : Logged s.threads
  attended : Attended s.threads
  returned : Returned s.threads

variable {config : Config} {base : History σ ρ} {calls : ι → Call σ}

omit [DecidableEq ι] in
theorem inv_start {tm : TopicManager σ ρ (InMemoryLog σ ρ)} (h : Recovered ipc base tm) (calls : ι → Call σ) :
    Inv ipc tm.wal.config base calls (start tm calls) where
  config := rfl
  guards := by simp [Shares, start, isAdding]
  current := by simp [start]
  place i := .ready (calls i)
  locked := ⟨guards_free fun _ => rfl, guards_free fun _ => rfl⟩
  ordered := ⟨⟨[], rfl, by simp [start, h.buffer]⟩, by simpa [start] using h.file.contents, by simpa [start] using h.log⟩
  logged := ⟨by simp [start], by simp [start]⟩
  attended := by simp [Attended, start, h.buffer]
  returned := by simp [Returned, start]

/-- A thread that is not inside `add` moves to another phase. -/
theorem Inv.phase (h : Inv ipc config base calls s) {p : Phase σ} (hcurrent : ∀ j t record read,
    s'.phase j = .adding t record read → read = s'.topic_metadatas)
    (hpc : s'.phase = Function.update s.phase i p) (hguards : Shares s'.readers isAdding s'.phase)
    (hthreads : s'.threads = s.threads) (hplace : At ipc (calls i) p (s.threads.pc i)) :
    Inv ipc config base calls s' where
  config := by rw [hthreads]; exact h.config
  guards := hguards
  current := hcurrent
  place j := by
    rw [hthreads, hpc]
    by_cases hj : j = i
    · subst hj
      rw [Function.update_self]
      exact hplace
    · rw [Function.update_of_ne hj]
      exact h.place j
  locked := by rw [hthreads]; exact h.locked
  ordered := by rw [hthreads]; exact h.ordered
  logged := by rw [hthreads]; exact h.logged
  attended := by rw [hthreads]; exact h.attended
  returned := by rw [hthreads]; exact h.returned

/-- The threads inside `add` keep their maps while nobody changes the map. -/
theorem Inv.current_update (h : Inv ipc config base calls s) {p : Phase σ}
    (hp : ∀ t record read, p = .adding t record read → read = s.topic_metadatas) (j : ι) (t : String) (record : Bytes)
    (read : HashMap String (TopicMetadata σ)) (hj : Function.update s.phase i p j = .adding t record read) :
    read = s.topic_metadatas := by
  rcases moved hj with ⟨-, hpi⟩ | hj
  · exact hp t record read hpi
  · exact h.current j t record read hj

theorem inv_inside (h : Inv ipc config base calls s) {threads : Threads.State ι σ ρ}
    (hi : s.phase i = .adding t record read)
    (hs : Threads.step (setup ipc t record read) s.threads i = some threads) :
    Inv ipc config base calls { s with threads } := by
  have hm := Threads.step_move hs
  have hconfig : threads.wal.config = s.threads.wal.config := by cases hm <;> rfl
  refine ⟨hconfig.trans h.config, h.guards, h.current, fun j => ?_, locked_step h.locked hm,
    ordered_step h.locked h.ordered hm, logged_step h.logged hm, attended_step h.attended hm,
    returned_step h.locked h.ordered h.logged h.returned hm⟩
  by_cases hj : j = i
  · subst hj
    have := h.place j
    rw [hi] at this
    simp only [hi]
    exact this.inside hs
  · simp only [pc_inside hs hj]
    exact h.place j

theorem inv_step (h : Inv ipc config base calls s) (hs : step ipc s i = some s') : Inv ipc config base calls s' := by
  have hplace := h.place i
  cases step_move hs with
  | create t schema hi hfree =>
    have hg := h.guards
    rw [hfree] at hg
    rw [hi] at hplace
    refine h.phase (fun j t' record read hj => ?_) rfl (by rw [hfree]; exact hg.keep (by rw [hi]; rfl)) rfl ?_
    · -- nobody holds a guard
      have hout := hg.outside j
      rcases moved hj with ⟨-, hp⟩ | hj
      · cases hp
      · rw [hj] at hout
        cases hout
    · rw [hplace.of_ready.1, hplace.of_ready.2]
      exact .created t schema _
  | enter t record hi =>
    rw [hi] at hplace
    refine h.phase (h.current_update ?_) rfl (h.guards.enter rfl) rfl ?_
    · rintro _ _ _ ⟨⟩
      rfl
    · rw [hplace.of_ready.1, hplace.of_ready.2]
      exact .entered t record _
  | fetch t o hi =>
    rw [hi] at hplace
    have h' : Inv ipc config base calls
        { s with threads := { s.threads with backend := (s.threads.backend.fetch ipc t o).2 } } :=
      ⟨h.config, h.guards, h.current, h.place, ⟨h.locked.file, h.locked.buffer⟩,
        ⟨h.ordered.order, h.ordered.file, h.ordered.backend.fetch ipc t o⟩, ⟨h.logged.logged, h.logged.once⟩,
        h.attended, h.returned⟩
    refine h'.phase (h'.current_update (by simp)) rfl (h.guards.keep (by rw [hi]; rfl)) rfl ?_
    show At ipc _ _ (s.threads.pc i)
    rw [hplace.of_ready.1, hplace.of_ready.2]
    exact .fetched t o _
  | inside t record read threads hi hstep => exact inv_inside h hi hstep
  | reject t record read e hi hpc =>
    rw [hi] at hplace
    refine h.phase (h.current_update (by simp)) rfl (h.guards.leave rfl) rfl ?_
    rw [hpc, hplace.of_adding]
    exact .failed t record e
  | accept t record read e hi hpc =>
    rw [hi] at hplace
    refine h.phase (h.current_update (by simp)) rfl (h.guards.leave rfl) rfl ?_
    rw [hpc, hplace.of_adding]
    exact .added t record e

theorem inv_run {tm : TopicManager σ ρ (InMemoryLog σ ρ)} (h : Recovered ipc base tm) {tr}
    (hr : Run (step ipc) (start tm calls) tr s) : Inv ipc tm.wal.config base calls s :=
  hr.inv (Inv ipc tm.wal.config base calls) (inv_start h calls) fun _ _ _ => inv_step

/-! ## The shape of the logs -/

/-- The records a thread has written are those of its topic's metadata. -/
def AllShaped (base : History σ ρ) (s : State ι σ ρ) : Prop :=
  ∀ t, Shaped (s.topic_metadatas.lookup t) (History.ofTopic t (base ++ s.threads.logged.map (·.2)))

theorem allShaped_inside (hinv : Inv ipc config base calls s) (h : AllShaped base s)
    {threads : Threads.State ι σ ρ} (hi : s.phase i = .adding t record read)
    (hs : Threads.step (setup ipc t record read) s.threads i = some threads) :
    AllShaped base { s with threads } := by
  have hplace := hinv.place i
  rw [hi] at hplace
  intro t'
  have ht' := h t'
  cases hpc : s.threads.pc i with
  | failed e =>
    rw [Threads.step, hpc] at hs
    cases hs
  | adding place e =>
    obtain ⟨-, -, hlogged⟩ := later_step hpc hs
    simpa only [hlogged] using ht'
  | ready =>
    rcases first_step hpc hs with ⟨e, -, rfl⟩ | ⟨r, hr, -, rfl⟩
    · exact ht'
    · -- what was checked against the map the guard shows goes behind the topic's records
      rw [hinv.current i t record read hi] at hr
      simp only [List.map_append, ← List.append_assoc, History.ofTopic_append, List.map_cons, List.map_nil,
        History.ofTopic_singleton] at ht' ⊢
      split
      · rename_i ht
        subst ht
        exact ht'.stored hr
      · simpa using ht'

theorem allShaped_step (hinv : Inv ipc config base calls s) (h : AllShaped base s) (hs : step ipc s i = some s') :
    AllShaped base s' := by
  cases step_move hs with
  | create t schema hi hfree =>
    intro t'
    show Shaped ((s.tm.create t schema).2.topic_metadatas.lookup t') _
    rw [TopicManager.lookup_create]
    split
    · rename_i hnew
      obtain ⟨rfl, hnone⟩ := hnew
      have := h t'
      rw [show s.topic_metadatas.lookup t' = none from hnone] at this
      exact this.create _
    · exact h t'
  | inside t record read threads hi hstep => exact allShaped_inside hinv h hi hstep
  | enter t record hi | fetch t o hi | reject t record read e hi | accept t record read e hi => exact h

/-- However `create`, `add` and `fetch` overlap, the frames written of a topic are
raw records, then batches of one schema, the one in the topic's metadata; what
fetch sees of a topic is the first of them, and comes out in this order. -/
theorem metadata_shape (hipc : ipc.Lawful) {tm : TopicManager σ ρ (InMemoryLog σ ρ)} (h : Recovered ipc base tm)
    (hshape : ∀ t, Shaped (tm.topic_metadatas.lookup t) (base.ofTopic t)) {tr}
    (hr : Run (step ipc) (start tm calls) tr s) (t : String) :
    Shaped (s.topic_metadatas.lookup t) (History.ofTopic t (base ++ s.threads.logged.map (·.2))) ∧
      s.threads.backend.queue t <+: History.ofTopic t (base ++ s.threads.logged.map (·.2)) ∧
      ∀ o : Int, 0 ≤ o → o < 2 ^ 63 → o < entryCount (s.threads.backend.queue t) → InOrder ipc s.threads.backend t o := by
  have hinv := inv_run h hr
  have hall : Inv ipc tm.wal.config base calls s ∧ AllShaped base s :=
    hr.inv (fun s => Inv ipc tm.wal.config base calls s ∧ AllShaped base s)
      ⟨inv_start h calls, fun t => by simpa [start] using hshape t⟩
      fun _ _ _ hi hs => ⟨inv_step hi.1 hs, allShaped_step hi.1 hi.2 hs⟩
  have hprefix : s.threads.backend.queue t <+: History.ofTopic t (base ++ s.threads.logged.map (·.2)) := by
    rw [hinv.ordered.backend.queue]
    apply History.ofTopic_isPrefix
    rw [List.prefix_append_right_inj, ← hinv.ordered.take, List.map_take]
    exact List.take_prefix _ _
  exact ⟨hall.2 t, hprefix, fun o h0 h1 hlt =>
    ((hall.2 t).of_isPrefix hprefix).inOrder hipc hinv.ordered.backend h0 h1 hlt⟩

end

/-- A raw record is written, then the topic is created, then a batch is written. -/
theorem metadata_shape_pocket :
    let calls : Fin 3 → Call UInt8
      | 0 => .add "t" [5]
      | 1 => .create "t" (some 7)
      | 2 => .add "t" [255, 255, 255, 255, 7, 3, 1, 1, 2, 0, 0, 0]
    ∃ tr s, Run (step pocketIpc) (start (.new .new ⟨2⟩ []) calls) tr s ∧
      s.threads.logged.map (·.2) = [("t", .Raw [5]), ("t", .Batch ⟨7, [1]⟩)] ∧
      Shaped (s.topic_metadatas.lookup "t") (History.ofTopic "t" (s.threads.logged.map (·.2))) := by
  intro calls
  have he : exec (step pocketIpc) (start (.new .new ⟨2⟩ []) calls) [0, 0, 0, 0, 0, 0, 1, 2, 2, 2, 2] = some _ := rfl
  obtain ⟨tr, hr, -⟩ := Run.nil.exec he
  exact ⟨_, _, hr, rfl, (metadata_shape pocketIpc_framed.toLawful (recovered_new ⟨2⟩) (fun _ => shaped_nil _) hr "t").1⟩

end herbert.Managers
