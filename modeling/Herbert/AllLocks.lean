import Herbert.Serial
import Herbert.Slices
/-!
# The manager with the locks of its log

The calls of `Managers` with every lock of the server: when a drain hands a
record to the log, or a call fetches, the thread takes the steps of `Locks` for
it, one for each time it takes `topics` or `offsets` or gives them back. The
iterator of `drain(..)` takes a record out of the WAL buffer before `backend.add`
is called with it.

`Sim` ties a state to one of `Managers`, where these calls are one step. So with
at most one uncommitted message all calls are still linearizable.
-/
open Lib Lib.Bytes Lib.Runs Lib.Mutex herbert.WriteAheadLog herbert.WalOrder herbert.Managers herbert.InMemoryLog

namespace herbert.AllLocks

variable {ι σ ρ : Type}

/-! ## The system -/

structure State (ι σ ρ : Type) where
  manager : Managers.State ι σ ρ
  topics : Option ι
  offsets : Option ι
  /-- Where a thread is in the log; `.added` outside. -/
  call : ι → Locks.Pc σ ρ

/-- The log, for the threads in it. -/
def State.log (s : State ι σ ρ) : Locks.State ι σ ρ := ⟨s.manager.threads.backend, s.topics, s.offsets, s.call⟩

def start (tm : TopicManager σ ρ (InMemoryLog σ ρ)) (calls : ι → Call σ) : State ι σ ρ :=
  ⟨Managers.start tm calls, none, none, fun _ => .added⟩

/-- The record that a step in the log pushes. -/
def pushes : Locks.Pc σ ρ → History σ ρ
  | .addBoth t r => [(t, r)]
  | _ => []

/-- After a step in the log. -/
def State.withLog (s : State ι σ ρ) (log : Locks.State ι σ ρ) (handed : History σ ρ) : State ι σ ρ where
  manager := { s.manager with threads := { s.manager.threads with
    backend := log.log, handed := s.manager.threads.handed ++ handed } }
  topics := log.topics
  offsets := log.offsets
  call := log.pc

section
variable [DecidableEq ι] [DecidableEq σ] (ipc : ArrowIpc σ ρ)

/-- The next step of thread `i`; `none` if it waits or has returned. -/
def step (s : State ι σ ρ) (i : ι) : Option (State ι σ ρ) :=
  match s.call i with
  | .fetched result =>
    some { s with
      manager := { s.manager with phase := Function.update s.manager.phase i (.returned (.fetched result)) },
      call := Function.update s.call i .added }
  | .added =>
    match s.manager.phase i, s.manager.threads.pc i, s.manager.threads.wal.buffer with
    | .ready (.fetch t o), _, _ => some { s with call := Function.update s.call i (.ready (.fetch t o)) }
    | .adding _ _ _, .adding .draining _, (t, r) :: rest =>
      some { s with
        manager := { s.manager with threads := { s.manager.threads with
          wal := { s.manager.threads.wal with buffer := rest } } },
        call := Function.update s.call i (.ready (.add t r)) }
    | _, _, _ => (Managers.step ipc s.manager i).map fun manager => { s with manager }
  | pc => (Locks.step ipc s.log i).map fun log => s.withLog log (pushes pc)

/-- A thread has nothing to do with the log now. -/
def Outside (s : State ι σ ρ) (i : ι) : Prop :=
  s.call i = .added ∧ (∀ t o, s.manager.phase i ≠ .ready (.fetch t o)) ∧
    ∀ t record read e, s.manager.phase i = .adding t record read → s.manager.threads.pc i = .adding .draining e →
      s.manager.threads.wal.buffer = []

/-- What one step can be. -/
inductive Move (s : State ι σ ρ) (i : ι) : State ι σ ρ → Prop
  | begin_fetch (t o) : s.call i = .added → s.manager.phase i = .ready (.fetch t o) →
      Move s i { s with call := Function.update s.call i (.ready (.fetch t o)) }
  | end_fetch (result) : s.call i = .fetched result →
      Move s i { s with
        manager := { s.manager with phase := Function.update s.manager.phase i (.returned (.fetched result)) },
        call := Function.update s.call i .added }
  | pop (t record read e x rest) : s.call i = .added → s.manager.phase i = .adding t record read →
      s.manager.threads.pc i = .adding .draining e → s.manager.threads.wal.buffer = x :: rest →
      Move s i { s with
        manager := { s.manager with threads := { s.manager.threads with
          wal := { s.manager.threads.wal with buffer := rest } } },
        call := Function.update s.call i (.ready (.add x.1 x.2)) }
  | inside (log) : Locks.step ipc s.log i = some log → Move s i (s.withLog log (pushes (s.call i)))
  | manager (manager) : Outside s i → Managers.step ipc s.manager i = some manager → Move s i { s with manager }

variable {ipc} {s s' : State ι σ ρ} {i : ι}

theorem step_move (hs : step ipc s i = some s') : Move ipc s i s' := by
  unfold step at hs
  split at hs
  · rename_i result hi
    cases hs
    exact .end_fetch result hi
  · rename_i hi
    split at hs
    · rename_i t o hp
      cases hs
      exact .begin_fetch t o hi hp
    · rename_i t record read e u r rest hp hpc hbuf
      cases hs
      exact .pop t record read e (u, r) rest hi hp hpc hbuf
    · rename_i hfetch hpop
      obtain ⟨manager, hm, rfl⟩ := Option.map_eq_some_iff.1 hs
      refine .manager manager ⟨hi, fun t o hp => hfetch t o hp, fun t record read e hp hpc => ?_⟩ hm
      cases hbuf : s.manager.threads.wal.buffer with
      | nil => rfl
      | cons x rest => exact absurd hbuf (hpop t record read e x.1 x.2 rest hp hpc)
  · obtain ⟨log, hlog, rfl⟩ := Option.map_eq_some_iff.1 hs
    exact .inside log hlog

end

/-! ## The state above -/

/-- The record that a thread in the log has yet to push. -/
def inflight : Locks.Pc σ ρ → History σ ρ
  | .ready (.add t r) | .addTopics t r | .addBoth t r => [(t, r)]
  | _ => []

/-- The record that is neither in the WAL buffer nor in the log. -/
def pending (s : State ι σ ρ) : History σ ρ :=
  match s.manager.threads.bufferLock with
  | none => []
  | some i => inflight (s.call i)

/-- The answer of a fetch that has taken effect. -/
def answer : Locks.Pc σ ρ → Option (Except HerbertError Bytes)
  | .fetchOffsets _ none => some (.ok [])
  | .fetchBoth result | .fetchDropped result | .fetched result => some result
  | _ => none

/-- A fetch that has taken effect has returned. -/
def phaseOf (s : State ι σ ρ) (i : ι) : Phase σ :=
  match answer (s.call i) with
  | some result => .returned (.fetched result)
  | none => s.manager.phase i

/-- The manager with a log whose calls are one step. -/
def above (s : State ι σ ρ) (log : InMemoryLog σ ρ) : Managers.State ι σ ρ where
  topic_metadatas := s.manager.topic_metadatas
  readers := s.manager.readers
  threads := { s.manager.threads with
    backend := log, wal := { s.manager.threads.wal with buffer := pending s ++ s.manager.threads.wal.buffer } }
  phase := phaseOf s

/-- What a thread does in the log. -/
def Within : Locks.Pc σ ρ → Phase σ → Threads.Pc σ ρ → Prop
  | .added, _, _ => True
  | .ready (.add _ _), phase, pc | .addTopics _ _, phase, pc | .addBoth _ _, phase, pc | .addDropped, phase, pc =>
    (∃ t record read, phase = .adding t record read) ∧ ∃ e, pc = .adding .draining e
  | .ready (.fetch t o), phase, _ => phase = .ready (.fetch t o)
  | .fetchOffsets _ _, phase, _ | .fetchBoth _, phase, _ | .fetchDropped _, phase, _ | .fetched _, phase, _ =>
    ∃ t o, phase = .ready (.fetch t o)

/-- The log of the state above has the records of the log. -/
structure Sim (s : State ι σ ρ) (log : InMemoryLog σ ρ) : Prop where
  within : ∀ i, Within (s.call i) (s.manager.phase i) (s.manager.threads.pc i)
  found : ∀ i t found, s.call i = .fetchOffsets t found → ∃ o, s.manager.phase i = .ready (.fetch t o) ∧
    getOffset (s.manager.threads.backend.offset_queue t) (asUsize o) = found
  indexed : Slices.Indexed s.log
  queue : ∀ t, s.manager.threads.backend.queue t = log.queue t

section
variable {ipc : ArrowIpc σ ρ} {s s' : State ι σ ρ} {log log' : InMemoryLog σ ρ} {i : ι}

theorem phaseOf_outside (h : s.call i = .added) : phaseOf s i = s.manager.phase i := by
  rw [phaseOf, h]; rfl

theorem pending_held (h : s.manager.threads.bufferLock = some i) : pending s = inflight (s.call i) := by
  rw [pending, h]

theorem pending_free (h : s.manager.threads.bufferLock = none) : pending s = [] := by
  rw [pending, h]

variable [DecidableEq ι]

/-- A thread outside the log changes its phase. -/
theorem phaseOf_update {p : Phase σ} (hi : s'.call i = .added) (hcall : ∀ j, j ≠ i → s'.call j = s.call j)
    (hphase : s'.manager.phase = Function.update s.manager.phase i p) :
    phaseOf s' = Function.update (phaseOf s) i p := by
  funext j
  by_cases hj : j = i
  · subst hj
    rw [phaseOf_outside hi, hphase, Function.update_self, Function.update_self]
  · rw [Function.update_of_ne hj, phaseOf, phaseOf, hcall j hj, hphase, Function.update_of_ne hj]

/-- A thread moves in the log, without an effect. -/
theorem phaseOf_keep {p : Locks.Pc σ ρ} (hcall : s'.call = Function.update s.call i p)
    (hphase : s'.manager.phase = s.manager.phase) (hanswer : answer p = answer (s.call i)) :
    phaseOf s' = phaseOf s := by
  funext j
  by_cases hj : j = i
  · subst hj
    rw [phaseOf, phaseOf, hcall, Function.update_self, hphase, hanswer]
  · rw [phaseOf, phaseOf, hcall, Function.update_of_ne hj, hphase]

/-- A fetch takes effect. -/
theorem phaseOf_effect {p : Locks.Pc σ ρ} {result : Except HerbertError Bytes}
    (hcall : s'.call = Function.update s.call i p) (hphase : s'.manager.phase = s.manager.phase)
    (hp : answer p = some result) :
    phaseOf s' = Function.update (phaseOf s) i (.returned (.fetched result)) := by
  funext j
  by_cases hj : j = i
  · subst hj
    rw [phaseOf, hcall, Function.update_self, hp, Function.update_self]
  · rw [Function.update_of_ne hj, phaseOf, phaseOf, hcall, Function.update_of_ne hj, hphase]

/-- A thread moves in the log and keeps the record it has to push. -/
theorem pending_update {p : Locks.Pc σ ρ} (hcall : s'.call = Function.update s.call i p)
    (hlock : s'.manager.threads.bufferLock = s.manager.threads.bufferLock) (hp : inflight p = inflight (s.call i)) :
    pending s' = pending s := by
  unfold pending
  rw [hlock, hcall]
  cases hl : s.manager.threads.bufferLock with
  | none => rfl
  | some j =>
    dsimp only
    by_cases hj : j = i
    · subst hj
      rw [Function.update_self, hp]
    · rw [Function.update_of_ne hj]

/-- The index and the locks of the log do not notice a thread that enters or
leaves it. -/
theorem indexed_call (h : Slices.Indexed s.log) {p : Locks.Pc σ ρ} (hlog : s'.manager.threads.backend = s.manager.threads.backend)
    (ht : s'.topics = s.topics) (ho : s'.offsets = s.offsets) (hcall : s'.call = Function.update s.call i p)
    (htopics : Locks.holdsTopics p = Locks.holdsTopics (s.call i))
    (hoffsets : Locks.holdsOffsets p = Locks.holdsOffsets (s.call i))
    (hi : ∀ t, Slices.unpushed t (s.call i) = []) (hp : ∀ t, Slices.unpushed t p = [])
    (hfound : ∀ t found, p ≠ .fetchOffsets t found) : Slices.Indexed s'.log where
  locks := by
    refine ⟨?_, ?_⟩
    · show Guards s'.topics Locks.holdsTopics s'.call
      rw [ht, hcall]
      exact h.locks.topics.keep htopics
    · show Guards s'.offsets Locks.holdsOffsets s'.call
      rw [ho, hcall]
      exact h.locks.offsets.keep hoffsets
  index t := by
    have howed : Slices.owed s'.log t = Slices.owed s.log t := Slices.owed_update ho hcall (hi t) (hp t)
    rw [howed]
    show s'.manager.threads.backend.offset_queue t = offsetIndex (s'.manager.threads.backend.queue t ++ _)
    rw [hlog]
    exact h.index t
  found j t ro hj := by
    replace hj : s'.call j = .fetchOffsets t (some ro) := hj
    show ∃ o, getOffset (s'.manager.threads.backend.offset_queue t) o = some ro
    rw [hlog]
    rw [hcall] at hj
    rcases moved hj with ⟨-, hpi⟩ | hj
    · exact absurd hpi (hfound t (some ro))
    · exact h.found j t ro hj

/-! ## Steps in the log -/

/-- The others are where they were. -/
theorem within_update (h : Sim s log) {l : Locks.State ι σ ρ} {handed : History σ ρ} {p : Locks.Pc σ ρ}
    (hpc : l.pc = Function.update s.call i p) (hp : Within p (s.manager.phase i) (s.manager.threads.pc i)) (j : ι) :
    Within ((s.withLog l handed).call j) ((s.withLog l handed).manager.phase j)
      ((s.withLog l handed).manager.threads.pc j) := by
  show Within (l.pc j) (s.manager.phase j) (s.manager.threads.pc j)
  rw [hpc]
  by_cases hj : j = i
  · subst hj
    rw [Function.update_self]
    exact hp
  · rw [Function.update_of_ne hj]
    exact h.within j

/-- A step that leaves the index alone. -/
theorem found_update (h : Sim s log) {l : Locks.State ι σ ρ} {handed : History σ ρ} {p : Locks.Pc σ ρ}
    (hpc : l.pc = Function.update s.call i p)
    (hindex : ∀ t, l.log.offset_queue t = s.manager.threads.backend.offset_queue t)
    (hp : ∀ t found, p = .fetchOffsets t found → ∃ o, s.manager.phase i = .ready (.fetch t o) ∧
      getOffset (s.manager.threads.backend.offset_queue t) (asUsize o) = found) (j : ι) (t : String)
    (found : Option RecordOffset) (hj : (s.withLog l handed).call j = .fetchOffsets t found) :
    ∃ o, (s.withLog l handed).manager.phase j = .ready (.fetch t o) ∧
      getOffset ((s.withLog l handed).manager.threads.backend.offset_queue t) (asUsize o) = found := by
  show ∃ o, s.manager.phase j = .ready (.fetch t o) ∧ getOffset (l.log.offset_queue t) (asUsize o) = found
  rw [hindex]
  replace hj : l.pc j = .fetchOffsets t found := hj
  rw [hpc] at hj
  rcases moved hj with ⟨rfl, hpi⟩ | hj
  · exact hp t found hpi
  · exact h.found j t found hj

/-- A step in the log without an effect. -/
theorem above_keep {l : Locks.State ι σ ρ} {p : Locks.Pc σ ρ} (hpc : l.pc = Function.update s.call i p)
    (hanswer : answer p = answer (s.call i)) (hin : inflight p = inflight (s.call i))
    (hpush : pushes (s.call i) = []) (log : InMemoryLog σ ρ) :
    above (s.withLog l (pushes (s.call i))) log = above s log := by
  have hphase : phaseOf (s.withLog l (pushes (s.call i))) = phaseOf s := phaseOf_keep hpc rfl hanswer
  have hpending : pending (s.withLog l (pushes (s.call i))) = pending s := pending_update hpc rfl hin
  unfold above
  rw [hphase, hpending, hpush]
  simp [State.withLog]

variable [DecidableEq σ] {config : Config} {base : History σ ρ} {calls : ι → Call σ}

omit [DecidableEq ι] in
/-- The log and the one above have the same index while nothing is owed. -/
theorem Sim.index (hinv : Managers.Inv ipc config base calls (above s log)) (h : Sim s log) (t : String)
    (howed : Slices.owed s.log t = []) : s.manager.threads.backend.offset_queue t = log.offset_queue t := by
  have hlog : Holds log (base ++ s.manager.threads.handed) := hinv.ordered.backend
  have hindex := h.indexed.index t
  rw [howed, List.append_nil] at hindex
  refine hindex.trans ?_
  rw [hlog.index, ← hlog.queue, ← h.queue]
  rfl

variable (ipc) in
/-- A step is one of `Managers`, or nobody's. -/
def Simulated (s : State ι σ ρ) (log : InMemoryLog σ ρ) (i : ι) (s' : State ι σ ρ) : Prop :=
  ∃ log', Sim s' log' ∧ (above s' log' = above s log ∨ Managers.step ipc (above s log) i = some (above s' log'))

/-- A fetch has its answer. -/
theorem sim_fetch (h : Sim s log) {l : Locks.State ι σ ρ}
    {p : Locks.Pc σ ρ} {t : String} {o : Int} (hs : Locks.step ipc s.log i = some l)
    (hcall : answer (s.call i) = none) (hin : inflight (s.call i) = []) (hpush : pushes (s.call i) = [])
    (hphase : s.manager.phase i = .ready (.fetch t o)) (hpc : l.pc = Function.update s.call i p)
    (hanswer : answer p = some (log.fetch ipc t o).1) (hp : inflight p = [])
    (hwithin : Within p (s.manager.phase i) (s.manager.threads.pc i))
    (hfound : ∀ t found, p = .fetchOffsets t found → ∃ o, s.manager.phase i = .ready (.fetch t o) ∧
      getOffset (s.manager.threads.backend.offset_queue t) (asUsize o) = found)
    (hq : ∀ t, l.log.queue t = s.manager.threads.backend.queue t)
    (hindex : ∀ t, l.log.offset_queue t = s.manager.threads.backend.offset_queue t) :
    Simulated ipc s log i (s.withLog l (pushes (s.call i))) := by
  refine ⟨(log.fetch ipc t o).2, ⟨within_update h hpc hwithin, found_update h hpc hindex hfound,
    Slices.indexed_step h.indexed hs, fun t' => ?_⟩, .inr ?_⟩
  · rw [queue_fetch]
    exact (hq t').trans (h.queue t')
  · have hready : (above s log).phase i = .ready (.fetch t o) := by
      show phaseOf s i = _
      rw [phaseOf, hcall]
      exact hphase
    have hphase' : phaseOf (s.withLog l (pushes (s.call i))) = _ := phaseOf_effect hpc rfl hanswer
    have hpending : pending (s.withLog l (pushes (s.call i))) = pending s := pending_update hpc rfl (hp.trans hin.symm)
    rw [Managers.step, hready]
    unfold above
    rw [hphase', hpending, hpush]
    simp [State.withLog, State.tm, TopicManager.fetch, RecordStorage.fetch]

/-- A drain pushes its record. -/
theorem sim_push (hinv : Managers.Inv ipc config base calls (above s log)) (h : Sim s log) {t : String}
    {r : StoredRecord σ ρ} {l : Locks.State ι σ ρ} (hs : Locks.step ipc s.log i = some l) (hi : s.call i = .addBoth t r)
    (hlog : l.log = s.manager.threads.backend.push_record t r) (hpc : l.pc = Function.update s.call i .addDropped) :
    Simulated ipc s log i (s.withLog l (pushes (s.call i))) := by
  have hwithin := h.within i
  rw [hi] at hwithin
  obtain ⟨⟨u, record, read, hphase⟩, e, hdraining⟩ := hwithin
  have hindex : ∀ t', l.log.offset_queue t' = s.manager.threads.backend.offset_queue t' := by
    intro t'
    rw [hlog]
    rfl
  refine ⟨log.add t r, ⟨within_update h hpc ⟨⟨u, record, read, hphase⟩, e, hdraining⟩,
    found_update h hpc hindex nofun, Slices.indexed_step h.indexed hs, fun t' => ?_⟩, .inr ?_⟩
  · show l.log.queue t' = _
    rw [hlog, queue_push_record, queue_add, h.queue, h.queue]
  · have hheld : s.manager.threads.bufferLock = some i := (hinv.locked.buffer i).2 (by
      show holdsBuffer (s.manager.threads.pc i) = true
      rw [hdraining]
      rfl)
    have hadding : (above s log).phase i = .adding u record read := by
      show phaseOf s i = _
      rw [phaseOf, hi]
      exact hphase
    have hplace : (above s log).threads.pc i = .adding .draining e := hdraining
    have hbuffer : (above s log).threads.wal.buffer = (t, r) :: s.manager.threads.wal.buffer := by
      show pending s ++ _ = _
      rw [pending_held hheld, hi]
      rfl
    have hphase' : phaseOf (s.withLog l (pushes (s.call i))) = phaseOf s := phaseOf_keep hpc rfl (by rw [hi]; rfl)
    have hpending : pending (s.withLog l (pushes (s.call i))) = [] := by
      rw [pending_held (show (s.withLog l (pushes (s.call i))).manager.threads.bufferLock = some i from hheld),
        show (s.withLog l (pushes (s.call i))).call = l.pc from rfl, hpc, Function.update_self]
      rfl
    simp only [Managers.step, hadding, hplace, Threads.step, hbuffer, Option.map_some, Option.some.injEq]
    unfold above
    rw [hphase', hpending, hi]
    rfl

/-- A step in the log without an effect. -/
theorem sim_stutter (h : Sim s log) {l : Locks.State ι σ ρ} {p : Locks.Pc σ ρ} (hs : Locks.step ipc s.log i = some l)
    (hpc : l.pc = Function.update s.call i p) (hanswer : answer p = answer (s.call i))
    (hin : inflight p = inflight (s.call i)) (hpush : pushes (s.call i) = [])
    (hp : Within p (s.manager.phase i) (s.manager.threads.pc i))
    (hfound : ∀ j t found, (s.withLog l (pushes (s.call i))).call j = .fetchOffsets t found →
      ∃ o, (s.withLog l (pushes (s.call i))).manager.phase j = .ready (.fetch t o) ∧
        getOffset ((s.withLog l (pushes (s.call i))).manager.threads.backend.offset_queue t) (asUsize o) = found)
    (hq : ∀ t, l.log.queue t = s.manager.threads.backend.queue t) :
    Simulated ipc s log i (s.withLog l (pushes (s.call i))) :=
  ⟨log, ⟨within_update h hpc hp, hfound, Slices.indexed_step h.indexed hs, fun t => (hq t).trans (h.queue t)⟩,
    .inl (above_keep hpc hanswer hin hpush log)⟩

theorem sim_look_up (hinv : Managers.Inv ipc config base calls (above s log)) (h : Sim s log) {t : String} {o : Int}
    {l : Locks.State ι σ ρ} (hs : Locks.step ipc s.log i = some l) (hi : s.call i = .ready (.fetch t o))
    (hfree : s.offsets = none) (hq : ∀ t, l.log.queue t = s.manager.threads.backend.queue t)
    (hindex : ∀ t, l.log.offset_queue t = s.manager.threads.backend.offset_queue t)
    (hpc : l.pc = Function.update s.call i
      (.fetchOffsets t (getOffset (s.manager.threads.backend.offset_queue t) (asUsize o)))) :
    Simulated ipc s log i (s.withLog l (pushes (s.call i))) := by
  have hphase : s.manager.phase i = .ready (.fetch t o) := by
    have := h.within i
    rwa [hi] at this
  have hlook : ∀ {found}, getOffset (s.manager.threads.backend.offset_queue t) (asUsize o) = found →
      ∀ t' found', (.fetchOffsets t found : Locks.Pc σ ρ) = .fetchOffsets t' found' →
        ∃ o, s.manager.phase i = .ready (.fetch t' o) ∧
          getOffset (s.manager.threads.backend.offset_queue t') (asUsize o) = found' := by
    rintro found hget t' found' ⟨⟩
    exact ⟨o, hphase, hget⟩
  have hout : answer (s.call i) = none ∧ inflight (s.call i) = [] ∧ pushes (s.call i) = [] := by
    rw [hi]
    exact ⟨rfl, rfl, rfl⟩
  cases hget : getOffset (s.manager.threads.backend.offset_queue t) (asUsize o) with
  | none =>
    rw [hget] at hpc
    have hfetch := fetch_none ipc (by rw [← h.index hinv t (Slices.owed_free hfree t)]; exact hget)
    exact sim_fetch h hs hout.1 hout.2.1 hout.2.2 hphase hpc (by rw [hfetch]; rfl) rfl ⟨t, o, hphase⟩ (hlook hget) hq
      hindex
  | some ro =>
    rw [hget] at hpc
    exact sim_stutter h hs hpc hout.1.symm hout.2.1.symm hout.2.2 ⟨t, o, hphase⟩
      (found_update h hpc hindex (hlook hget)) hq

theorem sim_read (hinv : Managers.Inv ipc config base calls (above s log)) (h : Sim s log) {t : String}
    {ro : RecordOffset} {l : Locks.State ι σ ρ} (hs : Locks.step ipc s.log i = some l)
    (hi : s.call i = .fetchOffsets t (some ro)) (hq : ∀ t, l.log.queue t = s.manager.threads.backend.queue t)
    (hindex : ∀ t, l.log.offset_queue t = s.manager.threads.backend.offset_queue t)
    (hpc : l.pc = Function.update s.call i (.fetchBoth (fetch_records ipc (s.manager.threads.backend.queue t) ro))) :
    Simulated ipc s log i (s.withLog l (pushes (s.call i))) := by
  obtain ⟨o, hphase, hget⟩ := h.found i t (some ro) hi
  have howed : Slices.owed s.log t = [] := by
    rw [Slices.owed_held ((h.indexed.locks.offsets i).2 (by rw [show s.log.pc i = _ from hi]; rfl)),
      show s.log.pc i = _ from hi]
    rfl
  have hfetch := fetch_some ipc (by rw [← h.index hinv t howed]; exact hget)
  refine sim_fetch h hs (by rw [hi]; rfl) (by rw [hi]; rfl) (by rw [hi]; rfl) hphase hpc ?_ rfl ⟨t, o, hphase⟩ nofun hq
    hindex
  rw [hfetch, h.queue]
  rfl

/-- A step in the log. -/
theorem sim_log (hinv : Managers.Inv ipc config base calls (above s log)) (h : Sim s log) {l : Locks.State ι σ ρ}
    (hs : Locks.step ipc s.log i = some l) : Simulated ipc s log i (s.withLog l (pushes (s.call i))) := by
  have hwithin := h.within i
  cases Locks.step_move hs with
  | @take_topics t r hpc hfree =>
    replace hpc : s.call i = _ := hpc
    rw [hpc] at hwithin
    exact sim_stutter h hs rfl (by rw [hpc]; rfl) (by rw [hpc]; rfl) (by rw [hpc]; rfl) hwithin
      (found_update h rfl (fun _ => rfl) nofun) fun _ => lookup_insert_self _ _ _
  | @push_offsets t r hpc hfree =>
    replace hpc : s.call i = _ := hpc
    rw [hpc] at hwithin
    refine sim_stutter h hs rfl (by rw [hpc]; rfl) (by rw [hpc]; rfl) (by rw [hpc]; rfl) hwithin
      (fun j t' found hj => ?_) fun _ => rfl
    -- nobody has looked up an offset while `offsets` was free
    rcases moved hj with ⟨-, hp⟩ | hj
    · cases hp
    · have hheld := (h.indexed.locks.offsets j).2 (by rw [show s.log.pc j = _ from hj]; rfl)
      rw [hfree] at hheld
      cases hheld
  | @push_record t r hpc => exact sim_push hinv h hs hpc rfl rfl
  | added hpc =>
    replace hpc : s.call i = _ := hpc
    exact sim_stutter h hs rfl (by rw [hpc]; rfl) (by rw [hpc]; rfl) (by rw [hpc]; rfl) trivial
      (found_update h rfl (fun _ => rfl) nofun) fun _ => rfl
  | @look_up t o hpc hfree =>
    exact sim_look_up hinv h hs hpc hfree (fun _ => rfl) (fun _ => lookup_insert_self _ _ _) rfl
  | @not_found t hpc =>
    replace hpc : s.call i = _ := hpc
    rw [hpc] at hwithin
    exact sim_stutter h hs rfl (by rw [hpc]; rfl) (by rw [hpc]; rfl) (by rw [hpc]; rfl) hwithin
      (found_update h rfl (fun _ => rfl) nofun) fun _ => rfl
  | @read t ro hpc hfree => exact sim_read hinv h hs hpc (fun _ => lookup_insert_self _ _ _) (fun _ => rfl) rfl
  | drop_topics hpc | fetched hpc =>
    replace hpc : s.call i = _ := hpc
    rw [hpc] at hwithin
    exact sim_stutter h hs rfl (by rw [hpc]; rfl) (by rw [hpc]; rfl) (by rw [hpc]; rfl) hwithin
      (found_update h rfl (fun _ => rfl) nofun) fun _ => rfl

/-! ## Steps outside the log -/

/-- A thread enters the log, or leaves it. -/
theorem sim_call (h : Sim s log) {p : Locks.Pc σ ρ} (hcall : s'.call = Function.update s.call i p)
    (hlog : s'.manager.threads.backend = s.manager.threads.backend) (ht : s'.topics = s.topics)
    (ho : s'.offsets = s.offsets) (hidle : s.call i = .added ∨ ∃ result, s.call i = .fetched result)
    (hp : (∃ call, p = .ready call) ∨ p = .added)
    (hother : ∀ j, j ≠ i → s'.manager.phase j = s.manager.phase j ∧ s'.manager.threads.pc j = s.manager.threads.pc j)
    (hwithin : Within p (s'.manager.phase i) (s'.manager.threads.pc i)) (habove : above s' log = above s log) :
    Simulated ipc s log i s' := by
  have hflags : Locks.holdsTopics p = Locks.holdsTopics (s.call i) ∧
      Locks.holdsOffsets p = Locks.holdsOffsets (s.call i) ∧ (∀ t, Slices.unpushed t (s.call i) = []) ∧
      (∀ t, Slices.unpushed t p = []) ∧ ∀ t found, p ≠ .fetchOffsets t found := by
    rcases hidle with hi | ⟨result, hi⟩ <;> rcases hp with ⟨call, rfl⟩ | rfl <;> rw [hi] <;>
      exact ⟨rfl, rfl, fun _ => rfl, fun _ => rfl, by simp⟩
  obtain ⟨h1, h2, h3, h4, h5⟩ := hflags
  refine ⟨log, ⟨fun j => ?_, fun j t found hj => ?_, indexed_call h.indexed hlog ht ho hcall h1 h2 h3 h4 h5, ?_⟩,
    .inl habove⟩
  · rw [hcall]
    by_cases hj : j = i
    · subst hj
      rw [Function.update_self]
      exact hwithin
    · rw [Function.update_of_ne hj, (hother j hj).1, (hother j hj).2]
      exact h.within j
  · rw [hcall] at hj
    by_cases hji : j = i
    · subst hji
      rw [Function.update_self] at hj
      exact absurd hj (h5 t found)
    · rw [Function.update_of_ne hji] at hj
      rw [hlog, (hother j hji).1]
      exact h.found j t found hj
  · rw [hlog]
    exact h.queue

/-- The threads take no notice of another log, nor of records in front of the WAL
buffer while its lock is taken. -/
theorem step_frame {setup : Threads.Setup ι σ ρ} {th th' : Threads.State ι σ ρ} {front : History σ ρ}
    (hs : Threads.step setup th i = some th') (hfree : th.bufferLock = none → front = [])
    (hdrain : ∀ e, th.pc i = .adding .draining e → front = [] ∧ th.wal.buffer = []) (log : InMemoryLog σ ρ) :
    Threads.step setup { th with backend := log, wal := { th.wal with buffer := front ++ th.wal.buffer } } i =
      some { th' with backend := log, wal := { th'.wal with buffer := front ++ th'.wal.buffer } } := by
  unfold Threads.step at hs ⊢
  cases hpc : th.pc i with
  | failed e => simp [hpc] at hs
  | ready =>
    simp only [hpc] at hs ⊢
    split at hs
    · cases hs
      rfl
    · split at hs
      · rename_i hfile
        rw [if_pos hfile]
        split at hs
        · cases hs
          rfl
        · cases hs
          rfl
      · cases hs
  | adding place e =>
    cases place with
    | written | unlocked | flushed =>
      simp only [hpc, Option.ite_none_right_eq_some, Option.some.injEq] at hs ⊢
      obtain ⟨hlock, rfl⟩ := hs
      rw [hfree hlock]
      exact ⟨hlock, rfl⟩
    | flushing =>
      simp only [hpc, Option.ite_none_right_eq_some, Option.some.injEq] at hs ⊢
      obtain ⟨hlock, rfl⟩ := hs
      exact ⟨hlock, rfl⟩
    | pushed =>
      simp only [hpc, Option.some.injEq] at hs ⊢
      subst hs
      rfl
    | draining =>
      obtain ⟨hfront, hbuf⟩ := hdrain e hpc
      simp only [hpc, hbuf, hfront, List.append_nil] at hs ⊢
      cases hs
      rw [hbuf]
      rfl
    | done => simp [hpc] at hs

omit [DecidableEq σ] in
/-- A step outside the log. -/
theorem sim_outside (h : Sim s log) {manager : Managers.State ι σ ρ} (hi : s.call i = .added)
    (hback : manager.threads.backend = s.manager.threads.backend)
    (hother : ∀ j, j ≠ i → manager.phase j = s.manager.phase j ∧ manager.threads.pc j = s.manager.threads.pc j) :
    Sim { s with manager } log where
  within j := by
    show Within (s.call j) _ _
    by_cases hj : j = i
    · subst hj
      rw [hi]
      trivial
    · rw [(hother j hj).1, (hother j hj).2]
      exact h.within j
  found j t found hcall := by
    by_cases hj : j = i
    · subst hj
      rw [show s.call j = _ from hcall] at hi
      cases hi
    · dsimp only
      rw [(hother j hj).1, hback]
      exact h.found j t found hcall
  indexed := by
    have hlog : State.log { s with manager } = s.log := by rw [State.log, State.log, hback]
    rw [hlog]
    exact h.indexed
  queue t := by
    dsimp only
    rw [hback]
    exact h.queue t

theorem sim_create (h : Sim s log) {t : String} {schema : Option σ} (hi : s.call i = .added)
    (hphase : s.manager.phase i = .ready (.create t schema)) (hfree : s.manager.readers = ∅) :
    Simulated ipc s log i { s with manager := { s.manager with
      topic_metadatas := (s.manager.tm.create t schema).2.topic_metadatas,
      phase := Function.update s.manager.phase i (.returned (.created (s.manager.tm.create t schema).1)) } } := by
  refine ⟨log, sim_outside h hi rfl fun j hj => ⟨Function.update_of_ne hj _ _, rfl⟩, .inr ?_⟩
  have hready : (above s log).phase i = .ready (.create t schema) := (phaseOf_outside hi).trans hphase
  have hsame := create_same (show (above s log).tm.topic_metadatas = s.manager.tm.topic_metadatas from rfl) t schema
  have hphase' : phaseOf { s with manager := { s.manager with
      topic_metadatas := (s.manager.tm.create t schema).2.topic_metadatas,
      phase := Function.update s.manager.phase i (.returned (.created (s.manager.tm.create t schema).1)) } } = _ :=
    phaseOf_update (s := s) hi (fun _ _ => rfl) rfl
  rw [Managers.step, hready]
  dsimp only
  rw [if_pos (show (above s log).readers = ∅ from hfree), hsame.1, hsame.2]
  simp only [above, hphase']
  rfl

omit [DecidableEq ι] [DecidableEq σ] in
/-- A thread outside the log takes the buffer lock, gives it back, or neither. -/
theorem pending_outside (hcall : s'.call = s.call) (hi : s.call i = .added)
    (hlock : s'.manager.threads.bufferLock = s.manager.threads.bufferLock ∨
      (s.manager.threads.bufferLock = none ∧ s'.manager.threads.bufferLock = some i) ∨
      s.manager.threads.bufferLock = some i ∧ s'.manager.threads.bufferLock = none) : pending s' = pending s := by
  rcases hlock with h | ⟨h, h'⟩ | ⟨h, h'⟩
  · rw [pending, pending, h, hcall]
  · rw [pending_free h, pending_held h', hcall, hi]
    rfl
  · rw [pending_free h', pending_held h, hi]
    rfl

theorem sim_threads (hinv : Managers.Inv ipc config base calls (above s log)) (h : Sim s log) (hout : Outside s i)
    {t : String} {record : Bytes} {read : HashMap String (TopicMetadata σ)} {threads : Threads.State ι σ ρ}
    (hphase : s.manager.phase i = .adding t record read)
    (hstep : Threads.step (setup ipc t record read) s.manager.threads i = some threads) :
    Simulated ipc s log i { s with manager := { s.manager with threads } } := by
  obtain ⟨hi, -, hdrained⟩ := hout
  have hheld : ∀ e, s.manager.threads.pc i = .adding .draining e → s.manager.threads.bufferLock = some i := by
    intro e he
    exact (hinv.locked.buffer i).2 (by show holdsBuffer (s.manager.threads.pc i) = true; rw [he]; rfl)
  have hfree : s.manager.threads.bufferLock = none → pending s = [] := pending_free
  have hframe := step_frame hstep hfree (fun e he => by
    refine ⟨?_, hdrained t record read e hphase he⟩
    rw [pending_held (hheld e he), hi]
    rfl) log
  have hpending : pending { s with manager := { s.manager with threads } } = pending s := by
    refine pending_outside (s := s) (i := i) rfl hi ?_
    cases Threads.step_move hstep with
    | drain e hp hfree => exact .inr (.inl ⟨hfree, rfl⟩)
    | finish e hp => exact .inr (.inr ⟨hheld e hp, rfl⟩)
    | _ => exact .inl rfl
  have hback : threads.backend = s.manager.threads.backend := by
    cases Threads.step_move hstep with
    | hand e x rest hp hbuf => rw [hdrained t record read e hphase hp] at hbuf; cases hbuf
    | _ => rfl
  refine ⟨log, sim_outside h hi hback fun j hj => ⟨rfl, pc_inside hstep hj⟩, .inr ?_⟩
  have hadding : (above s log).phase i = .adding t record read := (phaseOf_outside hi).trans hphase
  have hstep' : Threads.step (setup ipc t record read) (above s log).threads i = _ := hframe
  have hgoal : (Threads.step (setup ipc t record read) (above s log).threads i).map
      (fun threads => { above s log with threads }) = some (above { s with manager := { s.manager with threads } } log) := by
    rw [hstep']
    simp only [Option.map_some, Option.some.injEq, above, hpending]
    rfl
  rw [Managers.step, hadding]
  dsimp only
  split
  · rename_i e hpc
    rw [Threads.step, show s.manager.threads.pc i = _ from hpc] at hstep
    cases hstep
  · rename_i e hpc
    rw [Threads.step, show s.manager.threads.pc i = _ from hpc] at hstep
    cases hstep
  · exact hgoal

/-- An `add` takes its guard, or returns. -/
theorem sim_guard (h : Sim s log) (hi : s.call i = .added) {readers : Finset ι} {p : Phase σ}
    (hstep : Managers.step ipc (above s log) i =
      some { above s log with readers, phase := Function.update (phaseOf s) i p }) :
    Simulated ipc s log i { s with
      manager := { s.manager with readers, phase := Function.update s.manager.phase i p } } := by
  refine ⟨log, sim_outside h hi rfl fun j hj => ⟨Function.update_of_ne hj _ _, rfl⟩, .inr ?_⟩
  have hphase : phaseOf { s with
      manager := { s.manager with readers, phase := Function.update s.manager.phase i p } } = _ :=
    phaseOf_update (s := s) hi (fun _ _ => rfl) rfl
  rw [hstep]
  simp only [above, hphase]
  rfl

theorem sim_manager (hinv : Managers.Inv ipc config base calls (above s log)) (h : Sim s log) (hout : Outside s i)
    {manager : Managers.State ι σ ρ} (hs : Managers.step ipc s.manager i = some manager) :
    Simulated ipc s log i { s with manager } := by
  have hi := hout.1
  have hphase : (above s log).phase i = s.manager.phase i := phaseOf_outside hi
  cases Managers.step_move hs with
  | create t schema hp hfree => exact sim_create h hi hp hfree
  | fetch t o hp => exact absurd hp (hout.2.1 t o)
  | inside t record read threads hp hstep => exact sim_threads hinv h hout hp hstep
  | enter t record hp =>
    refine sim_guard h hi ?_
    rw [Managers.step, hphase, hp]
    rfl
  | reject t record read e hp hpc =>
    refine sim_guard h hi ?_
    rw [Managers.step, hphase, hp]
    dsimp only
    rw [show (above s log).threads.pc i = _ from hpc]
    rfl
  | accept t record read e hp hpc =>
    refine sim_guard h hi ?_
    rw [Managers.step, hphase, hp]
    dsimp only
    rw [show (above s log).threads.pc i = _ from hpc]
    rfl

/-- Every step is one of `Managers`, or nobody's. -/
theorem sim_step (hinv : Managers.Inv ipc config base calls (above s log)) (h : Sim s log)
    (hs : step ipc s i = some s') : Simulated ipc s log i s' := by
  cases step_move hs with
  | inside l hl => exact sim_log hinv h hl
  | manager m hout hm => exact sim_manager hinv h hout hm
  | begin_fetch t o hi hphase =>
    refine sim_call h rfl rfl rfl rfl (.inl hi) (.inl ⟨_, rfl⟩) (fun _ _ => ⟨rfl, rfl⟩) hphase ?_
    let s₁ : State ι σ ρ := { s with call := Function.update s.call i (.ready (.fetch t o)) }
    have hsame : phaseOf s₁ = phaseOf s := phaseOf_keep rfl rfl (by rw [hi]; rfl)
    have hpending : pending s₁ = pending s := pending_update rfl rfl (by rw [hi]; rfl)
    show above s₁ log = above s log
    simp only [above, hsame, hpending, s₁]
  | end_fetch result hi =>
    refine sim_call h rfl rfl rfl rfl (.inr ⟨result, hi⟩) (.inr rfl) (fun j hj => ⟨Function.update_of_ne hj _ _, rfl⟩)
      trivial ?_
    let s₁ : State ι σ ρ := { s with
      manager := { s.manager with phase := Function.update s.manager.phase i (.returned (.fetched result)) },
      call := Function.update s.call i .added }
    have hsame : phaseOf s₁ = phaseOf s := by
      have hupdate : phaseOf s₁ = Function.update (phaseOf s) i (.returned (.fetched result)) :=
        phaseOf_update (by simp [s₁]) (fun j hj => Function.update_of_ne hj _ _) rfl
      rw [hupdate]
      refine Function.update_eq_self_iff.2 ?_
      rw [phaseOf, hi]
      rfl
    have hpending : pending s₁ = pending s := pending_update rfl rfl (by rw [hi]; rfl)
    show above s₁ log = above s log
    simp only [above, hsame, hpending, s₁]
  | pop t record read e x rest hi hphase hpc hbuf =>
    refine sim_call h rfl rfl rfl rfl (.inl hi) (.inl ⟨_, rfl⟩) (fun _ _ => ⟨rfl, rfl⟩)
      ⟨⟨t, record, read, hphase⟩, e, hpc⟩ ?_
    let s₁ : State ι σ ρ := { s with
      manager := { s.manager with threads := { s.manager.threads with
        wal := { s.manager.threads.wal with buffer := rest } } },
      call := Function.update s.call i (.ready (.add x.1 x.2)) }
    have hheld : s.manager.threads.bufferLock = some i :=
      (hinv.locked.buffer i).2 (by show holdsBuffer (s.manager.threads.pc i) = true; rw [hpc]; rfl)
    have hsame : phaseOf s₁ = phaseOf s := phaseOf_keep rfl rfl (by rw [hi]; rfl)
    have hpending : pending s₁ = [x] := by
      rw [pending_held (show s₁.manager.threads.bufferLock = some i from hheld)]
      simp [s₁, inflight]
    have hnone : pending s = [] := by
      rw [pending_held hheld, hi]
      rfl
    show above s₁ log = above s log
    simp only [above, hsame, hpending, hnone, s₁, hbuf]
    rfl

/-! ## Whole runs -/

/-- The answer of a call that has returned. -/
def outcome (s : State ι σ ρ) (i : ι) : Option Answer := Serial.outcome s.manager i

def begun (s : State ι σ ρ) (i : ι) : Prop := Serial.begun s.manager i ∨ s.call i ≠ .added

variable (ipc config base calls) in
/-- Through the state above. -/
def Rel (s : State ι σ ρ) (a : Atomic.State ι (TopicManager σ ρ (InMemoryLog σ ρ)) Answer) : Prop :=
  ∃ log, Sim s log ∧ Serial.Rel ipc config base calls (above s log) a

variable {a : Atomic.State ι (TopicManager σ ρ (InMemoryLog σ ρ)) Answer}

omit [DecidableEq ι] [DecidableEq σ] in
theorem above_start (tm : TopicManager σ ρ (InMemoryLog σ ρ)) (calls : ι → Call σ) :
    above (start tm calls) tm.backend = Managers.start tm calls := rfl

omit [DecidableEq ι] [DecidableEq σ] in
theorem sim_start {tm : TopicManager σ ρ (InMemoryLog σ ρ)} (h : Recovered ipc base tm) (calls : ι → Call σ) :
    Sim (start tm calls) tm.backend where
  within _ := trivial
  found _ _ _ hi := by cases hi
  indexed := {
    locks := ⟨guards_free fun _ => rfl, guards_free fun _ => rfl⟩
    index := fun t => by
      rw [Slices.owed_free rfl, List.append_nil]
      exact (h.log.index t).trans (by rw [← h.log.queue t]; rfl)
    found := by simp [State.log, start] }
  queue _ := rfl

theorem rel_start {tm : TopicManager σ ρ (InMemoryLog σ ρ)} (h : Recovered ipc base tm) (calls : ι → Call σ) :
    Rel ipc tm.wal.config base calls (start tm calls) (Atomic.start tm) :=
  ⟨tm.backend, sim_start h calls, by rw [above_start]; exact Serial.rel_start h calls⟩

theorem rel_step (hn : config.num_uncommitted_messages ≤ 1) (h : Rel ipc config base calls s a)
    (hs : step ipc s i = some s') :
    ∃ ls a', exec (Atomic.step (Serial.apply ipc) calls) a ls = some a' ∧ Rel ipc config base calls s' a' := by
  obtain ⟨log, hsim, hrel⟩ := h
  obtain ⟨log', hsim', hsame | hstep⟩ := sim_step hrel.inv hsim hs
  · exact ⟨[], a, rfl, log', hsim', hsame ▸ hrel⟩
  · obtain ⟨ls, a', he, hrel'⟩ := Serial.sim_step hn hrel hstep
    exact ⟨ls, a', he, log', hsim', hrel'⟩

omit [DecidableEq ι] [DecidableEq σ] in
/-- A call that has returned has left the log. -/
theorem Sim.left (h : Sim s log) {answer : Answer} (hi : s.manager.phase i = .returned answer) :
    s.call i = .added := by
  have hwithin := h.within i
  rw [hi] at hwithin
  cases hc : s.call i with
  | added => rfl
  | ready call => cases call <;> simp [hc, Within] at hwithin
  | _ => simp [hc, Within] at hwithin

/-- A step of one thread leaves the others where they are. -/
theorem step_other (hs : step ipc s i = some s') {j : ι} (hj : j ≠ i) :
    s'.manager.phase j = s.manager.phase j ∧ s'.manager.threads.pc j = s.manager.threads.pc j ∧
      s'.call j = s.call j := by
  cases step_move hs with
  | begin_fetch t o => exact ⟨rfl, rfl, Function.update_of_ne hj _ _⟩
  | end_fetch result => exact ⟨Function.update_of_ne hj _ _, rfl, Function.update_of_ne hj _ _⟩
  | pop t record read e x rest => exact ⟨rfl, rfl, Function.update_of_ne hj _ _⟩
  | inside l hl =>
    refine ⟨rfl, rfl, ?_⟩
    show l.pc j = _
    cases Locks.step_move hl <;> exact Function.update_of_ne hj _ _
  | manager m hout hm =>
    refine ⟨?_, ?_, rfl⟩
    · cases Managers.step_move hm with
      | inside t record read threads => rfl
      | _ => exact Function.update_of_ne hj _ _
    · cases Managers.step_move hm with
      | inside t record read threads hi hstep => exact pc_inside hstep hj
      | _ => rfl

theorem Rel.outcome (h : Rel ipc config base calls s a) {r : Answer} (hr : outcome s i = some r) :
    a.answer i = some r := by
  obtain ⟨log, hsim, hrel⟩ := h
  refine hrel.outcome ?_
  unfold AllLocks.outcome Serial.outcome at hr
  unfold Serial.outcome
  split at hr
  · rename_i answer hi
    rw [show (above s log).phase i = .returned answer from (phaseOf_outside (hsim.left hi)).trans hi]
    exact hr
  · cases hr

theorem Rel.not_begun (h : Rel ipc config base calls s a) (hb : ¬ begun s i) : a.answer i = none := by
  obtain ⟨log, hsim, hrel⟩ := h
  rw [begun, not_or, not_not] at hb
  refine hrel.not_begun fun hbegun => hb.1 fun call hcall => hbegun call ?_
  exact (phaseOf_outside hb.2).trans hcall

/-- When every call that has begun has returned, the manager is the one of the calls
made one after the other. -/
theorem Rel.final (hn : config.num_uncommitted_messages ≤ 1) (h : Rel ipc config base calls s a)
    (hall : ∀ i, begun s i → (AllLocks.outcome s i).isSome) :
    s.manager.tm.topic_metadatas = a.obj.topic_metadatas ∧
      (∀ t, s.manager.tm.backend.queue t = a.obj.backend.queue t) ∧ s.manager.tm.wal.buffer = a.obj.wal.buffer ∧
      s.manager.tm.wal.file.contents = a.obj.wal.file.contents := by
  obtain ⟨log, hsim, hrel⟩ := h
  have hrest : ∀ i, s.call i = .added ∧ isAdding (s.manager.phase i) = false := by
    intro i
    by_cases hb : begun s i
    · obtain ⟨answer, hi⟩ := Option.isSome_iff_exists.1 (hall i hb)
      unfold AllLocks.outcome Serial.outcome at hi
      split at hi
      · rename_i hphase
        exact ⟨hsim.left hphase, by rw [hphase]; rfl⟩
      · cases hi
    · rw [begun, not_or, not_not, Serial.begun, not_forall] at hb
      obtain ⟨⟨call, hcall⟩, hi⟩ := hb
      exact ⟨hi, by rw [not_not.1 hcall]; rfl⟩
  obtain ⟨htopics, hqueue, hbuffer, hfile⟩ := hrel.final hn fun i => by
    rw [show (above s log).phase i = s.manager.phase i from phaseOf_outside (hrest i).1]
    exact (hrest i).2
  have hpending : pending s = [] := by
    unfold pending
    split
    · rfl
    · rw [(hrest _).1]
      rfl
  refine ⟨htopics, fun t => (hsim.queue t).trans (hqueue t), ?_, hfile⟩
  rw [← hbuffer]
  show _ = pending s ++ _
  rw [hpending, List.nil_append]
  rfl

/-- With at most one uncommitted message the calls on one manager are linearizable,
on the functions of the manager itself: for every interleaving of their steps
under all locks there is one order of the calls in which each has the answer it
has when they are made one after the other, and in which no call stands before
one that returned before it began. When all have returned, topics, log and WAL
buffer are those of this sequential run, and so is the WAL file together with what
is pending in its `BufWriter`. -/
theorem manager_linearizable {tm : TopicManager σ ρ (InMemoryLog σ ρ)} (h : Recovered ipc base tm)
    (hn : tm.wal.config.num_uncommitted_messages ≤ 1) (calls : ι → Call σ) {tr} {s : State ι σ ρ}
    (hr : Run (step ipc) (start tm calls) tr s) :
    ∃ order, Atomic.Linear (Serial.apply ipc) calls outcome begun tm tr s order ∧
      ((∀ i, ∃ answer, s.manager.phase i = .returned answer) →
        let tm' := Atomic.after (Serial.apply ipc) calls tm order
        s.manager.tm.topic_metadatas = tm'.topic_metadatas ∧
          (∀ t, s.manager.tm.backend.queue t = tm'.backend.queue t) ∧ s.manager.tm.wal.buffer = tm'.wal.buffer ∧
          s.manager.tm.wal.file.contents = tm'.wal.file.contents) := by
  obtain ⟨order, a, hlin, hrel, hobj⟩ := Atomic.Run.linear (Rel ipc tm.wal.config base calls)
    (rel_start h calls) (fun _ _ _ _ => rel_step hn) (fun _ _ _ _ h => h.outcome) (fun _ _ _ h => h.not_begun) hr
  refine ⟨order, hlin, fun hall => ?_⟩
  dsimp only
  rw [← hobj]
  refine hrel.final hn fun i _ => ?_
  obtain ⟨answer, hi⟩ := hall i
  rw [AllLocks.outcome, Serial.outcome, hi]
  rfl

end

/-- One thread hands over the records of both, while the third one waits for the
log. -/
theorem manager_linearizable_pocket :
    let calls : Fin 3 → Call UInt8
      | 0 => .add "t" [1]
      | 1 => .add "t" [2]
      | 2 => .fetch "t" 0
    let tm : TopicManager UInt8 UInt8 (InMemoryLog UInt8 UInt8) := .new .new ⟨1⟩ []
    ∃ tr s, Run (step pocketIpc) (start tm calls) tr s ∧
      outcome s 1 = some (.added (.ok ())) ∧ outcome s 2 = some (.fetched (.ok [1, 0, 2])) ∧
      ∃ order, Atomic.Linear (Serial.apply pocketIpc) calls outcome begun tm tr s order := by
  intro calls tm
  have he : exec (step pocketIpc) (start tm calls) [0, 0, 0, 0, 1, 1, 1, 1, 0, 0, 0, 0, 0, 0, 0, 0, 2, 0, 0, 0, 0, 2, 0,
      0, 0, 2, 2, 2, 2, 1, 1] = some _ := rfl
  obtain ⟨tr, hr, -⟩ := Run.nil.exec he
  obtain ⟨order, hlin, -⟩ := manager_linearizable (recovered_new ⟨1⟩) (Nat.le_refl 1) calls hr
  exact ⟨_, _, hr, rfl, rfl, order, hlin⟩

end herbert.AllLocks
