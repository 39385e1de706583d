import Herbert.AllLocks
import Mathlib.Algebra.Order.BigOperators.Group.Finset
import Mathlib.Data.Fintype.Card
/-!
# Progress

A run of the manager under all its locks cannot go on forever: a call has at
most fourteen steps to take (`steps_left`), counting those with which a drain
hands over its record. It ends when every call has returned, or when an `add`
that drains holds `topics` and a `fetch` holds `offsets`: the other locks never
block anybody for good (`stuck_crossed`).
-/
open Lib Lib.Bytes Lib.Runs Lib.Mutex herbert.WalOrder
open herbert.Managers (Call Phase Recovered pc_inside recovered_new)
open herbert.AllLocks

namespace herbert.Progress

variable {ι σ ρ : Type}

/-! ## What is left to do -/

/-- The steps an `add` has left before it returns, outside the log. A record that
it has yet to push takes five more. -/
def addLeft : Threads.Pc σ ρ → Nat
  | .ready => 13
  | .adding .written _ => 12
  | .adding .pushed _ => 6
  | .adding .unlocked _ => 5
  | .adding .flushing _ => 4
  | .adding .flushed _ => 3
  | .adding .draining _ => 2
  | .adding .done _ | .failed _ => 1

/-- The steps left with a record that a drain has popped. -/
def pushLeft : Locks.Pc σ ρ → Nat
  | .ready (.add _ _) => 4
  | .addTopics _ _ => 3
  | .addBoth _ _ => 2
  | .addDropped => 1
  | _ => 0

def fetchLeft : Locks.Pc σ ρ → Nat
  | .ready _ => 5
  | .fetchOffsets _ _ => 4
  | .fetchBoth _ => 3
  | .fetchDropped _ => 2
  | .fetched _ => 1
  | _ => 6

def left : Phase σ → Threads.Pc σ ρ → Locks.Pc σ ρ → Nat
  | .ready (.create _ _), _, _ => 1
  | .ready (.add _ _), _, _ => 14
  | .ready (.fetch _ _), _, call => fetchLeft call
  | .adding _ _ _, pc, call => addLeft pc + pushLeft call
  | .returned _, _, _ => 0

/-- The steps that a state has left. -/
def steps_left [Fintype ι] (s : State ι σ ρ) : Nat :=
  ∑ i, left (s.manager.phase i) (s.manager.threads.pc i) (s.call i) + 5 * s.manager.threads.wal.buffer.length

section
variable [DecidableEq ι] [DecidableEq σ] {ipc : ArrowIpc σ ρ} {config : Config} {base : History σ ρ}
  {calls : ι → Call σ} {s s' : State ι σ ρ} {i : ι}

variable (ipc config base calls) in
/-- The state above is one of `Managers`. -/
def Inv (s : State ι σ ρ) : Prop := ∃ log, Sim s log ∧ Managers.Inv ipc config base calls (above s log)

omit [DecidableEq ι] in
theorem inv_start {tm : TopicManager σ ρ (InMemoryLog σ ρ)} (h : Recovered ipc base tm) (calls : ι → Call σ) :
    Inv ipc tm.wal.config base calls (start tm calls) :=
  ⟨tm.backend, sim_start h calls, by rw [above_start]; exact Managers.inv_start h calls⟩

theorem inv_step (h : Inv ipc config base calls s) (hs : step ipc s i = some s') : Inv ipc config base calls s' := by
  obtain ⟨log, hsim, hinv⟩ := h
  obtain ⟨log', hsim', hsame | hstep⟩ := sim_step hinv hsim hs
  · exact ⟨log', hsim', hsame ▸ hinv⟩
  · exact ⟨log', hsim', Managers.inv_step hinv hstep⟩

/-- A step of thread `i` uses up a step that it has left. -/
theorem left_step (h : Inv ipc config base calls s) (hs : step ipc s i = some s') :
    left (s'.manager.phase i) (s'.manager.threads.pc i) (s'.call i) + 5 * s'.manager.threads.wal.buffer.length <
      left (s.manager.phase i) (s.manager.threads.pc i) (s.call i) + 5 * s.manager.threads.wal.buffer.length := by
  obtain ⟨log, hsim, hinv⟩ := h
  have hwithin := hsim.within i
  cases step_move hs with
  | begin_fetch t o hi hp => simp [hp, hi, left, fetchLeft]
  | end_fetch result hi =>
    rw [hi] at hwithin
    obtain ⟨t, o, hp⟩ := hwithin
    simp [hp, hi, left, fetchLeft]
  | pop t record read e x rest hi hp hpc hbuf =>
    simp [hp, hi, hpc, hbuf, left, addLeft, pushLeft]
    omega
  | inside l hl =>
    show left _ _ (l.pc i) + _ < _
    cases Locks.step_move hl with
    | take_topics hi | push_offsets hi | push_record hi | added hi =>
      replace hi : s.call i = _ := hi
      rw [hi] at hwithin
      obtain ⟨⟨t, record, read, hp⟩, e, hpc⟩ := hwithin
      simp [State.withLog, hp, hi, hpc, left, addLeft, pushLeft]
    | look_up hi =>
      replace hi : s.call i = _ := hi
      rw [hi] at hwithin
      simp [State.withLog, show s.manager.phase i = _ from hwithin, hi, left, fetchLeft]
    | not_found hi | read hi | drop_topics hi | fetched hi =>
      replace hi : s.call i = _ := hi
      rw [hi] at hwithin
      obtain ⟨t, o, hp⟩ := hwithin
      simp [State.withLog, hp, hi, left, fetchLeft]
  | manager m hout hm =>
    dsimp only
    cases Managers.step_move hm with
    | create t schema hp => simp [hp, left]
    | fetch t o hp => exact absurd hp (hout.2.1 t o)
    | enter t record hp =>
      have hplace := hinv.place i
      rw [show (above s log).phase i = _ from (phaseOf_outside hout.1).trans hp] at hplace
      simp [show s.manager.threads.pc i = _ from hplace.of_ready.2, hp, hout.1, left, addLeft, pushLeft]
    | reject t record read e hp hpc | accept t record read e hp hpc => simp [hp, hpc, hout.1, left, addLeft, pushLeft]
    | inside t record read threads hp hstep =>
      simp only [hp, left]
      cases Threads.step_move hstep with
      | hand e x rest hpc hbuf => simp [hpc, hbuf, addLeft]
      | fail e hpc | write r hpc | push e hpc | unlock e hpc | enough e hpc | few e hpc | flush e hpc | drain e hpc
        | finish e hpc => simp [hpc, addLeft] <;> omega

theorem steps_left_step [Fintype ι] (h : Inv ipc config base calls s) (hs : step ipc s i = some s') :
    steps_left s' < steps_left s := by
  have hleft := left_step h hs
  have hsum := sum_moved (i := i) (f := fun j => left (s.manager.phase j) (s.manager.threads.pc j) (s.call j))
    (g := fun j => left (s'.manager.phase j) (s'.manager.threads.pc j) (s'.call j)) fun j hj => by
      obtain ⟨hphase, hpc, hcall⟩ := step_other hs hj
      rw [hphase, hpc, hcall]
  unfold steps_left
  omega

/-! ## Where a run ends -/

/-- Each of the two holds the lock of the log the other one waits for. -/
def Crossed (s : State ι σ ρ) : Prop := Locks.Crossed s.log

/-- A thread in the log that cannot go on waits for a lock of the log. -/
theorem blocked_inside (hs : step ipc s i = none) : Locks.step ipc s.log i = none := by
  unfold step at hs
  split at hs
  · cases hs
  · rename_i hi
    rw [Locks.step, show s.log.pc i = _ from hi]
  · exact Option.map_eq_none_iff.1 hs

/-- A thread outside the log that cannot go on. -/
theorem blocked_outside (hi : s.call i = .added) (hs : step ipc s i = none) :
    Managers.step ipc s.manager i = none ∧ (∀ t o, s.manager.phase i ≠ .ready (.fetch t o)) ∧
      ∀ t record read e, s.manager.phase i = .adding t record read → s.manager.threads.pc i ≠ .adding .draining e := by
  unfold step at hs
  simp only [hi] at hs
  split at hs
  · cases hs
  · cases hs
  · rename_i hfetch hpop
    have hstep := Option.map_eq_none_iff.1 hs
    refine ⟨hstep, fun t o hp => hfetch t o hp, fun t record read e hp hpc => ?_⟩
    cases hbuf : s.manager.threads.wal.buffer with
    | cons x rest => exact hpop t record read e x.1 x.2 rest hp hpc hbuf
    | nil =>
      rw [Managers.step, hp] at hstep
      dsimp only at hstep
      rw [hpc] at hstep
      simp [Threads.step, hpc, hbuf] at hstep

/-- A thread that waits inside `add` waits for a lock. -/
theorem blocked_adding {m : Managers.State ι σ ρ} {t : String} {record : Bytes} {read : HashMap String (TopicMetadata σ)}
    (hphase : m.phase i = .adding t record read) (hs : Managers.step ipc m i = none) :
    m.threads.bufferLock ≠ none ∨ m.threads.fileLock ≠ none ∧ holdsFile (m.threads.pc i) = false := by
  rw [Managers.step, hphase] at hs
  dsimp only at hs
  split at hs
  · cases hs
  · cases hs
  · rename_i hfailed hdone
    have hstep := Option.map_eq_none_iff.1 hs
    unfold Threads.step at hstep
    cases hpc : m.threads.pc i with
    | failed e => exact absurd hpc (hfailed e)
    | ready =>
      refine .inr ⟨fun hfree => ?_, rfl⟩
      simp only [hpc, Managers.setup, hfree, if_true] at hstep
      split at hstep
      · cases hstep
      · split at hstep <;> cases hstep
    | adding place e =>
      cases place with
      | done => exact absurd hpc (hdone e)
      | draining =>
        simp only [hpc] at hstep
        split at hstep <;> cases hstep
      | pushed => simp [hpc] at hstep
      | written | unlocked | flushed =>
        refine .inl fun hfree => ?_
        simp [hpc, hfree] at hstep
      | flushing =>
        refine .inr ⟨fun hfree => ?_, rfl⟩
        simp [hpc, hfree] at hstep

/-- A state in which nobody can go on and not all calls have returned: the two
locks of the log are crossed. -/
theorem stuck_crossed (h : Inv ipc config base calls s) (hstuck : ∀ i, step ipc s i = none)
    (hi : ∀ answer, s.manager.phase i ≠ .returned answer) : Crossed s := by
  obtain ⟨log, hsim, hinv⟩ := h
  by_contra hc
  -- so nobody is in the log
  have hout : ∀ j, s.call j = .added := by
    intro j
    by_contra hj
    have hunfinished : Locks.Unfinished (s.call j) := by
      have hjs := hstuck j
      cases hcall : s.call j with
      | added => exact absurd hcall hj
      | fetched result => simp [step, hcall] at hjs
      | _ => trivial
    have hlog : Locks.Stuck ipc s.log := ⟨⟨j, hunfinished⟩, fun k => blocked_inside (hstuck k)⟩
    exact hc (hlog.crossed hsim.indexed.locks)
  have hblocked := fun j => blocked_outside (hout j) (hstuck j)
  have hplace : ∀ j, Managers.At ipc (calls j) (s.manager.phase j) (s.manager.threads.pc j) := by
    intro j
    have := hinv.place j
    rwa [show (above s log).phase j = _ from phaseOf_outside (hout j)] at this
  -- nobody drains, so the buffer lock is free
  have hbuffer : s.manager.threads.bufferLock = none := by
    by_contra hne
    obtain ⟨j, hj⟩ := Option.ne_none_iff_exists'.1 hne
    have hholds : holdsBuffer (s.manager.threads.pc j) = true := (hinv.locked.buffer j).1 hj
    have hat := hplace j
    generalize hphase : s.manager.phase j = phase at hat
    generalize hpc : s.manager.threads.pc j = pc at hat hholds
    generalize calls j = call at hat
    cases hat with
    | adding t record read r place =>
      cases place with
      | draining => exact (hblocked j).2.2 t record read _ hphase hpc
      | _ => cases hholds
    | _ => cases hholds
  -- the holder of the file lock would go on
  have hadding : ∀ j t record read, s.manager.phase j = .adding t record read →
      s.manager.threads.fileLock ≠ none ∧ holdsFile (s.manager.threads.pc j) = false := fun j t record read hp =>
    (blocked_adding hp (hblocked j).1).resolve_left (absurd hbuffer)
  have hfile : s.manager.threads.fileLock = none := by
    by_contra hne
    obtain ⟨j, hj⟩ := Option.ne_none_iff_exists'.1 hne
    have hholds : holdsFile (s.manager.threads.pc j) = true := (hinv.locked.file j).1 hj
    have hat := hplace j
    generalize hphase : s.manager.phase j = phase at hat
    generalize hpc : s.manager.threads.pc j = pc at hat hholds
    generalize calls j = call at hat
    cases hat with
    | adding t record read r place =>
      have hfree := (hadding j t record read hphase).2
      rw [hpc, hholds] at hfree
      cases hfree
    | _ => cases hholds
  have hnone : ∀ j t record read, s.manager.phase j ≠ .adding t record read := fun j t record read hp =>
    (hadding j t record read hp).1 hfile
  -- so nobody has a guard, and a `create` would go on
  cases hp : s.manager.phase i with
  | adding t record read => exact hnone i t record read hp
  | returned answer => exact hi answer hp
  | ready call =>
    have hstep := (hblocked i).1
    rw [Managers.step, hp] at hstep
    cases call with
    | add t record => cases hstep
    | fetch t o => cases hstep
    | create t schema =>
      have hfree : s.manager.readers = ∅ := by
        refine Finset.eq_empty_of_forall_notMem fun j hj => ?_
        have hreads := (hinv.guards j).1 hj
        rw [show (above s log).phase j = _ from phaseOf_outside (hout j)] at hreads
        cases hphase : s.manager.phase j with
        | adding t record read => exact hnone j t record read hphase
        | _ => rw [hphase] at hreads; cases hreads
      simp [hfree] at hstep

/-- The steps that cross nothing: see `Locks.Careful`. -/
def Careful (s : State ι σ ρ) (i : ι) : Prop := Locks.Careful s.log i

/-- Only a step in the log can cross the locks. -/
theorem crossed_step (h : ¬ Crossed s) (hs : step ipc s i = some s') : ¬ Crossed s' ↔ Careful s i := by
  have hkeep : ∀ p, Locks.Careful s.log i → Locks.waitsForOffsets p = false → Locks.waitsForTopics p = false →
      s'.call = Function.update s.call i p → (¬ Crossed s' ↔ Careful s i) := by
    intro p hc ho ht hcall
    have hnot : ¬ Locks.Crossed s'.log := Locks.not_crossed_update (s := s.log) hcall ho ht h
    exact iff_of_true hnot hc
  have hcareful : ∀ call, s.call i = call → (call = .added ∨ ∃ result, call = .fetched result) → Locks.Careful s.log i := by
    rintro _ hi (rfl | ⟨result, rfl⟩) <;> simp [Locks.Careful, State.log, hi]
  cases step_move hs with
  | inside l hl => exact Locks.crossed_step h hl
  | manager m hout => exact iff_of_true h (hcareful _ hout.1 (.inl rfl))
  | begin_fetch t o hi => exact hkeep _ (hcareful _ hi (.inl rfl)) rfl rfl rfl
  | end_fetch result hi => exact hkeep _ (hcareful _ hi (.inr ⟨result, rfl⟩)) rfl rfl rfl
  | pop t record read e x rest hi => exact hkeep _ (hcareful _ hi (.inl rfl)) rfl rfl rfl

/-- A state in which the locks are crossed stays so. -/
theorem crossed_forever (h : Inv ipc config base calls s) (hc : Crossed s) (hs : step ipc s i = some s') :
    Crossed s' := by
  obtain ⟨log, hsim, -⟩ := h
  obtain ⟨hadd, hfetch⟩ := hc
  have hafter : ∀ p, (s.call i = .added ∨ ∃ result, s.call i = .fetched result) →
      s'.call = Function.update s.call i p → Crossed s' := by
    rintro p hi hcall
    have hi' : Locks.waitsForOffsets (s.call i) = false ∧ Locks.waitsForTopics (s.call i) = false := by
      rcases hi with hi | ⟨result, hi⟩ <;> rw [hi] <;> exact ⟨rfl, rfl⟩
    show Somewhere _ s'.call ∧ Somewhere _ s'.call
    rw [hcall]
    exact ⟨hadd.after hi'.1, hfetch.after hi'.2⟩
  cases step_move hs with
  | inside l hl =>
    have hstuck : Locks.Stuck ipc s.log := Locks.Crossed.stuck hsim.indexed.locks ⟨hadd, hfetch⟩
    have hnone := hstuck.2 i
    rw [hl] at hnone
    cases hnone
  | manager m => exact ⟨hadd, hfetch⟩
  | begin_fetch t o hi => exact hafter _ (.inl hi) rfl
  | end_fetch result hi => exact hafter _ (.inr ⟨result, hi⟩) rfl
  | pop t record read e x rest hi => exact hafter _ (.inl hi) rfl

omit [DecidableEq ι] in
theorem Crossed.not_returned (h : Inv ipc config base calls s) (hc : Crossed s) :
    ∃ i, ∀ answer, s.manager.phase i ≠ .returned answer := by
  obtain ⟨log, hsim, -⟩ := h
  obtain ⟨⟨i, hi⟩, -⟩ := hc
  refine ⟨i, fun answer hp => ?_⟩
  replace hi : Locks.waitsForOffsets (s.call i) = true := hi
  rw [hsim.left hp] at hi
  cases hi


/-! ## Whole runs -/

omit [DecidableEq ι] [DecidableEq σ] in
theorem steps_left_start [Fintype ι] {tm : TopicManager σ ρ (InMemoryLog σ ρ)} (h : Recovered ipc base tm)
    (calls : ι → Call σ) : steps_left (start tm calls) ≤ 14 * Fintype.card ι := by
  have hone : ∀ i ∈ Finset.univ, left (ρ := ρ) (.ready (calls i)) .ready .added ≤ 14 := by
    intro i _
    cases calls i <;> simp [left, fetchLeft]
  have hsum := Finset.sum_le_card_nsmul _ _ _ hone
  have hbuffer : (start tm calls).manager.threads.wal.buffer = [] := h.buffer
  rw [steps_left, hbuffer]
  simpa [Nat.mul_comm, start, Managers.start] using hsum

/-- Every run of the calls on one manager is finite. When none of them can go on,
all have returned if and only if every step of the run was careful: then no step
crossed the two locks of the log. -/
theorem calls_return [Fintype ι] {tm : TopicManager σ ρ (InMemoryLog σ ρ)} (h : Recovered ipc base tm)
    (calls : ι → Call σ) {tr} {s : State ι σ ρ} (hr : Run (step ipc) (start tm calls) tr s) :
    tr.length ≤ 14 * Fintype.card ι ∧
      ((∀ i, step ipc s i = none) → ((∀ i, ∃ answer, s.manager.phase i = .returned answer) ↔ Always Careful tr)) := by
  have hinv := hr.inv (Inv ipc tm.wal.config base calls) (inv_start h calls) fun _ _ _ => inv_step
  constructor
  · have hbound := hr.length_le (Inv ipc tm.wal.config base calls) steps_left (inv_start h calls)
      (fun _ _ _ => inv_step) fun _ _ _ => steps_left_step
    have hstart := steps_left_start h calls
    omega
  · intro hend
    have hnot : ¬ Crossed (start tm calls) := by
      rintro ⟨⟨i, hi⟩, -⟩
      cases hi
    have hiff := hr.iff_while (Inv ipc tm.wal.config base calls) (fun s => ¬ Crossed s) (C := Careful)
      (inv_start h calls) (fun _ _ _ => inv_step) hnot fun _ _ _ _ hc hs => crossed_step hc hs
    rw [← hiff]
    constructor
    · intro hall
      refine hr.throughout (Inv ipc tm.wal.config base calls) (fun s => ¬ Crossed s) (inv_start h calls)
        (fun _ _ _ => inv_step) (fun _ _ _ hi hs hc' hc => hc' (crossed_forever hi hc hs)) fun hc => ?_
      obtain ⟨i, hi⟩ := hc.not_returned hinv
      obtain ⟨answer, ha⟩ := hall i
      exact hi answer ha
    · rintro ⟨-, hlast⟩ i
      by_contra hi
      exact hlast (stuck_crossed hinv hend fun answer ha => hi ⟨answer, ha⟩)

/-- Without a fetch every call returns. -/
theorem producers_return {tm : TopicManager σ ρ (InMemoryLog σ ρ)} (h : Recovered ipc base tm)
    (hcalls : ∀ i t o, calls i ≠ .fetch t o) {tr} {s : State ι σ ρ} (hr : Run (step ipc) (start tm calls) tr s)
    (hend : ∀ i, step ipc s i = none) (i : ι) : ∃ answer, s.manager.phase i = .returned answer := by
  have hinv := hr.inv (Inv ipc tm.wal.config base calls) (inv_start h calls) fun _ _ _ => inv_step
  by_contra hi
  obtain ⟨-, j, hj⟩ := stuck_crossed hinv hend fun answer ha => hi ⟨answer, ha⟩
  obtain ⟨log, hsim, hm⟩ := hinv
  have hwithin := hsim.within j
  replace hj : Locks.waitsForTopics (s.call j) = true := hj
  generalize hcall : s.call j = call at hj hwithin
  match call, hj with
  | .fetchOffsets t (some record_offset), _ =>
    obtain ⟨u, o, hphase⟩ := hwithin
    have hready : phaseOf s j = .ready (.fetch u o) := by
      rw [phaseOf, hcall]
      exact hphase
    have hplace := hm.place j
    rw [show (above s log).phase j = _ from hready] at hplace
    exact hcalls j u o hplace.of_ready.1

end

/-- An add that hands its record over while a fetch waits for the log. -/
theorem calls_return_pocket :
    let calls : Bool → Call UInt8 := fun b => if b then .add "t" [1] else .fetch "t" 0
    let tm : TopicManager UInt8 UInt8 (InMemoryLog UInt8 UInt8) := .new .new ⟨1⟩ []
    ∃ tr s, Run (step pocketIpc) (start tm calls) tr s ∧ tr.length ≤ 28 ∧ Always Careful tr := by
  intro calls tm
  have he : exec (step pocketIpc) (start tm calls) [true, true, true, true, true, true, true, true, false, true, true,
      true, true, true, false, false, false, false, false, true] = some _ := rfl
  obtain ⟨tr, hr, -⟩ := Run.nil.exec he
  have hreturn := calls_return (recovered_new ⟨1⟩) calls hr
  refine ⟨_, _, hr, hreturn.1, (hreturn.2 fun i => by cases i <;> rfl).1 fun i => ?_⟩
  cases i
  · exact ⟨_, rfl⟩
  · exact ⟨_, rfl⟩

end herbert.Progress
