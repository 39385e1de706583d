import Herbert.TopicManager
import Herbert.Lib.Runs
import Herbert.Lib.Mutex
/-!
# Concurrent producers

Any number of threads call `TopicManager::add` on one manager, whose topics do
not change meanwhile. A thread takes one step for each stretch of code under a
lock: the frame is written under the file lock, the record is pushed to the WAL
buffer under both locks, `need_to_flush` reads the buffer under its lock, `flush`
flushes the `BufWriter` under the file lock and then drains the buffer under the
buffer lock, one record after the other. I/O succeeds.

`logged` lists the frames written, each with its thread, and `handed` the
records handed to `backend.add`. `Move` lists what one step can be. Alone, a
thread does what `TopicManager.add` does (`solo_add`).
-/
open Lib Lib.Bytes Lib.Runs Lib.Mutex herbert.WriteAheadLog

namespace herbert.Threads

variable {ι σ ρ : Type} [DecidableEq ι] [DecidableEq σ]

/-! ## The system -/

/-- Where an `add` is that has a record to store. -/
inductive Place where
  /-- The frame is written; holds the file lock. -/
  | written
  /-- The record is in the WAL buffer; holds the file lock. -/
  | pushed
  /-- `WriteAheadLog::add` has returned. -/
  | unlocked
  /-- `need_to_flush` was true. -/
  | flushing
  /-- The `BufWriter` is flushed. -/
  | flushed
  /-- Hands over the records; holds the buffer lock. -/
  | draining
  /-- Has returned `Ok`. -/
  | done
deriving DecidableEq

inductive Pc (σ ρ : Type) where
  | ready
  | adding (place : Place) (e : String × StoredRecord σ ρ)
  | failed (e : HerbertError)

structure State (ι σ ρ : Type) where
  wal : WriteAheadLog σ ρ
  backend : InMemoryLog σ ρ
  fileLock : Option ι
  bufferLock : Option ι
  pc : ι → Pc σ ρ
  logged : List (ι × String × StoredRecord σ ρ)
  handed : History σ ρ

/-- The topics, and what each thread is to add. -/
structure Setup (ι σ ρ : Type) where
  ipc : ArrowIpc σ ρ
  topic_metadatas : HashMap String (TopicMetadata σ)
  calls : ι → String × Bytes

/-- A process that has recovered `base`, before any thread begins. -/
def start (ipc : ArrowIpc σ ρ) (config : Config) (base : History σ ρ) : State ι σ ρ where
  wal := .new config (base.flatMap (frame ipc))
  backend := InMemoryLog.new.addAll base
  fileLock := none
  bufferLock := none
  pc _ := .ready
  logged := []
  handed := []

variable (setup : Setup ι σ ρ)

/-- The next step of thread `i`; `none` if it waits for a lock or is done. -/
def step (s : State ι σ ρ) (i : ι) : Option (State ι σ ρ) :=
  let go (pc : Pc σ ρ) := Function.update s.pc i pc
  match s.pc i with
  | .ready =>
    let (topic, record) := setup.calls i
    match TopicManager.stored_record setup.ipc setup.topic_metadatas topic record with
    | .error e => some { s with pc := go (.failed e) }
    | .ok r =>
      if s.fileLock = none then
        match serialize setup.ipc topic r with
        | .error e => some { s with pc := go (.failed e) }
        | .ok buffer =>
          some { s with
            wal := { s.wal with file := s.wal.file.write buffer }, fileLock := some i,
            pc := go (.adding .written (topic, r)), logged := s.logged ++ [(i, topic, r)] }
      else none
  | .adding .written e =>
    if s.bufferLock = none then
      some { s with wal := { s.wal with buffer := s.wal.buffer ++ [e] }, pc := go (.adding .pushed e) }
    else none
  | .adding .pushed e => some { s with fileLock := none, pc := go (.adding .unlocked e) }
  | .adding .unlocked e =>
    if s.bufferLock = none then
      some { s with pc := go (.adding (if s.wal.need_to_flush then .flushing else .done) e) }
    else none
  | .adding .flushing e =>
    if s.fileLock = none then
      some { s with wal := { s.wal with file := s.wal.file.flush }, pc := go (.adding .flushed e) }
    else none
  | .adding .flushed e =>
    if s.bufferLock = none then some { s with bufferLock := some i, pc := go (.adding .draining e) } else none
  | .adding .draining e =>
    -- the records `drain(..)` has not handed out yet are the buffer
    match s.wal.buffer with
    | [] => some { s with bufferLock := none, pc := go (.adding .done e) }
    | (topic, record) :: rest =>
      some { s with
        wal := { s.wal with buffer := rest }, backend := s.backend.add topic record,
        handed := s.handed ++ [(topic, record)] }
  | .adding .done _ => none
  | .failed _ => none

/-- What one step can be. -/
inductive Move (s : State ι σ ρ) (i : ι) : State ι σ ρ → Prop
  | fail (e) : s.pc i = .ready → Move s i { s with pc := Function.update s.pc i (.failed e) }
  | write (r) : s.pc i = .ready → s.fileLock = none →
      TopicManager.stored_record setup.ipc setup.topic_metadatas (setup.calls i).1 (setup.calls i).2 = .ok r →
      Move s i { s with
        wal := { s.wal with file := s.wal.file.write (frame setup.ipc ((setup.calls i).1, r)) },
        fileLock := some i, pc := Function.update s.pc i (.adding .written ((setup.calls i).1, r)),
        logged := s.logged ++ [(i, (setup.calls i).1, r)] }
  | push (e) : s.pc i = .adding .written e → s.bufferLock = none →
      Move s i { s with
        wal := { s.wal with buffer := s.wal.buffer ++ [e] }, pc := Function.update s.pc i (.adding .pushed e) }
  | unlock (e) : s.pc i = .adding .pushed e →
      Move s i { s with fileLock := none, pc := Function.update s.pc i (.adding .unlocked e) }
  | enough (e) : s.pc i = .adding .unlocked e → s.wal.config.num_uncommitted_messages ≤ s.wal.buffer.length →
      Move s i { s with pc := Function.update s.pc i (.adding .flushing e) }
  | few (e) : s.pc i = .adding .unlocked e → s.wal.buffer.length < s.wal.config.num_uncommitted_messages →
      Move s i { s with pc := Function.update s.pc i (.adding .done e) }
  | flush (e) : s.pc i = .adding .flushing e → s.fileLock = none →
      Move s i { s with
        wal := { s.wal with file := s.wal.file.flush }, pc := Function.update s.pc i (.adding .flushed e) }
  | drain (e) : s.pc i = .adding .flushed e → s.bufferLock = none →
      Move s i { s with bufferLock := some i, pc := Function.update s.pc i (.adding .draining e) }
  | hand (e x rest) : s.pc i = .adding .draining e → s.wal.buffer = x :: rest →
      Move s i { s with
        wal := { s.wal with buffer := rest }, backend := s.backend.add x.1 x.2, handed := s.handed ++ [x] }
  | finish (e) : s.pc i = .adding .draining e → s.wal.buffer = [] →
      Move s i { s with bufferLock := none, pc := Function.update s.pc i (.adding .done e) }

variable {setup} {s s' : State ι σ ρ} {i : ι}

theorem step_move (hs : step setup s i = some s') : Move setup s i s' := by
  unfold step at hs
  cases hi : s.pc i with
  | ready =>
    simp only [hi] at hs
    split at hs
    · cases hs; exact .fail _ hi
    · rename_i r hr
      split at hs
      · rename_i hfree
        split at hs
        · cases hs; exact .fail _ hi
        · rename_i buffer hbuf
          cases hs
          rw [serialize_ok setup.ipc hbuf]
          exact .write r hi hfree hr
      · cases hs
  | failed e => simp [hi] at hs
  | adding place e =>
    cases place with
    | written =>
      simp only [hi, Option.ite_none_right_eq_some, Option.some.injEq] at hs
      obtain ⟨hfree, rfl⟩ := hs
      exact .push e hi hfree
    | pushed =>
      simp only [hi, Option.some.injEq] at hs
      subst hs
      exact .unlock e hi
    | unlocked =>
      simp only [hi, Option.ite_none_right_eq_some, Option.some.injEq] at hs
      obtain ⟨-, rfl⟩ := hs
      by_cases hn : s.wal.config.num_uncommitted_messages ≤ s.wal.buffer.length
      · simpa [need_to_flush, hn] using Move.enough e hi hn
      · simpa [need_to_flush, hn] using Move.few e hi (Nat.lt_of_not_le hn)
    | flushing =>
      simp only [hi, Option.ite_none_right_eq_some, Option.some.injEq] at hs
      obtain ⟨hfree, rfl⟩ := hs
      exact .flush e hi hfree
    | flushed =>
      simp only [hi, Option.ite_none_right_eq_some, Option.some.injEq] at hs
      obtain ⟨hfree, rfl⟩ := hs
      exact .drain e hi hfree
    | draining =>
      simp only [hi] at hs
      split at hs
      · rename_i hbuf
        cases hs; exact .finish e hi hbuf
      · rename_i t r rest hbuf
        cases hs; exact .hand e (t, r) rest hi hbuf
    | done => simp [hi] at hs

/-! ## One thread alone -/

/-- A drain hands over everything in the WAL buffer. -/
theorem drain_all {e : String × StoredRecord σ ρ} (hi : s.pc i = .adding .draining e) :
    exec (step setup) s (List.replicate s.wal.buffer.length i) = some { s with
      wal := { s.wal with buffer := [] }, backend := s.backend.addAll s.wal.buffer,
      handed := s.handed ++ s.wal.buffer } := by
  induction hb : s.wal.buffer generalizing s with
  | nil =>
    simp only [List.length_nil, List.replicate_zero, exec, InMemoryLog.addAll, List.foldl_nil, List.append_nil]
    rw [← hb]
  | cons x rest ih =>
    have hstep : step setup s i = some { s with
        wal := { s.wal with buffer := rest }, backend := s.backend.add x.1 x.2, handed := s.handed ++ [x] } := by
      simp [step, hi, hb]
    have hrest := ih (s := { s with
      wal := { s.wal with buffer := rest }, backend := s.backend.add x.1 x.2, handed := s.handed ++ [x] }) hi rfl
    rw [List.length_cons, List.replicate_succ, exec, hstep, Option.bind_some, hrest]
    simp [InMemoryLog.addAll]

theorem exec_replicate {s₁ s₂ : State ι σ ρ} {n m : Nat} (h₁ : exec (step setup) s (List.replicate n i) = some s₁)
    (h₂ : exec (step setup) s₁ (List.replicate m i) = some s₂) :
    exec (step setup) s (List.replicate (n + m) i) = some s₂ := by
  rw [List.replicate_add, exec_append, h₁]
  exact h₂

/-- The steps of one thread that nobody interrupts do what `TopicManager.add` does. -/
theorem solo_add {r : StoredRecord σ ρ} (hi : s.pc i = .ready) (hf : s.fileLock = none) (hb : s.bufferLock = none)
    (hr : TopicManager.stored_record setup.ipc setup.topic_metadatas (setup.calls i).1 (setup.calls i).2 = .ok r)
    (hw : Writable setup.ipc r) :
    let tm : TopicManager σ ρ (InMemoryLog σ ρ) := ⟨s.backend, setup.topic_metadatas, s.wal⟩
    let added := tm.add setup.ipc (setup.calls i).1 (setup.calls i).2
    ∃ n s', exec (step setup) s (List.replicate n i) = some s' ∧ added.1 = .ok () ∧
      s'.pc i = .adding .done ((setup.calls i).1, r) ∧ s'.wal = added.2.wal ∧ s'.backend = added.2.backend := by
  intro tm added
  have hadd := TopicManager.add_log tm hr hw
  let e := ((setup.calls i).1, r)
  -- the frame is written, the record pushed, the file lock given back
  have hlog : exec (step setup) s (List.replicate 3 i) = some { s with
      wal := s.wal.logged setup.ipc e, logged := s.logged ++ [(i, e)],
      pc := Function.update s.pc i (.adding .unlocked e) } := by
    simp [exec, step, hi, hf, hb, hr, serialize_writable setup.ipc hw, logged, e]
  by_cases hn : (s.wal.logged setup.ipc e).need_to_flush = true
  · let s₁ : State ι σ ρ := { s with
      wal := { s.wal.logged setup.ipc e with file := (s.wal.logged setup.ipc e).file.flush }, bufferLock := some i,
      logged := s.logged ++ [(i, e)], pc := Function.update s.pc i (.adding .draining e) }
    have hflush : exec (step setup) s (List.replicate (3 + 3) i) = some s₁ := by
      apply exec_replicate hlog
      simp [exec, step, hf, hb, hn, s₁]
    have hdrain := exec_replicate hflush (drain_all (e := e) (by simp [s₁]))
    let s₂ : State ι σ ρ := { s with
      wal := (s.wal.logged setup.ipc e).flushed, backend := s.backend.addAll (s.wal.buffer ++ [e]),
      logged := s.logged ++ [(i, e)], handed := s.handed ++ (s.wal.buffer ++ [e]),
      pc := Function.update s.pc i (.adding .done e) }
    have hfinish : exec (step setup) s (List.replicate (3 + 3 + s₁.wal.buffer.length + 1) i) = some s₂ :=
      exec_replicate hdrain (by simp [exec, step, s₁, s₂, hb, logged, flushed])
    refine ⟨_, s₂, hfinish, ?_, by simp [s₂, e], ?_, ?_⟩ <;> simp [added, hadd, s₂, e, hn, tm]
  · refine ⟨3 + 1, _, exec_replicate hlog (by simp [exec, step, hb, hn]; rfl), ?_, ?_, ?_, ?_⟩ <;>
      simp [added, hadd, e, hn, tm]

end herbert.Threads
