import Herbert.TopicManager
import Herbert.Lib.Faulty
import Herbert.Lib.Runs
/-!
# The write-ahead log on a file that fails

The log and `TopicManager::add` on a file whose writes may fail or take a part of
the bytes. `WriteAheadLog::add` asks the `BufWriter` once and does not look at
how many bytes it took; `flush` writes what is pending, and drains the buffer
when that succeeded.

On a file that takes every frame whole this is `herbert.WriteAheadLog` and
`herbert.TopicManager` (`add_steady`).
-/
open Lib Lib.Faulty Lib.Runs herbert.WriteAheadLog herbert.TopicManager

namespace herbert.Faults

variable {σ ρ β : Type}

structure WriteAheadLog (σ ρ : Type) where
  file : Faulty.BufWriter IoError UInt8
  buffer : List (String × StoredRecord σ ρ)
  config : Config

namespace WriteAheadLog

/-- On a file that holds `file` and will give the answers. -/
def new (config : Config) (file : Bytes) (answers : List (Answer IoError)) : WriteAheadLog σ ρ :=
  { file := { inner := ⟨file, answers⟩, buf := [], capacity := 8192 }, buffer := [], config }

def add (ipc : ArrowIpc σ ρ) (wal : WriteAheadLog σ ρ) (topic : String) (records : StoredRecord σ ρ) :
    Except HerbertError Unit × WriteAheadLog σ ρ :=
  match serialize ipc topic records with
  | .error e => (.error e, wal)
  | .ok buffer =>
    match wal.file.write buffer with
    | (.error e, file) => (.error (.Io e), { wal with file })
    -- the number of bytes taken is dropped
    | (.ok _, file) => (.ok (), { wal with file, buffer := wal.buffer ++ [(topic, records)] })

def flush [RecordStorage β σ ρ] (wal : WriteAheadLog σ ρ) (backend : β) :
    Except HerbertError Unit × WriteAheadLog σ ρ × β :=
  match wal.file.flush with
  | (.error e, file) => (.error (.Io e), { wal with file }, backend)
  | (.ok (), file) =>
    let (result, backend) := drain backend wal.buffer
    (result, { wal with file, buffer := [] }, backend)

def need_to_flush (wal : WriteAheadLog σ ρ) : Bool :=
  wal.config.num_uncommitted_messages ≤ wal.buffer.length

/-- The log on a file that takes all it is given. -/
def settled (wal : WriteAheadLog σ ρ) : herbert.WriteAheadLog σ ρ :=
  { file := wal.file.settled, buffer := wal.buffer, config := wal.config }

/-- The file takes pieces up to the limit whole, and what is pending is one. -/
structure Steady (limit : Nat) (wal : WriteAheadLog σ ρ) : Prop where
  answers : wal.file.Steady limit
  pending : wal.file.buf.length ≤ wal.file.capacity
  capacity : wal.file.capacity ≤ limit

section
variable {ipc : ArrowIpc σ ρ} {wal : WriteAheadLog σ ρ} {t : String} {r : StoredRecord σ ρ} {w : Bytes}
  {file : Faulty.BufWriter IoError UInt8}

/-- A frame the `BufWriter` took something of is logged. -/
theorem add_written (hs : serialize ipc t r = .ok w) {n : Nat} (hw : wal.file.write w = (.ok n, file)) :
    wal.add ipc t r = (.ok (), { wal with file, buffer := wal.buffer ++ [(t, r)] }) := by
  simp only [add, hs, hw]

theorem add_unwritten (hs : serialize ipc t r = .ok w) {e : IoError} (hw : wal.file.write w = (.error e, file)) :
    wal.add ipc t r = (.error (.Io e), { wal with file }) := by
  simp only [add, hs, hw]

theorem add_unserialized {e : HerbertError} (hs : serialize ipc t r = .error e) : wal.add ipc t r = (.error e, wal) := by
  simp only [add, hs]

theorem flush_written [RecordStorage β σ ρ] (hw : wal.file.flush = (.ok (), file)) (b : β) :
    wal.flush b = ((drain b wal.buffer).1, { wal with file, buffer := [] }, (drain b wal.buffer).2) := by
  simp only [flush, hw]

theorem flush_unwritten [RecordStorage β σ ρ] {e : IoError} (hw : wal.file.flush = (.error e, file)) (b : β) :
    wal.flush b = (.error (.Io e), { wal with file }, b) := by
  simp only [flush, hw]

end

variable {limit : Nat}

theorem steady_new {answers : List (Answer IoError)} (h : ∀ a ∈ answers, ∃ n, a = .took n ∧ limit ≤ n + 1)
    (hlimit : 8192 ≤ limit) (config : Config) (file : Bytes) :
    (new config file answers : WriteAheadLog σ ρ).Steady limit := ⟨h, Nat.zero_le _, hlimit⟩

theorem Steady.pending_le {wal : WriteAheadLog σ ρ} (h : wal.Steady limit) : wal.file.buf.length ≤ limit :=
  h.pending.trans h.capacity

/-- A frame up to the limit is logged as on a file that takes all it is given. -/
theorem add_steady (ipc : ArrowIpc σ ρ) {wal : WriteAheadLog σ ρ} (h : wal.Steady limit) (t : String)
    {r : StoredRecord σ ρ} (hfit : (frame ipc (t, r)).length ≤ limit) :
    (wal.add ipc t r).1 = (wal.settled.add ipc t r).1 ∧ (wal.add ipc t r).2.settled = (wal.settled.add ipc t r).2 ∧
      (wal.add ipc t r).2.Steady limit := by
  cases hs : serialize ipc t r with
  | error e =>
    rw [add_unserialized hs, herbert.WriteAheadLog.add, hs]
    exact ⟨rfl, rfl, h⟩
  | ok w =>
    rw [← serialize_ok ipc hs] at hfit
    obtain ⟨hok, hw, hans⟩ := BufWriter.write_steady h.answers h.pending_le hfit
    rw [add_written hs (Prod.ext hok rfl), herbert.WriteAheadLog.add, hs]
    refine ⟨rfl, by simp [settled, hw], h.answers.of_suffix hans, ?_, ?_⟩
    · show (wal.file.write w).2.settled.buf.length ≤ (wal.file.write w).2.settled.capacity
      rw [hw, Lib.BufWriter.capacity_write]
      exact Lib.BufWriter.length_buf_write h.pending w
    · show (wal.file.write w).2.settled.capacity ≤ limit
      rw [hw, Lib.BufWriter.capacity_write]
      exact h.capacity

theorem flush_steady [RecordStorage β σ ρ] {wal : WriteAheadLog σ ρ} (h : wal.Steady limit) (b : β) :
    (wal.flush b).1 = (wal.settled.flush b).1 ∧ (wal.flush b).2.1.settled = (wal.settled.flush b).2.1 ∧
      (wal.flush b).2.2 = (wal.settled.flush b).2.2 ∧ (wal.flush b).2.1.Steady limit := by
  obtain ⟨hok, hw, hans⟩ := BufWriter.flush_steady h.answers h.pending_le
  rw [flush_written (Prod.ext hok rfl), herbert.WriteAheadLog.flush]
  refine ⟨rfl, by simp [settled, hw], rfl, h.answers.of_suffix hans, ?_, ?_⟩
  · show wal.file.flush.2.settled.buf.length ≤ _
    rw [hw]
    exact Nat.zero_le _
  · show wal.file.flush.2.settled.capacity ≤ limit
    rw [hw]
    exact h.capacity

end WriteAheadLog

structure TopicManager (σ ρ β : Type) where
  backend : β
  topic_metadatas : HashMap String (TopicMetadata σ)
  wal : WriteAheadLog σ ρ

namespace TopicManager

variable [RecordStorage β σ ρ]

def add [DecidableEq σ] (ipc : ArrowIpc σ ρ) (tm : TopicManager σ ρ β) (topic : String) (record : Bytes) :
    Except HerbertError Unit × TopicManager σ ρ β :=
  match stored_record ipc tm.topic_metadatas topic record with
  | .error e => (.error e, tm)
  | .ok stored_record =>
    match tm.wal.add ipc topic stored_record with
    | (.error e, wal) => (.error e, { tm with wal })
    | (.ok (), wal) =>
      if wal.need_to_flush then
        let (result, wal, backend) := wal.flush tm.backend
        (result, { tm with wal, backend })
      else (.ok (), { tm with wal })

section
variable [DecidableEq σ] {ipc : ArrowIpc σ ρ} {tm : TopicManager σ ρ β} {t : String} {record : Bytes}
  {r : StoredRecord σ ρ} {wal : WriteAheadLog σ ρ} {e : HerbertError}

theorem add_refused (hr : stored_record ipc tm.topic_metadatas t record = .error e) :
    tm.add ipc t record = (.error e, tm) := by
  simp only [add, hr]

theorem add_unlogged (hr : stored_record ipc tm.topic_metadatas t record = .ok r)
    (hw : tm.wal.add ipc t r = (.error e, wal)) : tm.add ipc t record = (.error e, { tm with wal }) := by
  simp only [add, hr, hw]

/-- A record that was logged is flushed with the others once there are enough. -/
theorem add_logged (hr : stored_record ipc tm.topic_metadatas t record = .ok r)
    (hw : tm.wal.add ipc t r = (.ok (), wal)) :
    tm.add ipc t record =
      if wal.need_to_flush then
        ((wal.flush tm.backend).1, { tm with
          wal := (wal.flush tm.backend).2.1, backend := (wal.flush tm.backend).2.2 })
      else (.ok (), { tm with wal }) := by
  simp only [add, hr, hw]

/-- A flush moves bytes to the file, so what is logged stays what the `add` left. -/
theorem contents_add (hr : stored_record ipc tm.topic_metadatas t record = .ok r) :
    (tm.add ipc t record).2.wal.file.contents = (tm.wal.add ipc t r).2.file.contents ∧
      (tm.add ipc t record).2.topic_metadatas = tm.topic_metadatas := by
  cases hw : tm.wal.add ipc t r with
  | mk result wal =>
    cases result with
    | error e =>
      rw [add_unlogged hr hw]
      exact ⟨rfl, rfl⟩
    | ok u =>
      have hflush := BufWriter.contents_flush wal.file
      rw [add_logged hr hw]
      split
      · refine ⟨?_, rfl⟩
        cases hf : wal.file.flush with
        | mk result file =>
          rw [hf] at hflush
          cases result with
          | error e =>
            rw [WriteAheadLog.flush_unwritten hf]
            exact hflush
          | ok u =>
            rw [WriteAheadLog.flush_written hf]
            exact hflush
      · exact ⟨rfl, rfl⟩

/-- The record is not to be logged, its frame is not taken, or it is logged and
flushed with the others once there are enough. -/
theorem add_cases (ipc : ArrowIpc σ ρ) (tm : TopicManager σ ρ β) (t : String) (record : Bytes) :
    (∃ e, tm.add ipc t record = (.error e, tm) ∧
      ∀ r w, stored_record ipc tm.topic_metadatas t record = .ok r → serialize ipc t r ≠ .ok w) ∨
    ∃ r w, stored_record ipc tm.topic_metadatas t record = .ok r ∧ serialize ipc t r = .ok w ∧
      ((∃ e file, tm.wal.file.write w = (.error e, file) ∧
        tm.add ipc t record = (.error (.Io e), { tm with wal := { tm.wal with file } })) ∨
      ∃ n file, tm.wal.file.write w = (.ok n, file) ∧
        let wal : WriteAheadLog σ ρ := { tm.wal with file, buffer := tm.wal.buffer ++ [(t, r)] }
        tm.add ipc t record =
          if tm.wal.config.num_uncommitted_messages ≤ tm.wal.buffer.length + 1 then
            ((wal.flush tm.backend).1, { tm with
              wal := (wal.flush tm.backend).2.1, backend := (wal.flush tm.backend).2.2 })
          else (.ok (), { tm with wal })) := by
  cases hr : stored_record ipc tm.topic_metadatas t record with
  | error e => exact .inl ⟨e, add_refused hr, by simp⟩
  | ok r =>
    cases hs : serialize ipc t r with
    | error e =>
      refine .inl ⟨e, add_unlogged hr (WriteAheadLog.add_unserialized hs), fun r' w hr' hs' => ?_⟩
      cases hr'
      rw [hs] at hs'
      cases hs'
    | ok w =>
      refine .inr ⟨r, w, rfl, hs, ?_⟩
      cases hw : tm.wal.file.write w with
      | mk result file =>
        cases result with
        | error e => exact .inl ⟨e, file, rfl, add_unlogged hr (WriteAheadLog.add_unwritten hs hw)⟩
        | ok n =>
          refine .inr ⟨n, file, rfl, ?_⟩
          dsimp only
          rw [add_logged hr (WriteAheadLog.add_written hs hw)]
          simp [WriteAheadLog.need_to_flush]

end

/-- The manager on a file that takes all it is given. -/
def settled (tm : TopicManager σ ρ β) : herbert.TopicManager σ ρ β :=
  { backend := tm.backend, topic_metadatas := tm.topic_metadatas, wal := tm.wal.settled }

/-- With frames up to the limit `add` is that of the manager without faults. -/
theorem add_steady [DecidableEq σ] (ipc : ArrowIpc σ ρ) {limit : Nat} {tm : TopicManager σ ρ β}
    (h : tm.wal.Steady limit) {t : String} {record : Bytes}
    (hfit : ∀ r, stored_record ipc tm.topic_metadatas t record = .ok r → (frame ipc (t, r)).length ≤ limit) :
    (tm.add ipc t record).1 = (tm.settled.add ipc t record).1 ∧
      (tm.add ipc t record).2.settled = (tm.settled.add ipc t record).2 ∧ (tm.add ipc t record).2.wal.Steady limit := by
  cases hr : stored_record ipc tm.topic_metadatas t record with
  | error e =>
    rw [add_refused hr, add_error tm.settled hr]
    exact ⟨rfl, rfl, h⟩
  | ok r =>
    obtain ⟨hfst, hsnd, hsteady⟩ := WriteAheadLog.add_steady ipc h t (hfit r hr)
    have hset : tm.settled.wal.add ipc t r = ((tm.wal.add ipc t r).1, (tm.wal.add ipc t r).2.settled) :=
      (Prod.ext hfst hsnd).symm
    cases hw : (tm.wal.add ipc t r).1 with
    | error e =>
      rw [add_unlogged hr (Prod.ext hw rfl), herbert.TopicManager.add]
      rw [hw] at hset
      simp only [show stored_record ipc tm.settled.topic_metadatas t record = .ok r from hr, hset]
      exact ⟨trivial, rfl, hsteady⟩
    | ok u =>
      obtain ⟨hfl, hwal, hback, hsteady'⟩ := WriteAheadLog.flush_steady hsteady tm.backend
      rw [add_logged hr (Prod.ext hw rfl), herbert.TopicManager.add]
      rw [hw] at hset
      simp only [show stored_record ipc tm.settled.topic_metadatas t record = .ok r from hr, hset]
      split
      · rename_i hneed
        rw [if_pos (show (tm.wal.add ipc t r).2.settled.need_to_flush = true from hneed)]
        exact ⟨hfl, by simp only [settled, hwal, hback], hsteady'⟩
      · rename_i hneed
        rw [if_neg (show ¬ (tm.wal.add ipc t r).2.settled.need_to_flush = true from hneed)]
        exact ⟨rfl, rfl, hsteady⟩

end TopicManager

end herbert.Faults
