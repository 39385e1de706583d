import Herbert.Storage
import Herbert.Lib.BufWriter
/-!
# The write-ahead log

`WriteAheadLog::add` appends a frame to the file's `BufWriter` and pushes the
record to the WAL buffer; `flush` writes the pending bytes to the file and hands
the buffered records to the backend. Writes to the file succeed and take all
bytes, and no lock is poisoned.

`frame` is what `serialize` writes for a record that Arrow can serialize, and
the in-memory log takes all a flush hands it.
-/
open Lib Lib.Bytes

namespace herbert

variable {σ ρ β : Type}

structure Config where
  num_uncommitted_messages : Nat
deriving DecidableEq, Repr

structure WriteAheadLog (σ ρ : Type) where
  file : BufWriter UInt8
  buffer : List (String × StoredRecord σ ρ)
  config : Config

namespace WriteAheadLog

/-- The file is opened for appending, and `file` is what it holds. -/
def new (config : Config) (file : Bytes) : WriteAheadLog σ ρ :=
  { file := { inner := file, buf := [], capacity := 8192 }, buffer := [], config }

def serialize (ipc : ArrowIpc σ ρ) (topic : String) (records : StoredRecord σ ρ) : Except HerbertError Bytes :=
  let buffer := utf8 topic ++ [10]
  match records with
  | .Raw bytes =>
    -- zero indicates raw bytes
    .ok (buffer ++ [0] ++ le32 bytes.length ++ bytes)
  | .Batch record_batch =>
    -- one indicates a record batch
    match ipc.write record_batch.schema [record_batch] with
    | .error e => .error (.ArrowError e)
    | .ok tmp_buffer => .ok (buffer ++ [1] ++ le32 tmp_buffer.length ++ tmp_buffer)

def add (ipc : ArrowIpc σ ρ) (wal : WriteAheadLog σ ρ) (topic : String) (records : StoredRecord σ ρ) :
    Except HerbertError Unit × WriteAheadLog σ ρ :=
  match serialize ipc topic records with
  | .error e => (.error e, wal)
  | .ok buffer => (.ok (), { wal with file := wal.file.write buffer, buffer := wal.buffer ++ [(topic, records)] })

/-- The loop of `flush` over the drained records. Those behind a failed one are
dropped with the `Drain`. -/
def drain [RecordStorage β σ ρ] (backend : β) : List (String × StoredRecord σ ρ) → Except HerbertError Unit × β
  | [] => (.ok (), backend)
  | (topic, record) :: rest =>
    match RecordStorage.add backend topic record with
    | (.error e, backend) => (.error e, backend)
    | (.ok (), backend) => drain backend rest

def flush [RecordStorage β σ ρ] (wal : WriteAheadLog σ ρ) (backend : β) :
    Except HerbertError Unit × WriteAheadLog σ ρ × β :=
  let (result, backend) := drain backend wal.buffer
  (result, { wal with file := wal.file.flush, buffer := [] }, backend)

def need_to_flush (wal : WriteAheadLog σ ρ) : Bool :=
  wal.config.num_uncommitted_messages ≤ wal.buffer.length

/-! ## Frames -/

def indicator : StoredRecord σ ρ → UInt8
  | .Raw _ => 0
  | .Batch _ => 1

/-- The bytes behind the length: the record's own, or a stream of its batch. -/
def payload (ipc : ArrowIpc σ ρ) : StoredRecord σ ρ → Bytes
  | .Raw bytes => bytes
  | .Batch batch => (ipc.write batch.schema [batch]).toOption.getD []

/-- A record in the file: name, newline, indicator, length, payload. -/
def frame (ipc : ArrowIpc σ ρ) (e : String × StoredRecord σ ρ) : Bytes :=
  utf8 e.1 ++ 10 :: indicator e.2 :: (le32 (payload ipc e.2).length ++ payload ipc e.2)

theorem length_frame (ipc : ArrowIpc σ ρ) (t : String) (r : StoredRecord σ ρ) :
    (frame ipc (t, r)).length = (utf8 t).length + (payload ipc r).length + 6 := by
  simp only [frame, List.length_append, List.length_cons, length_le32]
  omega

/-- The name ends at its newline, and the length fits its four bytes. -/
def Delimited (ipc : ArrowIpc σ ρ) (topic : String) (record : StoredRecord σ ρ) : Prop :=
  10 ∉ utf8 topic ∧ (payload ipc record).length < 2 ^ 32

/-- What Linux takes in one `write`: `0x7ffff000` bytes. -/
def max_write : Nat := 2147479552

/-- The name ends at its newline, and one `write` takes the whole frame. -/
def Loggable (ipc : ArrowIpc σ ρ) (topic : String) (record : StoredRecord σ ρ) : Prop :=
  10 ∉ utf8 topic ∧ (frame ipc (topic, record)).length ≤ max_write

instance (ipc : ArrowIpc σ ρ) (topic : String) (record : StoredRecord σ ρ) : Decidable (Delimited ipc topic record) :=
  inferInstanceAs (Decidable (_ ∧ _))

instance (ipc : ArrowIpc σ ρ) (topic : String) (record : StoredRecord σ ρ) : Decidable (Loggable ipc topic record) :=
  inferInstanceAs (Decidable (_ ∧ _))

theorem Loggable.delimited {ipc : ArrowIpc σ ρ} {t : String} {r : StoredRecord σ ρ} (h : Loggable ipc t r) :
    Delimited ipc t r := by
  refine ⟨h.1, ?_⟩
  have := h.2
  rw [length_frame, max_write] at this
  omega

/-- Arrow can write the record. Raw records need no Arrow. -/
def Writable (ipc : ArrowIpc σ ρ) : StoredRecord σ ρ → Prop
  | .Raw _ => True
  | .Batch batch => ∃ w, ipc.write batch.schema [batch] = .ok w

theorem writable_of_lawful {ipc : ArrowIpc σ ρ} (hipc : ipc.Lawful) (r : StoredRecord σ ρ) :
    Writable ipc r := by
  cases r with
  | Raw bytes => trivial
  | Batch batch =>
    obtain ⟨w, hw, -⟩ := hipc.read_write batch.schema [batch] (by simp)
    exact ⟨w, hw⟩

variable (ipc : ArrowIpc σ ρ)

theorem serialize_writable {r : StoredRecord σ ρ} (h : Writable ipc r) (t : String) :
    serialize ipc t r = .ok (frame ipc (t, r)) := by
  cases r with
  | Raw bytes => simp [serialize, frame, indicator, payload]
  | Batch batch =>
    obtain ⟨w, hw⟩ := h
    simp [serialize, frame, indicator, payload, hw, Except.toOption]

theorem writable_of_serialize {r : StoredRecord σ ρ} {t : String} {w : Bytes} (h : serialize ipc t r = .ok w) :
    Writable ipc r := by
  cases r with
  | Raw bytes => trivial
  | Batch batch =>
    simp only [serialize] at h
    split at h
    · cases h
    · rename_i w' hw'; exact ⟨w', hw'⟩

/-- What `serialize` returns is the frame. -/
theorem serialize_ok {r : StoredRecord σ ρ} {t : String} {w : Bytes} (h : serialize ipc t r = .ok w) :
    w = frame ipc (t, r) := by
  rw [serialize_writable ipc (writable_of_serialize ipc h)] at h
  exact (Except.ok.inj h).symm

/-- The log with one more record. -/
def logged (wal : WriteAheadLog σ ρ) (e : String × StoredRecord σ ρ) : WriteAheadLog σ ρ :=
  { wal with file := wal.file.write (frame ipc e), buffer := wal.buffer ++ [e] }

theorem add_writable {r : StoredRecord σ ρ} (h : Writable ipc r) (wal : WriteAheadLog σ ρ) (t : String) :
    wal.add ipc t r = (.ok (), wal.logged ipc (t, r)) := by
  rw [add, serialize_writable ipc h, logged]

/-- The log after a flush. -/
def flushed (wal : WriteAheadLog σ ρ) : WriteAheadLog σ ρ := { wal with file := wal.file.flush, buffer := [] }

/-- The in-memory log takes every drained record. -/
theorem drain_log (log : InMemoryLog σ ρ) (rs : History σ ρ) : drain log rs = (.ok (), log.addAll rs) := by
  induction rs generalizing log with
  | nil => rfl
  | cons e rs ih => exact ih _

theorem flush_log (wal : WriteAheadLog σ ρ) (log : InMemoryLog σ ρ) :
    wal.flush log = (.ok (), wal.flushed, log.addAll wal.buffer) := by
  rw [flush, drain_log, flushed]

end WriteAheadLog
end herbert
