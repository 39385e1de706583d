import Herbert.Wal
import Herbert.Lib.Frames
/-!
# The topic manager

`TopicManager::add` validates a record against the topic's schema, logs it, and
flushes the WAL once enough records are buffered. `recover` reads the WAL file
frame by frame and hands every record to the backend. `next_frame` is one pass
of its reading, `install` what it does with the frame.

An operation returns its result and the manager it leaves: one that fails may
have done part of its work. `Tracks` says what `add`, `create` and `fetch` keep
of a manager on the in-memory log.
-/
open Lib Lib.Bytes

namespace herbert

variable {σ ρ β : Type}

def parse_record_batch_from_bytes [DecidableEq σ] (ipc : ArrowIpc σ ρ) (record : Bytes) (expected_schema : σ) :
    Except HerbertError (RecordBatch σ ρ) :=
  if record.length < 8 then .error (.InvalidArrowIpc s!"record len {record.length} smaller than 8")
  -- streams start with the continuation marker or the "ARROW1" magic
  else if record.take 6 ≠ arrow1 ∧ record.take 4 ≠ continuation then
    .error (.InvalidArrowIpc "missing magic bytes")
  else match ipc.read record with
    | .error e => .error (.ArrowError e)
    | .ok [] => .error (.InvalidArrowIpc "no record batch found")
    | .ok (.error e :: _) => .error (.ArrowError e)
    | .ok (.ok batch :: _) =>
      if batch.schema ≠ expected_schema then
        .error (.SchemaError (ipc.debug batch.schema) (ipc.debug expected_schema))
      else .ok batch

structure TopicMetadata (σ : Type) where
  name : String
  schema : Option σ
deriving DecidableEq, Repr

structure TopicManager (σ ρ β : Type) where
  backend : β
  topic_metadatas : HashMap String (TopicMetadata σ)
  wal : WriteAheadLog σ ρ

namespace TopicManager

/-- A manager without topics, on a WAL file that holds `file`. -/
def new (backend : β) (config : Config) (file : Bytes) : TopicManager σ ρ β :=
  { backend, topic_metadatas := ∅, wal := .new config file }

def topic_exists (tm : TopicManager σ ρ β) (topic : String) : Bool := (tm.topic_metadatas.lookup topic).isSome

def create (tm : TopicManager σ ρ β) (topic : String) (schema : Option σ) :
    Except HerbertError Unit × TopicManager σ ρ β :=
  if tm.topic_exists topic then (.error (.TopicAlreadyExists topic), tm)
  else (.ok (), { tm with topic_metadatas := tm.topic_metadatas.insert topic ⟨topic, schema⟩ })

section
variable [DecidableEq σ] (ipc : ArrowIpc σ ρ)

/-- What `add` stores for the bytes it is given. -/
def stored_record (topic_metadatas : HashMap String (TopicMetadata σ)) (topic : String) (record : Bytes) :
    Except HerbertError (StoredRecord σ ρ) :=
  match topic_metadatas.lookup topic with
  | some ⟨_, some schema⟩ =>
    -- the topic has a schema: parse and store as a record batch
    match parse_record_batch_from_bytes ipc record schema with
    | .ok batch => .ok (.Batch batch)
    | .error e => .error e
  | some ⟨_, none⟩ => .ok (.Raw record)
  | none => .ok (.Raw record)

variable [RecordStorage β σ ρ]

def add (tm : TopicManager σ ρ β) (topic : String) (record : Bytes) :
    Except HerbertError Unit × TopicManager σ ρ β :=
  match stored_record ipc tm.topic_metadatas topic record with
  | .error e => (.error e, tm)
  | .ok stored_record =>
    match tm.wal.add ipc topic stored_record with
    | (.error e, wal) => (.error e, { tm with wal })
    | (.ok (), wal) =>
      if wal.need_to_flush then
        let (result, wal, backend) := wal.flush tm.backend
        (result, { tm with wal, backend })
      else (.ok (), { tm with wal })

def fetch (tm : TopicManager σ ρ β) (topic : String) (fetch_offset : Int) :
    Except HerbertError Bytes × TopicManager σ ρ β :=
  let (result, backend) := RecordStorage.fetch ipc tm.backend topic fetch_offset
  (result, { tm with backend })

end

theorem wal_create (tm : TopicManager σ ρ β) (t : String) (schema : Option σ) : (tm.create t schema).2.wal = tm.wal := by
  unfold create
  split <;> rfl

theorem backend_create (tm : TopicManager σ ρ β) (t : String) (schema : Option σ) :
    (tm.create t schema).2.backend = tm.backend := by
  unfold create
  split <;> rfl

/-- Only a topic that does not exist gets metadata. -/
theorem lookup_create (tm : TopicManager σ ρ β) (t : String) (schema : Option σ) (t' : String) :
    (tm.create t schema).2.topic_metadatas.lookup t' =
      if t' = t ∧ tm.topic_metadatas.lookup t = none then some ⟨t, schema⟩ else tm.topic_metadatas.lookup t' := by
  unfold create topic_exists
  cases hm : tm.topic_metadatas.lookup t with
  | some metadata => simp
  | none =>
    by_cases h : t' = t
    · subst h; simp
    · simp [h, AList.lookup_insert_ne h]

/-! ## Recovery -/

section
variable (ipc : ArrowIpc σ ρ)

/-- The `match indicator` of `recover`: the record, `none` for a stream without
a batch, and the bytes behind it. -/
def read_record (indicator : UInt8) (size : Nat) (input : Bytes) :
    Except HerbertError (Option (StoredRecord σ ρ) × Bytes) :=
  if indicator = 0 then
    match readExact size input with
    | none => .error (.Io .UnexpectedEof)
    | some (buf, rest) => .ok (some (.Raw buf), rest)
  else if indicator = 1 then
    match readExact size input with
    | none => .error (.Io .UnexpectedEof)
    | some (buf, rest) =>
      match ipc.read buf with
      | .error e => .error (.ArrowError e)
      | .ok [] => .ok (none, rest)
      | .ok (.error e :: _) => .error (.ArrowError e)
      | .ok (.ok record_batch :: _) => .ok (some (.Batch record_batch), rest)
  else .error (.IndicatorError indicator)

/-- One pass of the reading in `recover`: the topic, its record, and the bytes
behind the frame. -/
def next_frame (input : Bytes) : Except HerbertError ((String × Option (StoredRecord σ ρ)) × Bytes) :=
  let (contents, rest) := readUntil 10 input
  -- the last byte goes, newline or not
  match fromUtf8 contents.dropLast with
  | none => .error .FromUtf8
  | some topic =>
    match rest with
    | [] => .error (.Io .UnexpectedEof)
    | indicator :: rest =>
      match readLe32 rest with
      | none => .error (.Io .UnexpectedEof)
      | some (size, rest) =>
        match read_record ipc indicator size rest with
        | .error e => .error e
        | .ok (record, rest) => .ok ((topic, record), rest)

theorem read_record_length {indicator : UInt8} {size : Nat} {input rest : Bytes} {r : Option (StoredRecord σ ρ)}
    (h : read_record ipc indicator size input = .ok (r, rest)) : rest.length ≤ input.length := by
  have hexact : ∀ {buf rest'}, readExact size input = some (buf, rest') → rest'.length ≤ input.length := by
    intro buf rest' hb
    rw [(readExact_eq_some hb).1]; simp
  unfold read_record at h
  split at h
  · split at h
    · cases h
    · rename_i hbuf; cases h; exact hexact hbuf
  split at h
  · split at h
    · cases h
    rename_i hbuf
    have := hexact hbuf
    split at h
    · cases h
    · cases h; exact this
    · cases h
    · cases h; exact this
  · cases h

theorem next_frame_shrinks {input rest : Bytes} {e : String × Option (StoredRecord σ ρ)}
    (h : next_frame ipc input = .ok (e, rest)) : rest.length < input.length := by
  have hlen := readUntil_length 10 input
  unfold next_frame at h
  dsimp only at h
  split at h
  · cases h
  split at h
  · cases h
  rename_i hrest
  rw [hrest, List.length_cons] at hlen
  split at h
  · cases h
  rename_i hsize
  have := readLe32_length hsize
  split at h
  · cases h
  · rename_i hrec
    have := read_record_length ipc hrec
    cases h
    omega

/-- The WAL file as a stream of frames. -/
def frames : Reader HerbertError UInt8 (String × Option (StoredRecord σ ρ)) where
  next := next_frame ipc
  shrinks := next_frame_shrinks ipc

end

variable [RecordStorage β σ ρ]

/-- Hands a recovered record to the backend. -/
def store (tm : TopicManager σ ρ β) (topic : String) (record : StoredRecord σ ρ) :
    Except HerbertError Unit × TopicManager σ ρ β :=
  let (result, backend) := RecordStorage.add tm.backend topic record
  (result, { tm with backend })

/-- What `recover` does with a frame. -/
def install (tm : TopicManager σ ρ β) : String × Option (StoredRecord σ ρ) →
    Except HerbertError Unit × TopicManager σ ρ β
  | (topic, some (.Raw buf)) => tm.store topic (.Raw buf)
  | (topic, some (.Batch record_batch)) =>
    -- if the topic does not exist yet, create it with the schema
    if tm.topic_exists topic then tm.store topic (.Batch record_batch)
    else match tm.create topic (some record_batch.schema) with
      | (.error e, tm) => (.error e, tm)
      | (.ok (), tm) => tm.store topic (.Batch record_batch)
  | (_, none) => (.ok (), tm)

/-- The loop of `recover`. -/
def recover_loop (ipc : ArrowIpc σ ρ) (tm : TopicManager σ ρ β) (input : Bytes) :
    Except HerbertError Unit × TopicManager σ ρ β :=
  if input = [] then (.ok (), tm)
  else match h : next_frame ipc input with
    | .error e => (.error e, tm)
    | .ok (e, rest) =>
      have := next_frame_shrinks ipc h
      match tm.install e with
      | (.error e, tm) => (.error e, tm)
      | (.ok (), tm) => recover_loop ipc tm rest
termination_by input.length

def recover (ipc : ArrowIpc σ ρ) (tm : TopicManager σ ρ β) : Except HerbertError Unit × TopicManager σ ρ β :=
  recover_loop ipc tm tm.wal.file.inner

/-! ## On the in-memory log -/

section
variable [DecidableEq σ] {ipc : ArrowIpc σ ρ} {m : HashMap String (TopicMetadata σ)} {t : String} {record : Bytes}
  {r : StoredRecord σ ρ}

/-- The record itself, or the first batch of the stream it is. -/
theorem stored_record_cases (h : stored_record ipc m t record = .ok r) :
    r = .Raw record ∨ ∃ b bs, r = .Batch b ∧ ipc.read record = .ok (.ok b :: bs) ∧
      ∃ name, m.lookup t = some ⟨name, some b.schema⟩ := by
  unfold stored_record at h
  split at h
  · rename_i name schema hm
    split at h
    · rename_i batch hp
      cases h
      refine .inr ⟨batch, ?_⟩
      unfold parse_record_batch_from_bytes at hp
      split at hp
      · cases hp
      split at hp
      · cases hp
      split at hp
      · cases hp
      · cases hp
      · cases hp
      · rename_i b bs hread
        split at hp
        · cases hp
        · rename_i hs
          cases hp
          exact ⟨bs, rfl, hread, name, by rw [hm, not_not.1 hs]⟩
    · cases h
  · cases h; exact .inl rfl
  · cases h; exact .inl rfl

/-- What is stored is as the record and the first batch of a stream are. -/
theorem stored_record_of {P : StoredRecord σ ρ → Prop} (hraw : P (.Raw record))
    (hbatch : ∀ b bs, ipc.read record = .ok (.ok b :: bs) → P (.Batch b))
    (h : stored_record ipc m t record = .ok r) : P r := by
  rcases stored_record_cases h with rfl | ⟨b, bs, rfl, hread, -⟩
  · exact hraw
  · exact hbatch b bs hread

variable (ipc m t record) in
/-- If the record is accepted, what is stored can be logged. -/
def StoresLoggable : Prop := ∀ r, stored_record ipc m t record = .ok r → WriteAheadLog.Loggable ipc t r

theorem storesLoggable_of (hraw : WriteAheadLog.Loggable ipc t (.Raw record))
    (hbatch : ∀ b bs, ipc.read record = .ok (.ok b :: bs) → WriteAheadLog.Loggable ipc t (.Batch b)) :
    StoresLoggable ipc m t record := fun _ hr => stored_record_of hraw hbatch hr

/-- An accepted record is logged, and the buffered records go to the backend
once there are enough of them. -/
theorem add_log (tm : TopicManager σ ρ (InMemoryLog σ ρ)) (hr : stored_record ipc tm.topic_metadatas t record = .ok r)
    (hw : WriteAheadLog.Writable ipc r) :
    tm.add ipc t record = (.ok (),
      if (tm.wal.logged ipc (t, r)).need_to_flush then
        { tm with
          wal := (tm.wal.logged ipc (t, r)).flushed, backend := tm.backend.addAll (tm.wal.buffer ++ [(t, r)]) }
      else { tm with wal := tm.wal.logged ipc (t, r) }) := by
  simp only [add, hr, WriteAheadLog.add_writable ipc hw, WriteAheadLog.flush_log]
  split <;> rfl

/-- With enough records in the buffer, an accepted one is flushed with them. -/
theorem add_full (tm : TopicManager σ ρ (InMemoryLog σ ρ)) (hr : stored_record ipc tm.topic_metadatas t record = .ok r)
    (hw : WriteAheadLog.Writable ipc r) (hfull : tm.wal.config.num_uncommitted_messages ≤ tm.wal.buffer.length + 1) :
    tm.add ipc t record = (.ok (), { tm with
      wal := (tm.wal.logged ipc (t, r)).flushed, backend := tm.backend.addAll (tm.wal.buffer ++ [(t, r)]) }) := by
  have hneed : (tm.wal.logged ipc (t, r)).need_to_flush := by
    simpa [WriteAheadLog.need_to_flush, WriteAheadLog.logged] using hfull
  rw [add_log tm hr hw, if_pos hneed]

theorem queue_add_full (tm : TopicManager σ ρ (InMemoryLog σ ρ))
    (hr : stored_record ipc tm.topic_metadatas t record = .ok r) (hw : WriteAheadLog.Writable ipc r)
    (hfull : tm.wal.config.num_uncommitted_messages ≤ tm.wal.buffer.length + 1) :
    (tm.add ipc t record).2.backend.queue t = tm.backend.queue t ++ History.ofTopic t tm.wal.buffer ++ [r] := by
  rw [add_full tm hr hw hfull]
  simp [InMemoryLog.queue_addAll, History.ofTopic_singleton]

theorem add_unserialized (tm : TopicManager σ ρ β) {e : HerbertError}
    (hr : stored_record ipc tm.topic_metadatas t record = .ok r)
    (hs : WriteAheadLog.serialize ipc t r = .error e) : tm.add ipc t record = (.error e, tm) := by
  simp only [add, hr, WriteAheadLog.add, hs]

/-- A topic with a schema takes batches only. -/
theorem stored_record_raw {w : Bytes} (h : stored_record ipc m t record = .ok (.Raw w)) (name : String) (s : σ) :
    m.lookup t ≠ some ⟨name, some s⟩ := by
  intro hm
  rw [stored_record, hm] at h
  dsimp only at h
  split at h <;> cases h

/-- A topic with a schema takes the stream of a batch of it. -/
theorem stored_record_stream (hipc : ipc.Framed) {b : RecordBatch σ ρ} (hw : ipc.write b.schema [b] = .ok record)
    {name : String} (hm : m.lookup t = some ⟨name, some b.schema⟩) : stored_record ipc m t record = .ok (.Batch b) := by
  obtain ⟨hmark, hlen⟩ := hipc.marked _ _ _ hw
  have hread : ipc.read record = .ok [.ok b] := by
    obtain ⟨w, hw', hread⟩ := hipc.read_write b.schema [b] (by simp)
    rw [hw] at hw'
    cases hw'
    exact hread
  have hmagic : record.take 4 = continuation := (List.prefix_iff_eq_take.1 hmark).symm
  have hparse : parse_record_batch_from_bytes ipc record b.schema = .ok b := by
    rw [parse_record_batch_from_bytes, if_neg (by omega), if_neg (fun h => h.2 hmagic), hread]
    simp
  rw [stored_record, hm]
  simp only [hparse]

/-- A topic without a schema takes any bytes. -/
theorem stored_record_no_schema (h : ∀ name s, m.lookup t ≠ some ⟨name, some s⟩) :
    stored_record ipc m t record = .ok (.Raw record) := by
  unfold stored_record
  split
  · rename_i name s hm; exact absurd hm (h name s)
  · rfl
  · rfl

/-- `add` rejects the bytes and changes nothing, or they are a record that can be
logged. -/
theorem add_cases (ipc : ArrowIpc σ ρ) (tm : TopicManager σ ρ (InMemoryLog σ ρ)) (t : String) (record : Bytes) :
    (∃ e, tm.add ipc t record = (.error e, tm)) ∨
      ∃ r, stored_record ipc tm.topic_metadatas t record = .ok r ∧ WriteAheadLog.Writable ipc r := by
  cases hr : stored_record ipc tm.topic_metadatas t record with
  | error e => exact .inl ⟨e, by rw [add, hr]⟩
  | ok r =>
    cases r with
    | Raw bytes => exact .inr ⟨_, rfl, trivial⟩
    | Batch batch =>
      cases hw : ipc.write batch.schema [batch] with
      | ok w => exact .inr ⟨_, rfl, w, hw⟩
      | error e => exact .inl ⟨.ArrowError e, by simp [add, hr, WriteAheadLog.add, WriteAheadLog.serialize, hw]⟩

theorem topic_metadatas_add (ipc : ArrowIpc σ ρ) (tm : TopicManager σ ρ (InMemoryLog σ ρ)) (t : String)
    (record : Bytes) : (tm.add ipc t record).2.topic_metadatas = tm.topic_metadatas := by
  rcases add_cases ipc tm t record with ⟨e, he⟩ | ⟨r, hr, hw⟩
  · rw [he]
  · rw [add_log tm hr hw]
    dsimp only
    split <;> rfl

theorem config_add (ipc : ArrowIpc σ ρ) (tm : TopicManager σ ρ (InMemoryLog σ ρ)) (t : String) (record : Bytes) :
    (tm.add ipc t record).2.wal.config = tm.wal.config := by
  rcases add_cases ipc tm t record with ⟨e, he⟩ | ⟨r, hr, hw⟩
  · rw [he]
  · rw [add_log tm hr hw]
    dsimp only
    split <;> rfl

/-- The log gets the records that are flushed, if any. -/
theorem backend_add (ipc : ArrowIpc σ ρ) (tm : TopicManager σ ρ (InMemoryLog σ ρ)) (t : String) (record : Bytes) :
    ∃ h, (tm.add ipc t record).2.backend = tm.backend.addAll h := by
  rcases add_cases ipc tm t record with ⟨e, he⟩ | ⟨r, hr, hw⟩
  · exact ⟨[], by rw [he]; rfl⟩
  · rw [add_log tm hr hw]
    dsimp only
    split
    · exact ⟨_, rfl⟩
    · exact ⟨[], rfl⟩

/-- A rejected record changes nothing. -/
theorem add_error (tm : TopicManager σ ρ β) {e : HerbertError}
    (hr : stored_record ipc tm.topic_metadatas t record = .error e) : tm.add ipc t record = (.error e, tm) := by
  rw [add, hr]

/-! ## The records of a topic -/

/-- Those fetch sees, then those in the WAL buffer. -/
def log_of (tm : TopicManager σ ρ (InMemoryLog σ ρ)) (t : String) : List (StoredRecord σ ρ) :=
  tm.backend.queue t ++ History.ofTopic t tm.wal.buffer

/-- An accepted record goes behind those of its topic. -/
theorem log_of_add_ok (tm : TopicManager σ ρ (InMemoryLog σ ρ))
    (hr : stored_record ipc tm.topic_metadatas t record = .ok r) (hw : WriteAheadLog.Writable ipc r) :
    (tm.add ipc t record).1 = .ok () ∧
      ∀ t', log_of (tm.add ipc t record).2 t' = log_of tm t' ++ if t = t' then [r] else [] := by
  rw [add_log tm hr hw]
  refine ⟨rfl, fun t' => ?_⟩
  dsimp only
  split
  · simp [log_of, WriteAheadLog.flushed, InMemoryLog.queue_addAll, History.ofTopic_singleton]
  · simp [log_of, WriteAheadLog.logged, History.ofTopic_singleton]

/-- `add` changes nothing, or accepts a record. -/
theorem log_of_add (ipc : ArrowIpc σ ρ) (tm : TopicManager σ ρ (InMemoryLog σ ρ)) (t : String) (record : Bytes) :
    (∃ e, tm.add ipc t record = (.error e, tm)) ∨
      ∃ r, stored_record ipc tm.topic_metadatas t record = .ok r ∧ (tm.add ipc t record).1 = .ok () ∧
        ∀ t', log_of (tm.add ipc t record).2 t' = log_of tm t' ++ if t = t' then [r] else [] := by
  rcases add_cases ipc tm t record with h | ⟨r, hr, hw⟩
  · exact .inl h
  · exact .inr ⟨r, hr, log_of_add_ok tm hr hw⟩

end

/-! ## Accepted records -/

/-- The records of `h` are in the backend, and behind them in the WAL buffer. -/
def Tracks (tm : TopicManager σ ρ (InMemoryLog σ ρ)) (h : History σ ρ) : Prop :=
  ∃ visible, h = visible ++ tm.wal.buffer ∧ Holds tm.backend visible

theorem tracks_new (config : Config) (file : Bytes) :
    Tracks (new .new config file : TopicManager σ ρ (InMemoryLog σ ρ)) [] := ⟨[], rfl, holds_new⟩

/-- What fetch sees of a topic comes first. -/
theorem Tracks.queue_isPrefix {tm : TopicManager σ ρ (InMemoryLog σ ρ)} {h : History σ ρ} (ht : Tracks tm h)
    (t : String) : tm.backend.queue t <+: h.ofTopic t := by
  obtain ⟨visible, rfl, hvis⟩ := ht
  rw [hvis.queue]
  exact History.ofTopic_isPrefix t (List.prefix_append _ _)

theorem Tracks.create {tm : TopicManager σ ρ (InMemoryLog σ ρ)} {h : History σ ρ} (ht : Tracks tm h) (t : String)
    (schema : Option σ) : Tracks (tm.create t schema).2 h := by
  obtain ⟨visible, heq, hvis⟩ := ht
  exact ⟨visible, by rw [wal_create]; exact heq, by rw [backend_create]; exact hvis⟩

theorem queue_fetch (ipc : ArrowIpc σ ρ) (tm : TopicManager σ ρ (InMemoryLog σ ρ)) (t t' : String) (o : Int) :
    (tm.fetch ipc t o).2.backend.queue t' = tm.backend.queue t' :=
  InMemoryLog.queue_fetch ipc tm.backend t t' o

theorem log_of_create (tm : TopicManager σ ρ (InMemoryLog σ ρ)) (t : String) (schema : Option σ) (t' : String) :
    log_of (tm.create t schema).2 t' = log_of tm t' := by
  rw [log_of, log_of, wal_create, backend_create]

theorem log_of_fetch (ipc : ArrowIpc σ ρ) (tm : TopicManager σ ρ (InMemoryLog σ ρ)) (t : String) (o : Int)
    (t' : String) : log_of (tm.fetch ipc t o).2 t' = log_of tm t' :=
  congrArg (· ++ _) (queue_fetch ipc tm t t' o)

theorem Tracks.fetch (ipc : ArrowIpc σ ρ) {tm : TopicManager σ ρ (InMemoryLog σ ρ)} {h : History σ ρ}
    (ht : Tracks tm h) (t : String) (o : Int) : Tracks (tm.fetch ipc t o).2 h := by
  obtain ⟨visible, heq, hvis⟩ := ht
  exact ⟨visible, heq, hvis.fetch ipc t o⟩

/-- `add` accepts one record more, buffered or flushed. -/
theorem Tracks.add [DecidableEq σ] {ipc : ArrowIpc σ ρ} {tm : TopicManager σ ρ (InMemoryLog σ ρ)} {h : History σ ρ}
    (ht : Tracks tm h) {t : String} {record : Bytes} {r : StoredRecord σ ρ}
    (hr : stored_record ipc tm.topic_metadatas t record = .ok r) (hw : WriteAheadLog.Writable ipc r) :
    Tracks (tm.add ipc t record).2 (h ++ [(t, r)]) ∧
      (∀ t', tm.backend.queue t' <+: (tm.add ipc t record).2.backend.queue t') ∧
      (tm.add ipc t record).2.topic_metadatas = tm.topic_metadatas := by
  obtain ⟨visible, rfl, hvis⟩ := ht
  rw [add_log tm hr hw]
  dsimp only
  split
  · have hvis' := hvis.addAll (tm.wal.buffer ++ [(t, r)])
    refine ⟨⟨visible ++ (tm.wal.buffer ++ [(t, r)]), ?_, hvis'⟩, ?_, rfl⟩
    · simp [WriteAheadLog.flushed]
    · intro t'
      dsimp only
      rw [hvis.queue, hvis'.queue]
      exact History.ofTopic_isPrefix t' (List.prefix_append _ _)
  · exact ⟨⟨visible, by simp [WriteAheadLog.logged], hvis⟩, fun _ => List.prefix_rfl, rfl⟩

end TopicManager
end herbert
