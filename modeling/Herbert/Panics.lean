import Herbert.Connection
import Herbert.Recovery
import Herbert.Lib.Runs
/-!
# Panics

The ranges that handling a message takes, of the message, of the record in it and
of a batch of the log: `peek_bytes`, slicing and `RecordBatch::slice` panic if one
is out of bounds. The handlers check the record before they slice it, and an
offset of the index is inside its batch, so only the two peeks can fail. They are
made before anything is checked, and fail exactly for a message shorter than four
bytes.

The other way to panic is Arrow's: a record for a topic with a schema is handed to
the `StreamReader`, on bytes of which `panics` says whether it survives them. A
connection panics exactly if a message reaches one of the two (`safe_iff`).
-/
open Lib Lib.Bytes Lib.Runs Lib.FlatIndex herbert.InMemoryLog herbert.TopicManager herbert.Recovery herbert.Connection

namespace herbert.Panics

variable {σ ρ : Type}

/-! ## Ranges -/

/-- The end of a range, and the length of what it is taken of. -/
structure Access where
  stop : Nat
  length : Nat

def Access.InRange (a : Access) : Prop := a.stop ≤ a.length

/-- `record[..6.min(record.len())]`, and `record[..4]` if this is not the magic. -/
def parse_accesses (record : Bytes) : List Access :=
  if record.length < 8 then []
  else ⟨min 6 record.length, record.length⟩ :: if record.take 6 = arrow1 then [] else [⟨4, record.length⟩]

def batch? : StoredRecord σ ρ → Option (RecordBatch σ ρ)
  | .Raw _ => none
  | .Batch batch => some batch

/-- The first batch of the loop in `fetch` is sliced: `batch.num_rows() - row_offset`
rows from `row_offset` on. -/
def fetch_accesses (log : InMemoryLog σ ρ) (topic : String) (fetch_offset : Int) : List Access :=
  match getOffset (log.offset_queue topic) (asUsize fetch_offset) with
  | none => []
  | some ⟨batch_index, row_offset⟩ =>
    match ((log.queue topic).drop batch_index).findSome? batch? with
    | none => []
    | some batch =>
      -- the subtraction must not go below zero either
      [⟨row_offset, batch.num_rows⟩, ⟨row_offset + (batch.num_rows - row_offset), batch.num_rows⟩]

def handler_accesses (server : Server σ ρ) : KafkaRequest → List Access
  | .Produce (some ⟨⟨topic, ⟨some records⟩ :: _⟩ :: _⟩) =>
    match server.topic_manager.topic_metadatas.lookup topic with
    | some ⟨_, some _⟩ => parse_accesses records
    | _ => []
  | .Fetch (some ⟨_, ⟨topic, ⟨fetch_offset⟩ :: _⟩ :: _⟩) =>
    fetch_accesses server.topic_manager.backend topic fetch_offset
  | _ => []

/-- The ranges that handling the message takes, in order. -/
def accesses (kafka : KafkaCodec) (server : Server σ ρ) (message : Bytes) : List Access :=
  ⟨2, message.length⟩ :: ⟨4, message.length⟩ ::
    match read_header kafka message with
    | .error _ => []
    | .ok (_, _, header, buffer) => handler_accesses server (read_request kafka header buffer)

/-- The record that is handed to `StreamReader`, if it comes to that. -/
def parsed (server : Server σ ρ) : KafkaRequest → Option Bytes
  | .Produce (some ⟨⟨topic, ⟨some records⟩ :: _⟩ :: _⟩) =>
    match server.topic_manager.topic_metadatas.lookup topic with
    | some ⟨_, some _⟩ =>
      if records.length < 8 ∨ (records.take 6 ≠ arrow1 ∧ records.take 4 ≠ continuation) then none else some records
    | _ => none
  | _ => none

/-- The same of a message. The response header is counted before the request is
handled. -/
def stream_of (kafka : KafkaCodec) (server : Server σ ρ) (message : Bytes) : Option Bytes :=
  match read_header kafka message with
  | .error _ => none
  | .ok (_, header_version, header, buffer) =>
    match kafka.response_header.compute_size header_version ⟨header.correlation_id⟩ with
    | none => none
    | some _ => parsed server (read_request kafka header buffer)

/-! ## The handlers -/

theorem parse_in_range (record : Bytes) : ∀ a ∈ parse_accesses record, a.InRange := by
  unfold parse_accesses
  split
  · simp
  · intro a ha
    simp only [List.mem_cons] at ha
    rcases ha with rfl | ha
    · exact Nat.min_le_right _ _
    · split at ha
      · cases ha
      · rw [List.mem_singleton] at ha
        subst ha
        simp only [Access.InRange]
        omega

/-- An entry of the index is inside its record. -/
theorem offsetIndex_inside {rs : List (StoredRecord σ ρ)} {i : Nat} {ro : RecordOffset}
    (h : getOffset (offsetIndex rs) i = some ro) : ∃ r, rs[ro.batch_index]? = some r ∧ ro.row_offset < r.entries := by
  unfold getOffset at h
  split at h
  · have hlt : i < total StoredRecord.entries rs := by
      have := (List.getElem?_eq_some_iff.1 h).1
      rwa [length_offsetIndex] at this
    obtain ⟨j, r, k, hj, hk, -, hget⟩ := flat_getElem? RecordOffset.mk 0 rs hlt
    rw [offsetIndex, hget] at h
    cases h
    exact ⟨r, by rwa [Nat.zero_add], hk⟩
  · cases h

/-- The row offset is in the first batch that is fetched: an entry of a batch is
inside this batch, and an entry of a raw record is 0. -/
theorem row_offset_le {rs : List (StoredRecord σ ρ)} {i batch_index row_offset : Nat} {batch : RecordBatch σ ρ}
    (h : getOffset (offsetIndex rs) i = some ⟨batch_index, row_offset⟩)
    (hb : (rs.drop batch_index).findSome? batch? = some batch) : row_offset ≤ batch.num_rows := by
  obtain ⟨r, hr, hlt⟩ := offsetIndex_inside h
  obtain ⟨hlen, rfl⟩ := List.getElem?_eq_some_iff.1 hr
  rw [List.drop_eq_getElem_cons hlen, List.findSome?_cons] at hb
  dsimp only at hlt hb
  cases hrec : rs[batch_index] with
  | Raw bytes =>
    rw [hrec] at hlt
    simp only [StoredRecord.entries] at hlt
    omega
  | Batch b =>
    rw [hrec] at hlt hb
    cases hb
    exact hlt.le

theorem fetch_in_range {log : InMemoryLog σ ρ} {h : History σ ρ} (hl : Holds log h) (t : String) (o : Int) :
    ∀ a ∈ fetch_accesses log t o, a.InRange := by
  unfold fetch_accesses
  rw [hl.index, hl.queue]
  split
  · simp
  rename_i batch_index row_offset hget
  split
  · simp
  rename_i batch hbatch
  have hle := row_offset_le hget hbatch
  intro a ha
  simp only [List.mem_cons, List.not_mem_nil, or_false] at ha
  rcases ha with rfl | rfl
  · exact hle
  · simp only [Access.InRange]
    omega

/-- The log of the server holds some history. -/
def Sound (server : Server σ ρ) : Prop := ∃ h, Holds server.topic_manager.backend h

theorem handler_in_range {server : Server σ ρ} (hs : Sound server) (request : KafkaRequest) :
    ∀ a ∈ handler_accesses server request, a.InRange := by
  obtain ⟨h, hl⟩ := hs
  unfold handler_accesses
  split
  · split
    · exact parse_in_range _
    · simp
  · exact fetch_in_range hl _ _
  · simp

/-- A message of four bytes is safe. -/
theorem in_range_iff (kafka : KafkaCodec) {server : Server σ ρ} (hs : Sound server) (message : Bytes) :
    (∀ a ∈ accesses kafka server message, a.InRange) ↔ 4 ≤ message.length := by
  simp only [accesses, List.forall_mem_cons, Access.InRange]
  constructor
  · exact fun h => h.2.1
  · intro h
    refine ⟨by omega, h, ?_⟩
    split
    · simp
    · exact handler_in_range hs _

/-! ## One message -/

theorem peek_i16_eq_none {buffer : Bytes} {start : Nat} : peek_i16 buffer start = none ↔ buffer.length < start + 2 := by
  simp [peek_i16, Codec.int, Codec.via, Codec.word, readExact]
  omega

/-- Decoding does not panic. -/
theorem read_header_panic (kafka : KafkaCodec) (message : Bytes) :
    read_header kafka message = .error .Panic ↔ message.length < 4 := by
  unfold read_header
  split
  · rename_i h
    have := peek_i16_eq_none.1 h
    simp only [true_iff]; omega
  split
  · rename_i h
    have := peek_i16_eq_none.1 h
    simp only [true_iff]; omega
  rename_i hversion
  have hlen : ¬message.length < 4 := fun h => by
    rw [peek_i16_eq_none.2 h] at hversion
    cases hversion
  refine iff_of_false ?_ hlen
  split
  · simp
  · dsimp only
    split <;> simp

section
variable (kafka : KafkaCodec) [DecidableEq σ] (ipc : ArrowIpc σ ρ) (json : OffsetJson) (panics : Bytes → Bool)

/-- One pass of the loop, with a reader that panics on some bytes. -/
def handle_message_or_panic (server : Server σ ρ) (message : Bytes) : Except Fault Bytes × Server σ ρ :=
  if (stream_of kafka server message).any panics then (.error .Panic, server)
  else handle_message kafka ipc json server message

/-- The message is too short for the peeks, or the reader panics on its record. -/
def Fatal (server : Server σ ρ) (message : Bytes) : Prop :=
  message.length < 4 ∨ ∃ stream, stream_of kafka server message = some stream ∧ panics stream

theorem handle_message_panic (server : Server σ ρ) (message : Bytes) :
    (handle_message kafka ipc json server message).1 = .error .Panic ↔ message.length < 4 := by
  rw [← read_header_panic kafka]
  unfold handle_message
  split
  · rename_i e h
    rw [h]
    simp
  rename_i h
  refine iff_of_false ?_ (by rw [h]; simp)
  split
  · simp
  split
  · simp
  · simp
  · dsimp only [respond]
    split
    · simp
    · split <;> simp

theorem handle_message_or_panic_panic (server : Server σ ρ) (message : Bytes) :
    (handle_message_or_panic kafka ipc json panics server message).1 = .error .Panic ↔
      Fatal kafka panics server message := by
  rw [handle_message_or_panic, Fatal, ← Option.any_eq_true]
  split
  · rename_i h
    simp [h]
  · rename_i h
    simp [h, handle_message_panic]

def handle_kafka_connection_or_panic (server : Server σ ρ) (input : Bytes) : Except Fault Unit × Bytes × Server σ ρ :=
  connection_loop (handle_message_or_panic kafka ipc json panics) server input

/-- With a reader that never panics this is the server's connection. -/
theorem connection_never_panics (hnever : ∀ w, panics w = false) (server : Server σ ρ) (input : Bytes) :
    handle_kafka_connection_or_panic kafka ipc json panics server input =
      handle_kafka_connection kafka ipc json server input := by
  have hsame : handle_message_or_panic kafka ipc json panics = handle_message kafka ipc json := by
    funext server message
    rw [handle_message_or_panic, if_neg (by simp [Option.any_eq_true, hnever])]
  rw [handle_kafka_connection_or_panic, hsame, handle_kafka_connection]

/-! ## The server -/

/-- What other connections do. -/
inductive Call (σ : Type) where
  | Kafka (request : KafkaRequest)
  | Herbert (request : HerbertRequest σ)

def step (server : Server σ ρ) : Call σ → Option (Server σ ρ)
  | .Kafka request => some (server.handle_kafka_request ipc json request).2
  | .Herbert request => some (server.handle_herbert_connection request)

/-- A server that has recovered. -/
def start (config : Config) (file : Bytes) (offset_manager : OffsetManager) : Server σ ρ :=
  ⟨(restart ipc config file).2, offset_manager⟩

theorem sound_kafka {server : Server σ ρ} (hs : Sound server) (request : KafkaRequest) :
    Sound (server.handle_kafka_request ipc json request).2 := by
  refine Server.keeps_topic_manager ipc json (fun tm => ∃ h, Holds tm.backend h) ?_ ?_ hs request
  · rintro tm t o ⟨h, hl⟩
    exact ⟨h, hl.fetch ipc t o⟩
  · rintro tm t record ⟨h, hl⟩
    obtain ⟨h', heq⟩ := backend_add ipc tm t record
    exact ⟨h ++ h', heq ▸ hl.addAll h'⟩

theorem sound_step {server server' : Server σ ρ} {call : Call σ} (hs : Sound server)
    (h : step ipc json server call = some server') : Sound server' := by
  cases call with
  | Kafka request =>
    cases h
    exact sound_kafka ipc json hs request
  | Herbert request =>
    cases h
    obtain ⟨h, hl⟩ := hs
    cases request with
    | CreateTopic topic schema => exact ⟨h, by rw [Server.handle_herbert_connection, backend_create]; exact hl⟩

theorem sound_reachable {config : Config} {file : Bytes} {offset_manager : OffsetManager} {server : Server σ ρ}
    (h : Reachable (step ipc json) (start ipc config file offset_manager) server) : Sound server := by
  obtain ⟨tr, hr⟩ := h
  exact hr.inv Sound ⟨_, holds_restart ipc config file⟩ fun s l s' hs => sound_step ipc json hs

/-! ## A connection -/

/-- The connection gets to handle the message on this server: every message before
it is handled without an error. -/
inductive Handles : Server σ ρ → Bytes → Server σ ρ → Bytes → Prop
  | first {server input msg_len input' message rest} : read_message_len input = .ok (msg_len, input') →
    readExact msg_len input' = some (message, rest) → Handles server input server message
  | later {server input msg_len input' message rest response server' server'' message'} :
    read_message_len input = .ok (msg_len, input') → readExact msg_len input' = some (message, rest) →
    handle_message_or_panic kafka ipc json panics server message = (.ok response, server') →
    Handles server' rest server'' message' → Handles server input server'' message'

variable {kafka ipc json panics} {server server' : Server σ ρ} {input message : Bytes}

theorem Handles.sound (h : Handles kafka ipc json panics server input server' message) (hs : Sound server) :
    Sound server' := by
  induction h with
  | first => exact hs
  | @later server _ _ _ message _ _ _ _ _ _ _ hok _ ih =>
    apply ih
    rw [handle_message_or_panic] at hok
    split at hok
    · cases hok
    have hsnd := handle_message_snd kafka ipc json server message
    rw [hok] at hsnd
    rcases hsnd with rfl | ⟨request, rfl⟩
    · exact hs
    · exact sound_kafka ipc json hs request

/-- A fatal message is not survived. -/
theorem Handles.panic (h : Handles kafka ipc json panics server input server' message)
    (hfatal : Fatal kafka panics server' message) :
    (handle_kafka_connection_or_panic kafka ipc json panics server input).1 = .error .Panic := by
  rw [handle_kafka_connection_or_panic]
  induction h with
  | @first server _ _ _ message _ hread hexact =>
    rw [connection_loop_read _ server hread hexact]
    have hpanic := (handle_message_or_panic_panic kafka ipc json panics server message).2 hfatal
    split <;> rename_i heq <;> rw [heq] at hpanic <;> cases hpanic
    rfl
  | @later server _ _ _ _ _ _ _ _ _ hread hexact hok _ ih =>
    rw [connection_loop_read _ server hread hexact, hok]
    exact ih hfatal

theorem panic_handles (h : (handle_kafka_connection_or_panic kafka ipc json panics server input).1 = .error .Panic) :
    ∃ server' message, Handles kafka ipc json panics server input server' message ∧
      Fatal kafka panics server' message := by
  induction hn : input.length using Nat.strongRecOn generalizing server input with
  | _ n ih =>
    rw [handle_kafka_connection_or_panic, connection_loop] at h
    split at h
    · rename_i e hread
      unfold read_message_len at hread
      split at hread <;> cases hread
      cases h
    rename_i msg_len input' hread
    split at h
    · cases h
    rename_i message rest hexact
    split at h
    · rename_i e server' heq
      cases h
      have hpanic : (handle_message_or_panic kafka ipc json panics server message).1 = .error .Panic := by rw [heq]
      exact ⟨server, message, .first hread hexact,
        (handle_message_or_panic_panic kafka ipc json panics server message).1 hpanic⟩
    · rename_i response server' heq
      have hshrinks : rest.length < n := hn ▸ read_message_shrinks hread hexact
      obtain ⟨server'', message', hlater, hlen⟩ := @ih rest.length hshrinks server' rest h rfl
      exact ⟨server'', message', .later hread hexact heq hlater, hlen⟩

variable (kafka ipc json panics) in
/-- The connection does not panic, and every range it takes is in bounds. -/
structure Safe (server : Server σ ρ) (input : Bytes) : Prop where
  no_panic : (handle_kafka_connection_or_panic kafka ipc json panics server input).1 ≠ .error .Panic
  in_range : ∀ server' message, Handles kafka ipc json panics server input server' message →
    ∀ a ∈ accesses kafka server' message, a.InRange

/-- A connection does not panic exactly if no message it gets to is shorter than
four bytes, or holds a record that the reader panics on. -/
theorem safe_iff (kafka : KafkaCodec) (ipc : ArrowIpc σ ρ) (json : OffsetJson) (panics : Bytes → Bool) (config : Config)
    (file : Bytes) (offset_manager : OffsetManager) (server : Server σ ρ)
    (hs : Reachable (step ipc json) (start ipc config file offset_manager) server) (input : Bytes) :
    Safe kafka ipc json panics server input ↔
      ∀ server' message, Handles kafka ipc json panics server input server' message →
        4 ≤ message.length ∧ ∀ stream, stream_of kafka server' message = some stream → panics stream = false := by
  have hsound := sound_reachable ipc json hs
  constructor
  · intro h server' message hh
    refine ⟨(in_range_iff kafka (hh.sound hsound) message).1 (h.in_range server' message hh), fun stream hstream => ?_⟩
    by_contra hpanics
    exact h.no_panic (hh.panic (.inr ⟨stream, hstream, by simpa using hpanics⟩))
  · intro h
    refine ⟨fun hpanic => ?_, fun server' message hh => (in_range_iff kafka (hh.sound hsound) message).2 (h _ _ hh).1⟩
    obtain ⟨server', message, hh, hlen | ⟨stream, hstream, hpanics⟩⟩ := panic_handles hpanic
    · exact absurd (h server' message hh).1 (Nat.not_le.2 hlen)
    · rw [(h server' message hh).2 stream hstream] at hpanics
      cases hpanics

end

def fresh : Server UInt8 UInt8 := start pocketIpc ⟨1⟩ [] .new

theorem not_handles_nil {server server' : Server UInt8 UInt8} {panics : Bytes → Bool} {message : Bytes} :
    ¬ Handles pocketKafka pocketIpc plainJson panics server [] server' message := by
  intro h
  cases h with
  | first hread => cases hread
  | later hread => cases hread

/-- A reader that panics on one stream. -/
def panics_on_nine : Bytes → Bool := (· == [255, 255, 255, 255, 9, 0, 0, 0])

/-- A request to produce that stream to `"t"`. -/
def produce_nine : Bytes := [0, 0, 0, 9, 0, 0, 0, 0, 0, 0, 0] ++
  (pocketKafka.produce_request.encode 9 (create_produce_request "t" [255, 255, 255, 255, 9, 0, 0, 0])).1

/-- A topic without a schema takes it for raw bytes, and one with a schema hands it
to the reader. -/
theorem safe_iff_schema :
    Safe pocketKafka pocketIpc plainJson panics_on_nine fresh (framed produce_nine) ∧
      ¬ Safe pocketKafka pocketIpc plainJson panics_on_nine
        (fresh.handle_herbert_connection (.CreateTopic "t" (some 7))) (framed produce_nine) := by
  have hlen : read_message_len (framed produce_nine) = .ok (produce_nine.length, produce_nine) := by decide +kernel
  have hread : readExact produce_nine.length produce_nine = some (produce_nine, []) := by decide +kernel
  constructor
  · refine (safe_iff pocketKafka pocketIpc plainJson panics_on_nine ⟨1⟩ [] .new fresh ⟨[], .nil⟩ _).2 ?_
    intro server' message hh
    cases hh with
    | first hlen' hread' =>
      cases hlen.symm.trans hlen'
      cases hread.symm.trans hread'
      have hnone : stream_of pocketKafka fresh produce_nine = none := by decide +kernel
      exact ⟨by decide +kernel, by simp [hnone]⟩
    | later hlen' hread' _ hlater =>
      cases hlen.symm.trans hlen'
      cases hread.symm.trans hread'
      exact absurd hlater not_handles_nil
  · intro hsafe
    let call : Call UInt8 := .Herbert (.CreateTopic "t" (some 7))
    have hreach : Reachable (step pocketIpc plainJson) fresh
        (fresh.handle_herbert_connection (.CreateTopic "t" (some 7))) := ⟨[(fresh, call)], Run.nil.snoc rfl⟩
    have hstream : stream_of pocketKafka (fresh.handle_herbert_connection (.CreateTopic "t" (some 7))) produce_nine =
        some [255, 255, 255, 255, 9, 0, 0, 0] := by decide +kernel
    have hsurvives := ((safe_iff pocketKafka pocketIpc plainJson panics_on_nine ⟨1⟩ [] .new _ hreach _).1 hsafe _ _
      (.first hlen hread)).2 _ hstream
    exact absurd hsurvives (by decide)

/-- The four bytes of a length are enough to make the server panic. -/
theorem peek_out_of_range :
    (handle_kafka_connection pocketKafka pocketIpc plainJson fresh [0, 0, 0, 0]).1 = .error .Panic ∧
    ¬ Safe pocketKafka pocketIpc plainJson (fun _ => false) fresh [0, 0, 0, 0] := by
  have hread : read_message_len [0, 0, 0, 0] = .ok (0, []) := by decide
  have hexact : readExact 0 ([] : Bytes) = some ([], []) := rfl
  have hpanic : (handle_kafka_connection_or_panic pocketKafka pocketIpc plainJson (fun _ => false) fresh [0, 0, 0, 0]).1 =
      .error .Panic :=
    Handles.panic (.first hread hexact) (.inl (by decide))
  refine ⟨?_, fun h => h.no_panic hpanic⟩
  rwa [connection_never_panics _ _ _ _ fun _ => rfl] at hpanic

end herbert.Panics
