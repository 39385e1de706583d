import Herbert.Server
/-!
# The client

The requests the client's functions send, and what they do with a response.
Responses arrive whole; a request whose handler fails is answered by closing the
connection.
-/
open Lib.Bytes

namespace herbert.Client

variable {σ ρ : Type}

/-! ## Requests -/

def produce (topic message : String) : KafkaRequest :=
  .Produce (some (create_produce_request topic (utf8 message)))

/-- The batch is sent as a stream of its own. -/
def produce_record_batch (ipc : ArrowIpc σ ρ) (topic : String) (record_batch : RecordBatch σ ρ) :
    Except HerbertError KafkaRequest :=
  match ipc.write record_batch.schema [record_batch] with
  | .error e => .error (.ArrowError e)
  | .ok buffer => .ok (.Produce (some (create_produce_request topic buffer)))

def create_topic (topic : String) (schema : Option σ) : HerbertRequest σ := .CreateTopic topic schema

/-! ## Responses -/

/-- The offset in the response to an OffsetFetch. -/
def get_offset (offset_fetch_response : OffsetFetchResponse) : Except HerbertError Int :=
  match offset_fetch_response.topics[0]? with
  | none => .error .NoTopicData
  | some topic =>
    match topic.partitions[0]? with
    | none => .error .NoPartitionData
    | some partition_data => .ok partition_data.committed_offset

/-- The records in the response to a Fetch. When the connection is closed instead,
there is no length to read, and the records are empty. -/
def get_records (answer : Option FetchResponse) : Except HerbertError Bytes :=
  match answer with
  | none => .ok []
  | some fetch_response =>
    match fetch_response.responses[0]? with
    | none => .error .NoTopicData
    | some response =>
      match response.partitions[0]? with
      | none => .error .NoPartitionData
      | some partition_data =>
        match partition_data.records with
        | none => .error .NoRecordData
        | some records => .ok records

/-- `records.split(|b| *b == 0)` -/
def split (records : Bytes) : List Bytes := records.splitOn 0

/-- What `consume` returns for the records, and the offset it commits. -/
def consume (initial_offset : Int) (records : Bytes) : List Bytes × Option Int :=
  if records.isEmpty then ([], none)
  else
    let parts := split records
    (parts, some (initial_offset + parts.length))

/-- `batch_result?` of every item of the reader. -/
def read_batches : List (Except ArrowError (RecordBatch σ ρ)) → Except HerbertError (List (RecordBatch σ ρ))
  | [] => .ok []
  | .error e :: _ => .error (.ArrowError e)
  | .ok batch :: items =>
    match read_batches items with
    | .ok batches => .ok (batch :: batches)
    | .error e => .error e

/-- What `consume_record_batches` returns for the records, and the offset it
commits. -/
def consume_record_batches (ipc : ArrowIpc σ ρ) (initial_offset : Int) (records : Bytes) :
    Except HerbertError (List (RecordBatch σ ρ) × Option Int) :=
  if records.isEmpty then .ok ([], none)
  else
    match ipc.read records with
    | .error e => .error (.ArrowError e)
    | .ok items =>
      match read_batches items with
      | .error e => .error e
      | .ok batches => .ok (batches, some (initial_offset + (batches.map (·.num_rows)).sum))

/-- Every part is printed as a string. -/
def count_parts (offset : Int) (records : Bytes) : Except HerbertError (Option Int) :=
  let parts := split records
  if parts.all fun part => (fromUtf8 part).isSome then .ok (some (offset + parts.length)) else .error .FromUtf8

/-- The test for an Arrow stream, on at least eight bytes. -/
def has_magic (records : Bytes) : Bool := records.take 6 = arrow1 ∨ records.take 4 = continuation

/-- One pass of the loop in `consume_continuos`: the offset it commits, `none` if
there are no records and it waits. -/
def consume_continuos (ipc : ArrowIpc σ ρ) (offset : Int) (records : Bytes) : Except HerbertError (Option Int) :=
  if records.isEmpty then .ok none
  else if records.length < 8 then count_parts offset records
  else if has_magic records then
    match ipc.read records with
    | .error e => .error (.ArrowError e)
    | .ok items =>
      match read_batches items with
      | .error e => .error e
      | .ok batches => .ok (some (offset + (batches.map (·.num_rows)).sum))
  else count_parts offset records

/-! ## Splitting -/

/-- Splitting undoes joining: there are as many parts as records, and they are
the records. -/
theorem split_join {ms : List Bytes} (hz : ∀ m ∈ ms, 0 ∉ m) (hne : ms ≠ []) : split ([0].intercalate ms) = ms :=
  List.splitOn_intercalate 0 hz hne

/-- Every zero byte makes one part more. -/
theorem length_split_join {ms : List Bytes} (hne : ms ≠ []) :
    (split ([0].intercalate ms)).length = ms.length + (ms.map (·.count 0)).sum := by
  rw [split, length_splitOn, count_join 0 hne]

/-- `consume` returns the joined records and commits the offset behind them, or
finds nothing to read. -/
theorem consume_join {ms : List Bytes} (hz : ∀ m ∈ ms, 0 ∉ m) (o : Int) :
    (ms ≠ [] ∧ consume o ([0].intercalate ms) = (ms, some (o + ms.length))) ∨
      consume o ([0].intercalate ms) = ([], none) := by
  unfold consume
  split
  · exact .inr rfl
  · rename_i hne
    have hms : ms ≠ [] := by
      rintro rfl
      exact hne rfl
    left
    refine ⟨hms, ?_⟩
    simp only [split_join hz hms]

theorem read_batches_ok (bs : List (RecordBatch σ ρ)) : read_batches (bs.map .ok) = .ok bs := by
  induction bs with
  | nil => rfl
  | cons b bs ih => simp [read_batches, ih]

/-- Parts that are text leave no room for `0xFF`. -/
theorem count_parts_ok {offset : Int} {records : Bytes} {commit : Option Int}
    (h : count_parts offset records = .ok commit) :
    commit = some (offset + (split records).length) ∧ (0xFF : UInt8) ∉ records := by
  unfold count_parts at h
  dsimp only at h
  split at h
  · rename_i hall
    cases h
    refine ⟨rfl, fun hm => ?_⟩
    have hjoin : [0].intercalate (split records) = records := List.intercalate_splitOn 0
    rw [← hjoin] at hm
    rcases mem_join hm with h0 | ⟨part, hpart, hm⟩
    · exact absurd h0 (by decide)
    · obtain ⟨s, hs⟩ := Option.isSome_iff_exists.1 (List.all_eq_true.1 hall part hpart)
      rw [fromUtf8_eq_some hs] at hm
      exact ff_notMem_utf8 s hm
  · cases h

end herbert.Client
