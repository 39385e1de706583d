import Herbert.TopicManager
import Herbert.OffsetManager
/-!
# The Kafka requests

The four requests the server answers, with the fields it and the client read or
set, the client's constructors and the server's handlers. A handler is given
what `kafka_protocol` decoded, `none` if the bytes were not a request.
-/
open herbert.TopicManager

namespace herbert

variable {σ ρ β : Type}

/-! ## Produce -/

structure PartitionProduceData where
  records : Option Bytes
deriving DecidableEq, Repr

structure TopicProduceData where
  name : String
  partition_data : List PartitionProduceData
deriving DecidableEq, Repr

structure ProduceRequest where
  topic_data : List TopicProduceData
deriving DecidableEq, Repr

def create_topic_produce_data (topic : String) (record : Bytes) : TopicProduceData :=
  { name := topic, partition_data := [{ records := some record }] }

def create_produce_request (topic : String) (record : Bytes) : ProduceRequest :=
  { topic_data := [create_topic_produce_data topic record] }

section
variable [DecidableEq σ] [RecordStorage β σ ρ] (ipc : ArrowIpc σ ρ)

def handle_topic_data (topic_data : List TopicProduceData) (topic_manager : TopicManager σ ρ β) :
    Except HerbertError Unit × TopicManager σ ρ β :=
  match topic_data[0]? with
  | none => (.error .NoTopicData, topic_manager)
  | some first_topic =>
    match first_topic.partition_data[0]? with
    | none => (.error .NoPartitionData, topic_manager)
    | some partition_data =>
      match partition_data.records with
      | none => (.error .NoRecordData, topic_manager)
      | some records => topic_manager.add ipc first_topic.name records

/-- A request that does not decode is answered like one that was handled. -/
def handle_produce_request (produce_request : Option ProduceRequest) (topic_manager : TopicManager σ ρ β) :
    Except HerbertError Unit × TopicManager σ ρ β :=
  match produce_request with
  | some ⟨topic_data⟩ => handle_topic_data ipc topic_data topic_manager
  | none => (.ok (), topic_manager)

/-- A produce request made by the client adds its record. -/
theorem handle_create_produce_request (tm : TopicManager σ ρ β) (topic : String) (record : Bytes) :
    handle_produce_request ipc (some (create_produce_request topic record)) tm = tm.add ipc topic record := rfl

/-- A produce request changes nothing, or adds to its first topic. -/
theorem handle_produce_request_snd (request : Option ProduceRequest) (tm : TopicManager σ ρ β) :
    (handle_produce_request ipc request tm).2 = tm ∨ ∃ first_topic rest records,
      request = some ⟨first_topic :: rest⟩ ∧
        handle_produce_request ipc request tm = tm.add ipc first_topic.name records := by
  match request with
  | none | some ⟨[]⟩ | some ⟨⟨_, []⟩ :: _⟩ | some ⟨⟨_, ⟨none⟩ :: _⟩ :: _⟩ => exact .inl rfl
  | some ⟨⟨name, ⟨some records⟩ :: data⟩ :: rest⟩ => exact .inr ⟨_, rest, records, rfl, rfl⟩

end

/-! ## Fetch -/

structure FetchPartition where
  fetch_offset : Int
deriving DecidableEq, Repr

structure FetchTopic where
  topic : String
  partitions : List FetchPartition
deriving DecidableEq, Repr

structure FetchRequest where
  max_bytes : Int
  topics : List FetchTopic
deriving DecidableEq, Repr

structure PartitionData where
  records : Option Bytes
deriving DecidableEq, Repr

structure FetchableTopicResponse where
  partitions : List PartitionData
deriving DecidableEq, Repr

structure FetchResponse where
  responses : List FetchableTopicResponse
deriving DecidableEq, Repr

def create_fetch_request (topic : String) (max_messages fetch_offset : Int) : FetchRequest :=
  { max_bytes := max_messages, topics := [{ topic, partitions := [{ fetch_offset }] }] }

/-- Only the first partition of the first topic is read. -/
def handle_fetch_request [RecordStorage β σ ρ] (ipc : ArrowIpc σ ρ) (fetch_request : Option FetchRequest)
    (topic_manager : TopicManager σ ρ β) : Except HerbertError FetchResponse × TopicManager σ ρ β :=
  match fetch_request with
  | none => (.error .UnknownError, topic_manager)
  | some ⟨_, topics⟩ =>
    match topics[0]? with
    | none => (.error .NoTopicData, topic_manager)
    | some first_topic =>
      match first_topic.partitions[0]? with
      | none => (.error .NoPartitionData, topic_manager)
      | some first_partition =>
        match topic_manager.fetch ipc first_topic.topic first_partition.fetch_offset with
        | (.error e, topic_manager) => (.error e, topic_manager)
        | (.ok records, topic_manager) =>
          (.ok { responses := [{ partitions := [{ records := some records }] }] }, topic_manager)

/-- A fetch request changes nothing, or what a fetch changes. -/
theorem handle_fetch_request_snd [RecordStorage β σ ρ] (ipc : ArrowIpc σ ρ) (request : Option FetchRequest)
    (tm : TopicManager σ ρ β) :
    (handle_fetch_request ipc request tm).2 = tm ∨
      ∃ t o, (handle_fetch_request ipc request tm).2 = (tm.fetch ipc t o).2 := by
  unfold handle_fetch_request
  split
  · exact .inl rfl
  split
  · exact .inl rfl
  split
  · exact .inl rfl
  rename_i first_topic _ _ first_partition _
  refine .inr ⟨first_topic.topic, first_partition.fetch_offset, ?_⟩
  split <;> rename_i h <;> rw [h]

/-! ## OffsetFetch -/

structure OffsetFetchRequestTopic where
  name : String
deriving DecidableEq, Repr

structure OffsetFetchRequest where
  group_id : String
  topics : Option (List OffsetFetchRequestTopic)
deriving DecidableEq, Repr

structure OffsetFetchResponsePartition where
  committed_offset : Int
deriving DecidableEq, Repr

structure OffsetFetchResponseTopic where
  name : String
  partitions : List OffsetFetchResponsePartition
deriving DecidableEq, Repr

structure OffsetFetchResponse where
  topics : List OffsetFetchResponseTopic
deriving DecidableEq, Repr

def create_offset_fetch_request (consumer_group topic : String) : OffsetFetchRequest :=
  { group_id := consumer_group, topics := some [{ name := topic }] }

def handle_offset_fetch_request (offset_fetch_request : Option OffsetFetchRequest) (offset_manager : OffsetManager) :
    Except HerbertError OffsetFetchResponse :=
  match offset_fetch_request with
  | none => .error .RequestDecode
  | some ⟨group_id, topics⟩ =>
    match topics with
    | none => .error .NoTopicData
    | some topic_vec =>
      match topic_vec[0]? with
      | none => .error .EmptyTopicList
      | some first_topic =>
        let offset := offset_manager.get_offset group_id first_topic.name
        .ok { topics := [{ name := first_topic.name, partitions := [{ committed_offset := offset }] }] }

/-! ## OffsetCommit -/

structure OffsetCommitRequestPartition where
  committed_offset : Int
deriving DecidableEq, Repr

structure OffsetCommitRequestTopic where
  name : String
  partitions : List OffsetCommitRequestPartition
deriving DecidableEq, Repr

structure OffsetCommitRequest where
  group_id : String
  topics : List OffsetCommitRequestTopic
deriving DecidableEq, Repr

def create_offset_commit_request (consumer_group topic : String) (offset : Int) : OffsetCommitRequest :=
  { group_id := consumer_group, topics := [{ name := topic, partitions := [{ committed_offset := offset }] }] }

/-- The result of `set_offset` is dropped. -/
def handle_offset_commit_request (json : OffsetJson) (offset_commit_request : Option OffsetCommitRequest)
    (offset_manager : OffsetManager) : Except HerbertError Unit × OffsetManager :=
  match offset_commit_request with
  | none => (.error .RequestDecode, offset_manager)
  | some ⟨group_id, topics⟩ =>
    match topics[0]? with
    | none => (.error .NoTopicData, offset_manager)
    | some first_topic =>
      match first_topic.partitions[0]? with
      | none => (.error .NoPartitionData, offset_manager)
      | some first_partition =>
        (.ok (), (offset_manager.set_offset json group_id first_topic.name first_partition.committed_offset).2)

/-- A commit changes nothing, or sets an offset of its first topic. -/
theorem handle_offset_commit_request_snd (json : OffsetJson) (request : Option OffsetCommitRequest)
    (om : OffsetManager) :
    (handle_offset_commit_request json request om).2 = om ∨ ∃ group_id first_topic rest o,
      request = some ⟨group_id, first_topic :: rest⟩ ∧
        (handle_offset_commit_request json request om).2 = (om.set_offset json group_id first_topic.name o).2 := by
  match request with
  | none | some ⟨_, []⟩ | some ⟨_, ⟨_, []⟩ :: _⟩ => exact .inl rfl
  | some ⟨group_id, ⟨name, ⟨o⟩ :: partitions⟩ :: rest⟩ => exact .inr ⟨group_id, _, rest, o, rfl, rfl⟩

end herbert
