import Herbert.KafkaApi
/-!
# The server

What a connection task does with one message. The Kafka listener answers Fetch
and OffsetFetch and nothing else; a request whose handler fails ends the
connection. The other listener takes `CreateTopic`.
-/

open herbert.TopicManager

namespace herbert

variable {σ ρ : Type}

structure Server (σ ρ : Type) where
  topic_manager : TopicManager σ ρ (InMemoryLog σ ρ)
  offset_manager : OffsetManager

/-- A request by its `ApiKey`. -/
inductive KafkaRequest where
  | Produce (request : Option ProduceRequest)
  | OffsetCommit (request : Option OffsetCommitRequest)
  | Fetch (request : Option FetchRequest)
  | OffsetFetch (request : Option OffsetFetchRequest)
  | NotCovered
deriving DecidableEq, Repr

inductive KafkaResponse where
  | Fetch (response : FetchResponse)
  | OffsetFetch (response : OffsetFetchResponse)
deriving DecidableEq, Repr

inductive HerbertRequest (σ : Type) where
  | CreateTopic (topic : String) (schema : Option σ)
deriving DecidableEq, Repr

namespace Server

/-- A server without topics and offsets, on an empty WAL file. -/
def new (config : Config) : Server σ ρ := ⟨.new .new config [], .new⟩

section
variable [DecidableEq σ] (ipc : ArrowIpc σ ρ) (json : OffsetJson)

/-- One pass of the loop in `handle_kafka_connection`: the response written to
the stream, if any. -/
def handle_kafka_request (server : Server σ ρ) :
    KafkaRequest → Except HerbertError (Option KafkaResponse) × Server σ ρ
  | .Produce request =>
    match handle_produce_request ipc request server.topic_manager with
    | (.error e, topic_manager) => (.error e, { server with topic_manager })
    | (.ok (), topic_manager) => (.ok none, { server with topic_manager })
  | .OffsetCommit request =>
    match handle_offset_commit_request json request server.offset_manager with
    | (.error e, offset_manager) => (.error e, { server with offset_manager })
    | (.ok (), offset_manager) => (.ok none, { server with offset_manager })
  | .Fetch request =>
    match handle_fetch_request ipc request server.topic_manager with
    | (.error e, topic_manager) => (.error e, { server with topic_manager })
    | (.ok response, topic_manager) => (.ok (some (.Fetch response)), { server with topic_manager })
  | .OffsetFetch request =>
    match handle_offset_fetch_request request server.offset_manager with
    | .error e => (.error e, server)
    | .ok response => (.ok (some (.OffsetFetch response)), server)
  | .NotCovered => (.ok none, server)

/-- The server after a produce request, accepted or not. -/
theorem handle_produce (server : Server σ ρ) (t : String) (record : Bytes) :
    (server.handle_kafka_request ipc json (.Produce (some (create_produce_request t record)))).2 =
      { server with topic_manager := (server.topic_manager.add ipc t record).2 } := by
  simp only [handle_kafka_request, handle_create_produce_request]
  split
  · rename_i h; rw [h]
  · rename_i h; rw [h]

/-- A fetch that succeeds is answered with its records. -/
theorem handle_fetch {server : Server σ ρ} {t : String} {o : Int} {records : Bytes}
    (h : (server.topic_manager.fetch ipc t o).1 = .ok records) (max_messages : Int) :
    server.handle_kafka_request ipc json (.Fetch (some (create_fetch_request t max_messages o))) =
      (.ok (some (.Fetch ⟨[⟨[⟨some records⟩]⟩]⟩)),
        { server with topic_manager := (server.topic_manager.fetch ipc t o).2 }) := by
  have hpair : server.topic_manager.fetch ipc t o = (.ok records, (server.topic_manager.fetch ipc t o).2) :=
    Prod.ext h rfl
  simp only [handle_kafka_request, handle_fetch_request, create_fetch_request, List.getElem?_cons_zero]
  rw [hpair]

/-- An OffsetFetch is answered with the offset of the group. -/
theorem handle_offset_fetch (server : Server σ ρ) (g t : String) :
    server.handle_kafka_request ipc json (.OffsetFetch (some (create_offset_fetch_request g t))) =
      (.ok (some (.OffsetFetch ⟨[⟨t, [⟨server.offset_manager.get_offset g t⟩]⟩]⟩)), server) := rfl

/-- An OffsetCommit sets it and is not answered. -/
theorem handle_offset_commit (server : Server σ ρ) (g t : String) (o : Int) :
    server.handle_kafka_request ipc json (.OffsetCommit (some (create_offset_commit_request g t o))) =
      (.ok none, { server with offset_manager := (server.offset_manager.set_offset json g t o).2 }) := rfl

/-! ## What a request touches -/

/-- A request leaves the topics alone, fetches, or adds to the first topic it
produces to. -/
theorem topic_manager_cases (server : Server σ ρ) (request : KafkaRequest) :
    (server.handle_kafka_request ipc json request).2.topic_manager = server.topic_manager ∨
      (∃ t o, (server.handle_kafka_request ipc json request).2.topic_manager =
        (server.topic_manager.fetch ipc t o).2) ∨
      ∃ first_topic rest records, request = .Produce (some ⟨first_topic :: rest⟩) ∧
        (server.handle_kafka_request ipc json request).2.topic_manager =
          (server.topic_manager.add ipc first_topic.name records).2 := by
  cases request with
  | Produce request =>
    have hsnd : (server.handle_kafka_request ipc json (.Produce request)).2.topic_manager =
        (handle_produce_request ipc request server.topic_manager).2 := by
      simp only [handle_kafka_request]
      split <;> rename_i h <;> rw [h]
    rw [hsnd]
    rcases handle_produce_request_snd ipc request server.topic_manager with h | ⟨first_topic, rest, records, rfl, h⟩
    · exact .inl h
    · exact .inr (.inr ⟨first_topic, rest, records, rfl, by rw [h]⟩)
  | Fetch request =>
    have hsnd : (server.handle_kafka_request ipc json (.Fetch request)).2.topic_manager =
        (handle_fetch_request ipc request server.topic_manager).2 := by
      simp only [handle_kafka_request]
      split <;> rename_i h <;> rw [h]
    rw [hsnd]
    exact (handle_fetch_request_snd ipc request server.topic_manager).imp_right .inl
  | OffsetCommit request =>
    refine .inl ?_
    simp only [handle_kafka_request]
    split <;> rfl
  | OffsetFetch request =>
    refine .inl ?_
    simp only [handle_kafka_request]
    split <;> rfl
  | NotCovered => exact .inl rfl

/-- What `fetch` and `add` keep of the topics, every request keeps. -/
theorem keeps_topic_manager (P : TopicManager σ ρ (InMemoryLog σ ρ) → Prop)
    (hfetch : ∀ tm t o, P tm → P (tm.fetch ipc t o).2) (hadd : ∀ tm t record, P tm → P (tm.add ipc t record).2)
    {server : Server σ ρ} (h : P server.topic_manager) (request : KafkaRequest) :
    P (server.handle_kafka_request ipc json request).2.topic_manager := by
  rcases topic_manager_cases ipc json server request with heq | ⟨t, o, heq⟩ | ⟨first_topic, _, records, -, heq⟩
  · exact heq ▸ h
  · exact heq ▸ hfetch _ t o h
  · exact heq ▸ hadd _ first_topic.name records h

/-- A request leaves the offsets alone, or commits one for its first topic. -/
theorem offset_manager_cases (server : Server σ ρ) (request : KafkaRequest) :
    (server.handle_kafka_request ipc json request).2.offset_manager = server.offset_manager ∨
      ∃ group_id first_topic rest o, request = .OffsetCommit (some ⟨group_id, first_topic :: rest⟩) ∧
        (server.handle_kafka_request ipc json request).2.offset_manager =
          (server.offset_manager.set_offset json group_id first_topic.name o).2 := by
  cases request with
  | OffsetCommit request =>
    have hsnd : (server.handle_kafka_request ipc json (.OffsetCommit request)).2.offset_manager =
        (handle_offset_commit_request json request server.offset_manager).2 := by
      simp only [handle_kafka_request]
      split <;> rename_i h <;> rw [h]
    rw [hsnd]
    rcases handle_offset_commit_request_snd json request server.offset_manager with
      h | ⟨group_id, first_topic, rest, o, rfl, h⟩
    · exact .inl h
    · exact .inr ⟨group_id, first_topic, rest, o, rfl, h⟩
  | Produce request | Fetch request | OffsetFetch request =>
    refine .inl ?_
    simp only [handle_kafka_request]
    split <;> rfl
  | NotCovered => exact .inl rfl

/-- The request does not produce to the topic. -/
def elsewhere (topic : String) : KafkaRequest → Bool
  | .Produce (some ⟨first_topic :: _⟩) => first_topic.name ≠ topic
  | _ => true

/-- A request that does not produce to the topic leaves its log alone. -/
theorem log_of_elsewhere (server : Server σ ρ) {t : String} {request : KafkaRequest} (h : elsewhere t request) :
    log_of (server.handle_kafka_request ipc json request).2.topic_manager t = log_of server.topic_manager t := by
  rcases topic_manager_cases ipc json server request with heq | ⟨t', o, heq⟩ | ⟨first_topic, rest, records, rfl, heq⟩
  · rw [heq]
  · rw [heq, log_of_fetch]
  · have hname : first_topic.name ≠ t := by simpa [elsewhere] using h
    rw [heq]
    rcases log_of_add ipc server.topic_manager first_topic.name records with ⟨e, he⟩ | ⟨r, -, -, hlog⟩
    · rw [he]
    · rw [hlog, if_neg hname, List.append_nil]

end

/-- A topic that exists already is logged and left alone. -/
def handle_herbert_connection (server : Server σ ρ) : HerbertRequest σ → Server σ ρ
  | .CreateTopic topic schema => { server with topic_manager := (server.topic_manager.create topic schema).2 }

end Server
end herbert
