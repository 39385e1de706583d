import Herbert.Broker
import Herbert.ClientReads
import Herbert.Group
import Herbert.Requests
import Herbert.Tasks
/-!
# Consumers over connections

The `consume` calls of a group with all their bytes. A call writes the requests
that `create_buffer` makes and reads as `get_offset` and `get_records` do; a write
may take only some of the bytes, the bytes arrive in any pieces, and a task of the
Kafka listener reads them. Any other connections send whatever they like, as long
as they neither commit for the group nor put a zero byte into its topic.

What the server makes of a message is the same as on the level of requests:
`serves_message` says it for the others, `tells`, `fetches` and `sets` for the three
requests of a call.
-/
open Lib Lib.Bytes Lib.Runs herbert.Connection herbert.Framing herbert.Requests
open herbert.Consumers (Setup Pc)

namespace herbert

/-- `ApiKey::.. as i16` -/
def ClientRequest.request_api_key : ClientRequest → Int
  | .Produce _ => 0
  | .Fetch _ => 1
  | .OffsetCommit _ => 8
  | .OffsetFetch _ => 9

/-- What the client writes for a request. -/
def ClientRequest.request_buffer (kafka : KafkaCodec) (request : ClientRequest) : Except HerbertError Bytes :=
  Client.create_buffer kafka (Client.create_request_header request.request_api_key request.client_version)
    (request.encodable kafka)

namespace Sockets

variable {ι κ σ ρ : Type}

/-! ## The system -/

/-- The client's end of a connection. -/
structure Socket where
  pc : Pc
  /-- What is written and has not arrived. -/
  unsent : Bytes

/-- The calls have the connections on the left. What a task has written stays in its
output until the call reads it. -/
structure State (ι κ σ ρ : Type) where
  listener : Tasks.State (ι ⊕ κ) σ ρ
  client : ι → Socket

/-- A server without topics and offsets, and no call made. -/
def start (config : Config) : State ι κ σ ρ := ⟨Tasks.start (.new config), fun _ => ⟨.idle, []⟩⟩

/-- A `write` takes `n` bytes at most. -/
inductive Label (ι κ σ : Type) where
  | begin (i : ι) (n : Nat)
  | receive (i : ι) (arriving : Stream UInt8) (n : Nat)
  | transmit (i : ι) (n : Nat)
  | hang_up (i : ι)
  | run (i : ι)
  | other (l : Tasks.Label κ)
  | create_topic (topic : String) (schema : Option σ)

/-- A step of one of the other connections. -/
def others : Tasks.Label κ → Tasks.Label (ι ⊕ κ)
  | .arrive k piece => .arrive (.inr k) piece
  | .close k => .close (.inr k)
  | .run k => .run (.inr k)

section
variable (setup : Setup ι σ ρ)

def offset_request : ClientRequest := .OffsetFetch (create_offset_fetch_request setup.consumer_group setup.topic)

def fetch_request (i : ι) (offset : Int) : ClientRequest :=
  .Fetch (create_fetch_request setup.topic (setup.max_messages i) offset)

def commit_request (offset : Int) : ClientRequest :=
  .OffsetCommit (create_offset_commit_request setup.consumer_group setup.topic offset)

/-- Where the call is behind a `write`, and what that took. -/
def write (n : Nat) (pc : Pc) : Except HerbertError Bytes → Socket
  | .error e => ⟨.failed e, []⟩
  | .ok buffer => ⟨pc, buffer.take n⟩

variable (kafka : KafkaCodec)

/-- `consume` from one read to the next write, and what it leaves to read. -/
def received (i : ι) (n : Nat) : Pc → Stream UInt8 → Option (Socket × Stream UInt8)
  | .offsetSent, stream =>
    match ClientReads.get_offset kafka stream with
    | (.error e, stream) => some (⟨.failed e, []⟩, stream)
    | (.ok initial_offset, stream) =>
      some (write n (.fetchSent initial_offset) ((fetch_request setup i initial_offset).request_buffer kafka), stream)
  | .fetchSent initial_offset, stream =>
    match ClientReads.get_records kafka 1 stream with
    | (.error e, stream) => some (⟨.failed e, []⟩, stream)
    | (.ok records, stream) =>
      match Client.consume initial_offset records with
      | (parts, none) => some (⟨.returned initial_offset parts, []⟩, stream)
      | (parts, some offset) =>
        some (write n (.returned initial_offset parts) ((commit_request setup offset).request_buffer kafka), stream)
  | _, _ => none

variable [DecidableEq ι] [DecidableEq κ] [DecidableEq σ]

def step (s : State ι κ σ ρ) : Label ι κ σ → Option (State ι κ σ ρ)
  | .begin i n =>
    match s.client i with
    | ⟨.idle, unsent⟩ =>
      let socket := write n .offsetSent ((offset_request setup).request_buffer kafka)
      some { s with client := Function.update s.client i { socket with unsent := unsent ++ socket.unsent } }
    | _ => none
  | .receive i arriving n =>
    let task := s.listener.task (.inl i)
    -- a read waits for bytes, or for the end of the stream
    if arriving.content ≠ task.output ∨ (task.output = [] ∧ task.result.isNone) then none
    else (received setup kafka i n (s.client i).pc arriving).map fun (socket, stream) =>
      ⟨{ s.listener with task := Function.update s.listener.task (.inl i) { task with output := stream.content } },
        Function.update s.client i { socket with unsent := (s.client i).unsent ++ socket.unsent }⟩
  | .transmit i n =>
    (Tasks.step kafka setup.ipc setup.json s.listener (.arrive (.inl i) ((s.client i).unsent.take n))).map fun listener =>
      ⟨listener, Function.update s.client i { s.client i with unsent := (s.client i).unsent.drop n }⟩
  | .hang_up i =>
    match s.client i with
    | ⟨.returned _ _, []⟩ | ⟨.failed _, []⟩ =>
      (Tasks.step kafka setup.ipc setup.json s.listener (.close (.inl i))).map fun listener => { s with listener }
    | _ => none
  | .run i =>
    (Tasks.step kafka setup.ipc setup.json s.listener (.run (.inl i))).map fun listener => { s with listener }
  | .other l =>
    match Tasks.step kafka setup.ipc setup.json s.listener (others l) with
    | none => none
    | some listener =>
      -- a `VecDeque` does not grow to `2 ^ 63` elements
      if (listener.server.topic_manager.backend.queue setup.topic).length < 2 ^ 63 then some { s with listener } else none
  | .create_topic topic schema =>
    some { s with listener := { s.listener with
      server := s.listener.server.handle_herbert_connection (Client.create_topic topic schema) } }

end

/-- The offset committed for the group. -/
def committed (setup : Setup ι σ ρ) (s : State ι κ σ ρ) : Int :=
  s.listener.server.offset_manager.get_offset setup.consumer_group setup.topic

/-- The records of the topic that can be fetched. -/
def topicQueue (setup : Setup ι σ ρ) (s : State ι κ σ ρ) : List (StoredRecord σ ρ) :=
  s.listener.server.topic_manager.backend.queue setup.topic

/-! ## What the others may do -/

/-- The request in a message. -/
def request_of (kafka : KafkaCodec) (message : Bytes) : KafkaRequest :=
  match read_header kafka message with
  | .error _ => .NotCovered
  | .ok (_, _, header, buffer) => read_request kafka header buffer

/-- It does not commit for the group, and puts no zero byte into its topic. -/
def Quiet (setup : Setup ι σ ρ) : Broker.Op σ → Prop
  | .produce topic record => topic = setup.topic → 0 ∉ record
  | .commit group_id topic _ => (group_id, topic) ≠ (setup.consumer_group, setup.topic)
  | _ => True

/-- A read gets the whole response. -/
def Whole (pc : Pc) (arriving : Stream UInt8) (output : Bytes) : Prop :=
  match pc with
  | .offsetSent => arriving.OneRead 512 output
  | _ => output = [] ∨ (arriving.drop 4).OneRead (ofBe (output.take 4)) (output.drop 4)

def Admissible (setup : Setup ι σ ρ) (kafka : KafkaCodec) (s : State ι κ σ ρ) : Label ι κ σ → Prop
  | .receive i arriving _ => Whole (s.client i).pc arriving (s.listener.task (.inl i)).output
  | .other l => ∀ x ∈ Tasks.message s.listener (others l), Quiet setup (request_of kafka x.2).op
  | .create_topic topic schema => topic = setup.topic → schema = none
  | _ => True

/-! ## A request on the connection -/

/-- The requests a call makes. -/
inductive Makes (setup : Setup ι σ ρ) : ClientRequest → Prop
  | offset : Makes setup (offset_request setup)
  | fetch (i : ι) (o : Int) : Makes setup (fetch_request setup i o)
  | commit (o : Int) : Makes setup (commit_request setup o)

/-- Requests are decoded at the versions of the client; a Fetch has no `max_bytes`
there. -/
structure LawfulBodies (kafka : KafkaCodec) : Prop where
  key : ∀ request : ClientRequest, kafka.try_from request.request_api_key = some request.api_key
  offset_fetch : kafka.offset_fetch_request.Lawful 6
  offset_commit : kafka.offset_commit_request.Lawful 9
  fetch : ∀ request n, kafka.fetch_request.compute_size 1 request = some n →
    ∃ max_bytes, kafka.fetch_request.decode 1 (kafka.fetch_request.encode 1 request).1 = some ({ request with max_bytes }, [])

/-- What is assumed of the codec. -/
structure LawfulCodec (kafka : KafkaCodec) : Prop where
  requests : LawfulRequests kafka
  bodies : LawfulBodies kafka
  responses : kafka.Lawful

/-- The requests of the calls fit the 32 bits of a length. -/
def Small (kafka : KafkaCodec) (setup : Setup ι σ ρ) : Prop :=
  ∀ request buffer, Makes setup request → request.request_buffer kafka = .ok buffer → buffer.length < 4 + 2 ^ 32

variable {setup : Setup ι σ ρ} {kafka : KafkaCodec}

/-- No frame is the start of another one. -/
theorem framed_inj {m m' rest : Bytes} (hm : m.length < 2 ^ 32) (hm' : m'.length < 2 ^ 32)
    (h : framed m ++ rest = framed m') : m = m' ∧ rest = [] := by
  rw [framed, framed, List.append_assoc] at h
  obtain ⟨hlen, hbody⟩ := List.append_inj h (by rw [length_be, length_be])
  have hlen := congrArg ofBe hlen
  have hpow : 256 ^ 4 = 2 ^ 32 := by decide
  rw [ofBe_be, ofBe_be, hpow, Nat.mod_eq_of_lt hm, Nat.mod_eq_of_lt hm'] at hlen
  have hrest : rest = [] := by
    have := congrArg List.length hbody
    rw [List.length_append] at this
    exact List.eq_nil_of_length_eq_zero (by omega)
  exact ⟨by rwa [hrest, List.append_nil] at hbody, hrest⟩

variable (kafka) in
/-- The message has the header and the body of the request. -/
def Carries (request : ClientRequest) (m : Bytes) : Prop :=
  m.length < 2 ^ 32 ∧ ∃ header_version n, read_header kafka m =
      .ok (request.client_version, header_version,
        Client.create_request_header request.request_api_key request.client_version,
        ((request.encodable kafka).encode request.client_version).1) ∧
    (request.encodable kafka).compute_size request.client_version = some n

/-- What the client writes is one frame. -/
theorem buffer_framed (hk : LawfulCodec kafka) {request : ClientRequest} {buffer : Bytes}
    (hbuffer : request.request_buffer kafka = .ok buffer) (hsmall : buffer.length < 4 + 2 ^ 32) :
    ∃ m, buffer = framed m ∧ Carries kafka request m := by
  obtain ⟨_, n, -, hn, -⟩ := create_buffer_ok hbuffer
  obtain ⟨len, input', message, header_version, hlen, hread, hheader⟩ :=
    client_request_read_back hk.requests (hk.bodies.key request) hbuffer hsmall []
  have hwhole : frames.next (buffer ++ []) = .ok (message, []) := by simp only [frames, hlen, hread]
  obtain ⟨hframe, hmessage⟩ := Tasks.next_framed hwhole
  rw [List.append_nil, List.append_nil] at hframe
  exact ⟨message, hframe, hmessage, header_version, n, hheader, hn⟩

/-- The frame of a request arrives whole. -/
theorem read_off (hk : LawfulCodec kafka) {request : ClientRequest} {buffer : Bytes}
    (hbuffer : request.request_buffer kafka = .ok buffer) (hsmall : buffer.length < 4 + 2 ^ 32) {input behind m rest : Bytes}
    (hpre : input ++ behind <+: buffer) (hnext : frames.next input = .ok (m, rest)) :
    rest = [] ∧ behind = [] ∧ Carries kafka request m := by
  obtain ⟨message, rfl, hcarries⟩ := buffer_framed hk hbuffer hsmall
  obtain ⟨rfl, hm⟩ := Tasks.next_framed hnext
  obtain ⟨tail, htail⟩ := hpre
  rw [List.append_assoc, List.append_assoc] at htail
  obtain ⟨rfl, hnil⟩ := framed_inj hm hcarries.1 htail
  simp only [List.append_eq_nil_iff] at hnil
  exact ⟨hnil.1, hnil.2.1, hcarries⟩

/-- What the server decodes of a request. -/
def decoded (kafka : KafkaCodec) (request : ClientRequest) : KafkaRequest :=
  read_request kafka (Client.create_request_header request.request_api_key request.client_version)
    ((request.encodable kafka).encode request.client_version).1

theorem Carries.request_of {request : ClientRequest} {m : Bytes} (h : Carries kafka request m) :
    request_of kafka m = decoded kafka request := by
  obtain ⟨-, header_version, n, hread, -⟩ := h
  rw [Sockets.request_of, hread]
  rfl

theorem decoded_offset_request (hk : LawfulCodec kafka) {m : Bytes} (hm : Carries kafka (offset_request setup) m) :
    decoded kafka (offset_request setup) = Consumers.offset_request setup := by
  obtain ⟨-, -, n, -, hn⟩ := hm
  have hbody := hk.bodies.offset_fetch.round_trip _ n [] hn
  rw [List.append_nil] at hbody
  rw [decoded, read_request, Client.create_request_header]
  dsimp only
  rw [hk.bodies.key]
  exact congrArg (fun r => KafkaRequest.OffsetFetch (r.map Prod.fst)) hbody

theorem decoded_commit_request (hk : LawfulCodec kafka) {o : Int} {m : Bytes} (hm : Carries kafka (commit_request setup o) m) :
    decoded kafka (commit_request setup o) = Consumers.commit_request setup o := by
  obtain ⟨-, -, n, -, hn⟩ := hm
  have hbody := hk.bodies.offset_commit.round_trip _ n [] hn
  rw [List.append_nil] at hbody
  rw [decoded, read_request, Client.create_request_header]
  dsimp only
  rw [hk.bodies.key]
  exact congrArg (fun r => KafkaRequest.OffsetCommit (r.map Prod.fst)) hbody

/-- A Fetch is decoded with another `max_bytes`. -/
theorem decoded_fetch_request (hk : LawfulCodec kafka) {i : ι} {o : Int} {m : Bytes}
    (hm : Carries kafka (fetch_request setup i o) m) :
    ∃ max_bytes, decoded kafka (fetch_request setup i o) = .Fetch (some (create_fetch_request setup.topic max_bytes o)) := by
  obtain ⟨-, -, n, -, hn⟩ := hm
  obtain ⟨max_bytes, hbody⟩ := hk.bodies.fetch _ n hn
  refine ⟨max_bytes, ?_⟩
  rw [decoded, read_request, Client.create_request_header]
  dsimp only
  rw [hk.bodies.key]
  exact congrArg (fun r => KafkaRequest.Fetch (r.map Prod.fst)) hbody

/-! ## A message of another connection -/

section
variable [DecidableEq σ] {ipc : ArrowIpc σ ρ} {json : OffsetJson}

variable (kafka ipc json) in
/-- A message leaves the server alone, or does what its request does. -/
theorem server_of_message (server : Server σ ρ) (m : Bytes) :
    (handle_message kafka ipc json server m).2 = server ∨
      (handle_message kafka ipc json server m).2 = (server.handle_kafka_request ipc json (request_of kafka m)).2 := by
  unfold handle_message request_of
  cases read_header kafka m with
  | error e => exact .inl rfl
  | ok x =>
    obtain ⟨api_version, header_version, header, buffer⟩ := x
    dsimp only
    split
    · exact .inl rfl
    · right
      split <;> rename_i h <;> rw [h]

variable (ipc json) in
/-- What a request does to the server, by what it asks for. -/
theorem server_of_op (server : Server σ ρ) (request : KafkaRequest) :
    (server.handle_kafka_request ipc json request).2 = match (request.op : Broker.Op σ) with
      | .produce t record => { server with topic_manager := (server.topic_manager.add ipc t record).2 }
      | .fetch t o => { server with topic_manager := (server.topic_manager.fetch ipc t o).2 }
      | .commit g t o => { server with offset_manager := (server.offset_manager.set_offset json g t o).2 }
      | _ => server := by
  match request with
  | .Produce none | .Produce (some ⟨[]⟩) | .Produce (some ⟨⟨_, []⟩ :: _⟩) | .Produce (some ⟨⟨_, ⟨none⟩ :: _⟩ :: _⟩)
  | .OffsetCommit none | .OffsetCommit (some ⟨_, []⟩) | .OffsetCommit (some ⟨_, ⟨_, []⟩ :: _⟩)
  | .Fetch none | .Fetch (some ⟨_, []⟩) | .Fetch (some ⟨_, ⟨_, []⟩ :: _⟩)
  | .OffsetFetch none | .OffsetFetch (some ⟨_, none⟩) | .OffsetFetch (some ⟨_, some []⟩)
  | .OffsetFetch (some ⟨_, some (_ :: _)⟩) | .NotCovered | .OffsetCommit (some ⟨_, ⟨_, ⟨_⟩ :: _⟩ :: _⟩) => rfl
  | .Produce (some ⟨⟨t, ⟨some record⟩ :: data⟩ :: rest⟩) =>
    simp only [Server.handle_kafka_request, handle_produce_request, handle_topic_data, List.getElem?_cons_zero, KafkaRequest.op]
    split <;> rename_i h <;> rw [h]
  | .Fetch (some ⟨max_bytes, ⟨t, ⟨o⟩ :: partitions⟩ :: rest⟩) =>
    simp only [Server.handle_kafka_request, handle_fetch_request, List.getElem?_cons_zero, KafkaRequest.op]
    rcases server.topic_manager.fetch ipc t o with ⟨e | records, tm⟩ <;> rfl

/-- What the group sees of the server is what it was, but for more records. -/
structure Serves (setup : Setup ι σ ρ) (server server' : Server σ ρ) : Prop where
  raw : Group.RawTopic setup.topic server'.topic_manager
  queue : server.topic_manager.backend.queue setup.topic <+: server'.topic_manager.backend.queue setup.topic
  committed : server'.offset_manager.get_offset setup.consumer_group setup.topic =
    server.offset_manager.get_offset setup.consumer_group setup.topic

theorem serves_message {server : Server σ ρ} (hraw : Group.RawTopic setup.topic server.topic_manager) {m : Bytes}
    (hquiet : Quiet setup (request_of kafka m).op)
    (hfits : ((handle_message kafka setup.ipc setup.json server m).2.topic_manager.backend.queue setup.topic).length < 2 ^ 63) :
    Serves setup server (handle_message kafka setup.ipc setup.json server m).2 := by
  rcases server_of_message kafka setup.ipc setup.json server m with h | h
  · rw [h]
    exact ⟨hraw, List.prefix_rfl, rfl⟩
  rw [h, server_of_op] at hfits ⊢
  generalize (request_of kafka m).op = op at hquiet hfits ⊢
  cases op with
  | produce t record =>
    obtain ⟨hraw', hq⟩ := hraw.add setup.ipc hquiet hfits
    exact ⟨hraw', hq, rfl⟩
  | fetch t o =>
    refine ⟨hraw.fetch setup.ipc t o, ?_, rfl⟩
    rw [TopicManager.queue_fetch]
  | commit g t o =>
    refine ⟨hraw, List.prefix_rfl, ?_⟩
    rw [OffsetManager.get_offset_set_offset, if_neg (Ne.symm hquiet)]
  | _ => exact ⟨hraw, List.prefix_rfl, rfl⟩

end

/-! ## A message of a call -/

variable (kafka) in
/-- The bytes are the response, to a request of this version. -/
def Answers (version : Int) (response : KafkaResponse) (sent : Bytes) : Prop :=
  ∃ q : ReadRequest kafka, q.api_version = version ∧ LawfulResponse kafka version response ∧ Sent q response sent

section
variable [DecidableEq σ]

/-- What is written for a request is the response to it. -/
theorem answers (hk : LawfulCodec kafka) {ipc : ArrowIpc σ ρ} {json : OffsetJson} (q : ReadRequest kafka)
    {server : Server σ ρ} {response : KafkaResponse}
    (hresponse : (server.handle_kafka_request ipc json q.request).1 = .ok (some response)) {sent : Bytes}
    (hsent : (handle_message kafka ipc json server q.message).1 = .ok sent) : Answers kafka q.api_version response sent := by
  exact ⟨q, rfl, q.sent_response ipc json hk.responses hresponse hsent⟩

/-- What is written for a request of the client is the response to it. -/
theorem Carries.answers (hk : LawfulCodec kafka) {ipc : ArrowIpc σ ρ} {json : OffsetJson} {request : ClientRequest}
    {m : Bytes} (hm : Carries kafka request m)
    (hreads : (∃ r, decoded kafka request = .Fetch (some r)) ∨ ∃ r, decoded kafka request = .OffsetFetch (some r))
    {server : Server σ ρ} {response : KafkaResponse}
    (hresponse : (server.handle_kafka_request ipc json (decoded kafka request)).1 = .ok (some response)) {sent : Bytes}
    (hsent : (handle_message kafka ipc json server m).1 = .ok sent) :
    Answers kafka request.client_version response sent := by
  obtain ⟨hlen, header_version, n, hread, -⟩ := hm
  exact Sockets.answers hk ⟨m, _, header_version, _, _, _, hread, rfl, hreads, hlen⟩ hresponse hsent

/-- A request of the client on the server: only the size of the header depends on
the message. -/
theorem Carries.handled (ipc : ArrowIpc σ ρ) (json : OffsetJson) {request : ClientRequest} {m : Bytes}
    (hm : Carries kafka request m) :
    ∃ header_size : Option Nat, ∀ server : Server σ ρ, handle_message kafka ipc json server m =
      match header_size with
      | none => (.error (.Error .ComputeSize), server)
      | some size =>
        match server.handle_kafka_request ipc json (decoded kafka request) with
        | (.error e, server) => (.error (.Error e), server)
        | (.ok none, server) => (.ok [], server)
        | (.ok (some response), server) => (respond kafka size request.client_version
            (Client.create_request_header request.request_api_key request.client_version) response, server) := by
  obtain ⟨-, header_version, n, hread, -⟩ := hm
  refine ⟨kafka.response_header.compute_size header_version
    ⟨(Client.create_request_header request.request_api_key request.client_version).correlation_id⟩, fun server => ?_⟩
  rw [handle_message, hread]
  rfl

/-- If it is answered, the server did what the request asks for. -/
theorem Carries.server {ipc : ArrowIpc σ ρ} {json : OffsetJson} {request : ClientRequest} {m : Bytes}
    (hm : Carries kafka request m) {server : Server σ ρ} {sent : Bytes}
    (hsent : (handle_message kafka ipc json server m).1 = .ok sent) :
    (handle_message kafka ipc json server m).2 =
      (server.handle_kafka_request ipc json (decoded kafka request)).2 := by
  obtain ⟨header_size, hhandled⟩ := hm.handled ipc json
  rw [hhandled] at hsent ⊢
  cases header_size with
  | none => cases hsent
  | some size =>
    dsimp only
    split <;> rename_i h <;> rw [h]

/-- The codec alone decides whether a request without a response is handled. -/
theorem Carries.acknowledged {ipc : ArrowIpc σ ρ} {json : OffsetJson} {request : ClientRequest} {m : Bytes}
    (hm : Carries kafka request m) {server : Server σ ρ} {sent : Bytes}
    (hsent : (handle_message kafka ipc json server m).1 = .ok sent) {before after : Server σ ρ}
    (h : before.handle_kafka_request ipc json (decoded kafka request) = (.ok none, after)) :
    handle_message kafka ipc json before m = (.ok [], after) := by
  obtain ⟨header_size, hhandled⟩ := hm.handled ipc json
  rw [hhandled] at hsent ⊢
  cases header_size with
  | none => cases hsent
  | some size => rw [h]

/-- An OffsetFetch leaves the server alone; what is written is the committed
offset. -/
theorem tells (hk : LawfulCodec kafka) {m : Bytes} (hm : Carries kafka (offset_request setup) m) (server : Server σ ρ) :
    (handle_message kafka setup.ipc setup.json server m).2 = server ∧
      ∀ sent, (handle_message kafka setup.ipc setup.json server m).1 = .ok sent → Answers kafka 6
        (Group.offset_response setup (server.offset_manager.get_offset setup.consumer_group setup.topic)) sent := by
  have hrequest := decoded_offset_request hk hm
  have hhandle := Server.handle_offset_fetch setup.ipc setup.json server setup.consumer_group setup.topic
  constructor
  · rcases server_of_message kafka setup.ipc setup.json server m with h | h
    · exact h
    · rw [h, hm.request_of, hrequest]
      exact congrArg Prod.snd hhandle
  · intro sent hsent
    refine hm.answers hk (.inr ⟨_, hrequest⟩) ?_ hsent
    rw [hrequest]
    exact congrArg Prod.fst hhandle

/-- A Fetch leaves the records alone; what is written is a snapshot of them. -/
theorem fetches (hk : LawfulCodec kafka) {i : ι} {o : Int} {m : Bytes} (hm : Carries kafka (fetch_request setup i o) m)
    {server : Server σ ρ} (hraw : Group.RawTopic setup.topic server.topic_manager)
    (ho : Group.Within (server.topic_manager.backend.queue setup.topic) o) :
    ∃ ms tm, Group.Snapshot (server.topic_manager.backend.queue setup.topic) o ms ∧ Group.RawTopic setup.topic tm ∧
      tm.backend.queue setup.topic = server.topic_manager.backend.queue setup.topic ∧
      (handle_message kafka setup.ipc setup.json server m).2 = { server with topic_manager := tm } ∧
      ∀ sent, (handle_message kafka setup.ipc setup.json server m).1 = .ok sent →
        Answers kafka 1 (Group.fetch_response ms) sent := by
  obtain ⟨max_bytes, hrequest⟩ := decoded_fetch_request hk hm
  obtain ⟨ms, hms, hsnap⟩ := hraw.fetch_snapshot setup.ipc ho.1 ho.2
  have hhandle := Server.handle_fetch setup.ipc setup.json hms max_bytes
  have hsent : ∀ sent, (handle_message kafka setup.ipc setup.json server m).1 = .ok sent →
      Answers kafka 1 (Group.fetch_response ms) sent := by
    intro sent hsent
    refine hm.answers hk (.inl ⟨_, hrequest⟩) ?_ hsent
    rw [hrequest]
    exact congrArg Prod.fst hhandle
  rcases server_of_message kafka setup.ipc setup.json server m with h | h
  · exact ⟨ms, _, hsnap, hraw, rfl, h, hsent⟩
  · refine ⟨ms, _, hsnap, hraw.fetch setup.ipc setup.topic o, TopicManager.queue_fetch setup.ipc _ _ _ o, ?_, hsent⟩
    rw [h, hm.request_of, hrequest, hhandle]

/-- An OffsetCommit is handled and answered with nothing, or the task ends before. -/
theorem sets (hk : LawfulCodec kafka) {o : Int} {m : Bytes} (hm : Carries kafka (commit_request setup o) m)
    (server : Server σ ρ) :
    (∃ e, handle_message kafka setup.ipc setup.json server m = (.error e, server)) ∨
      handle_message kafka setup.ipc setup.json server m = (.ok [],
        { server with offset_manager :=
          (server.offset_manager.set_offset setup.json setup.consumer_group setup.topic o).2 }) := by
  obtain ⟨header_size, hhandled⟩ := hm.handled setup.ipc setup.json
  rw [hhandled, decoded_commit_request hk hm, Consumers.commit_request, Server.handle_offset_commit]
  cases header_size with
  | none => exact .inl ⟨_, rfl⟩
  | some size => exact .inr rfl

end

end Sockets
end herbert
