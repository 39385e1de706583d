import Herbert.Connection
import Herbert.Lib.Frames
/-!
# The frames of the responses

The response to a request is the encoded header with its correlation id and the
encoded body. The length in front of it counts the header a second time, at the
version of the request's header, so it announces four or five bytes that are not
sent (`ReadRequest.sent`). No response is framed right.
-/
open Lib Lib.Bytes herbert.Connection

namespace herbert.Framing

variable {σ ρ : Type} {kafka : KafkaCodec}

/-- A Fetch or OffsetFetch request as it is read from a message. -/
structure ReadRequest (kafka : KafkaCodec) where
  message : Bytes
  api_version : Int
  header_version : Int
  header : RequestHeader
  buffer : Bytes
  request : KafkaRequest
  header_read : read_header kafka message = .ok (api_version, header_version, header, buffer)
  request_read : read_request kafka header buffer = request
  answered : (∃ r, request = .Fetch (some r)) ∨ ∃ r, request = .OffsetFetch (some r)
  length_lt : message.length < 2 ^ 32

/-- The encoded response header with the correlation id of the request, and the
encoded body. -/
def ReadRequest.payload (q : ReadRequest kafka) (response : KafkaResponse) : Bytes :=
  (kafka.response_header.encode 1 ⟨q.header.correlation_id⟩).1 ++ encode_response kafka q.api_version response

/-- Reads a frame: a length, and as many bytes. -/
def frames : Reader Unit UInt8 Bytes where
  next input :=
    match read_message_len input with
    | .error _ => .error ()
    | .ok (n, input) =>
      match readExact n input with
      | none => .error ()
      | some r => .ok r
  shrinks {input a rest} h := by
    split at h
    · cases h
    · rename_i hlen
      split at h
      · cases h
      · rename_i hread
        cases h
        exact read_message_shrinks hlen hread

/-! ## What is sent -/

theorem ReadRequest.version (hk : kafka.Lawful) (q : ReadRequest kafka) :
    q.header.request_api_version = q.api_version := by
  obtain ⟨_, _, -, hversion, -, -, hdecode⟩ := (read_header_eq_ok kafka).1 q.header_read
  have hfront := (hk.request_header_front _ _ _ _ hdecode).2
  rw [hversion] at hfront
  exact (Option.some.inj hfront).symm

theorem ReadRequest.supports_fetch (hk : kafka.Lawful) {q : ReadRequest kafka} {r : FetchRequest}
    (hq : q.request = .Fetch (some r)) : kafka.fetch_request.Supports q.api_version := by
  have h := q.request_read
  rw [hq, read_request, q.version hk] at h
  split at h <;> try cases h
  simp only [KafkaRequest.Fetch.injEq, Option.map_eq_some_iff] at h
  obtain ⟨x, hx, -⟩ := h
  exact ⟨q.buffer, by simp [hx]⟩

theorem ReadRequest.supports_offset_fetch (hk : kafka.Lawful) {q : ReadRequest kafka} {r : OffsetFetchRequest}
    (hq : q.request = .OffsetFetch (some r)) : kafka.offset_fetch_request.Supports q.api_version := by
  have h := q.request_read
  rw [hq, read_request, q.version hk] at h
  split at h <;> try cases h
  simp only [KafkaRequest.OffsetFetch.injEq, Option.map_eq_some_iff] at h
  obtain ⟨x, hx, -⟩ := h
  exact ⟨q.buffer, by simp [hx]⟩

section
variable [DecidableEq σ] (ipc : ArrowIpc σ ρ) (json : OffsetJson)

variable (kafka) in
/-- The response is encoded in its size and read back. -/
def LawfulResponse (version : Int) : KafkaResponse → Prop
  | .Fetch _ => kafka.fetch_response.Lawful version
  | .OffsetFetch _ => kafka.offset_fetch_response.Lawful version

theorem length_encode_response {version : Int} {response : KafkaResponse} (h : LawfulResponse kafka version response)
    {n : Nat} (hn : response_size kafka version response = some n) :
    (encode_response kafka version response).length = n := by
  cases response with
  | Fetch response => exact h.size response n hn
  | OffsetFetch response => exact h.size response n hn

/-- A request that does not fail has a response. -/
theorem ReadRequest.response_of_ok (hk : kafka.Lawful) (q : ReadRequest kafka) {server : Server σ ρ}
    {answer : Option KafkaResponse} (h : (server.handle_kafka_request ipc json q.request).1 = .ok answer) :
    ∃ response, answer = some response ∧ LawfulResponse kafka q.api_version response := by
  rcases q.answered with ⟨r, hq⟩ | ⟨r, hq⟩
  · simp only [hq, Server.handle_kafka_request] at h
    split at h
    · cases h
    · cases h
      exact ⟨_, rfl, hk.fetch_response _ (supports_fetch hk hq)⟩
  · simp only [hq, Server.handle_kafka_request] at h
    split at h
    · cases h
    · cases h
      exact ⟨_, rfl, hk.offset_fetch_response _ (supports_offset_fetch hk hq)⟩

/-- The bytes of a response: the length of the payload and of one more header,
and the payload. -/
structure Sent (q : ReadRequest kafka) (response : KafkaResponse) (sent : Bytes) : Prop where
  header : ∃ n, kafka.response_header.compute_size 1 ⟨q.header.correlation_id⟩ = some n
  body : ∃ n, response_size kafka q.api_version response = some n
  bytes : ∃ size, (size = 4 ∨ size = 5) ∧ sent = be 4 (size + (q.payload response).length) ++ q.payload response

/-- What is written for a request is its response. -/
theorem ReadRequest.sent (hk : kafka.Lawful) (q : ReadRequest kafka) {server : Server σ ρ} {sent : Bytes}
    (h : (handle_message kafka ipc json server q.message).1 = .ok sent) :
    ∃ response, (server.handle_kafka_request ipc json q.request).1 = .ok (some response) ∧ Sent q response sent := by
  rw [handle_message, q.header_read] at h
  dsimp only at h
  rw [q.request_read] at h
  split at h
  · cases h
  rename_i size hsize
  split at h
  · cases h
  · rename_i hnone
    obtain ⟨_, hresponse, -⟩ := q.response_of_ok ipc json hk (congrArg Prod.fst hnone)
    cases hresponse
  · rename_i response server' hsome
    obtain ⟨_, hresponse, hlawful⟩ := q.response_of_ok ipc json hk (congrArg Prod.fst hsome)
    cases hresponse
    -- the size is computed for the version in the header, the body encoded for the one peeked at
    simp only [respond, q.version hk] at h
    split at h
    · cases h
    rename_i header_size hheader
    split at h
    · cases h
    rename_i body_size hbody
    cases h
    refine ⟨response, by rw [hsome], ⟨_, hheader⟩, ⟨_, hbody⟩, size, hk.response_header_size _ _ _ hsize, ?_⟩
    have hlen : (q.payload response).length = header_size + body_size := by
      rw [ReadRequest.payload, List.length_append, hk.response_header.size _ _ hheader,
        length_encode_response hlawful hbody]
    rw [hlen, ← Nat.add_assoc, ReadRequest.payload, List.append_assoc]

/-- The response is the one the server makes, at a version that is lawful. -/
theorem ReadRequest.sent_response (hk : kafka.Lawful) (q : ReadRequest kafka) {server : Server σ ρ}
    {response : KafkaResponse}
    (hresponse : (server.handle_kafka_request ipc json q.request).1 = .ok (some response)) {sent : Bytes}
    (hsent : (handle_message kafka ipc json server q.message).1 = .ok sent) :
    LawfulResponse kafka q.api_version response ∧ Sent q response sent := by
  obtain ⟨_, heq, hlawful⟩ := q.response_of_ok ipc json hk hresponse
  cases heq
  obtain ⟨_, heq, h⟩ := q.sent ipc json hk hsent
  cases hresponse.symm.trans heq
  exact ⟨hlawful, h⟩

section
variable {q : ReadRequest kafka} {response : KafkaResponse} {sent : Bytes}

theorem Sent.drop_four (h : Sent q response sent) : sent.drop 4 = q.payload response := by
  obtain ⟨size, -, rfl⟩ := h.bytes
  exact List.drop_left' (length_be 4 _)

theorem Sent.four_le (h : Sent q response sent) : 4 ≤ sent.length := by
  obtain ⟨size, -, rfl⟩ := h.bytes
  rw [List.length_append, length_be]
  omega

theorem Sent.payload_ne_nil (hk : kafka.Lawful) (h : Sent q response sent) : q.payload response ≠ [] := by
  obtain ⟨n, hn⟩ := h.header
  have hlen := hk.response_header.size _ _ hn
  have hsize := hk.response_header_size _ _ _ hn
  intro hnil
  rw [ReadRequest.payload, List.append_eq_nil_iff] at hnil
  rw [hnil.1, List.length_nil] at hlen
  omega

/-- The header is decoded, whatever is behind the response. -/
theorem Sent.decode_header (hk : kafka.Lawful) (h : Sent q response sent) (rest : Bytes) :
    kafka.response_header.decode 1 (q.payload response ++ rest) =
      some (⟨q.header.correlation_id⟩, encode_response kafka q.api_version response ++ rest) := by
  obtain ⟨n, hn⟩ := h.header
  rw [ReadRequest.payload, List.append_assoc]
  exact hk.response_header.round_trip _ _ _ hn

end

/-! ## The frames that are read -/

/-- The first frame is as long as it is announced. -/
theorem frames_head {n : Nat} {input rest p : Bytes} {ps : List Bytes} {r : Except Unit Unit}
    (hlen : read_message_len input = .ok (n, rest)) (h : frames.readAll input = (p :: ps, r)) : p.length = n := by
  cases hnext : frames.next input with
  | error e =>
    by_cases hnil : input = []
    · rw [hnil, Reader.readAll_nil] at h; cases h
    · rw [frames.readAll_error hnil hnext] at h; cases h
  | ok x =>
    rw [frames.readAll_ok hnext] at h
    cases h
    simp only [frames, hlen] at hnext
    split at hnext
    · cases hnext
    · rename_i hx
      cases hnext
      exact (readExact_eq_some hx).2

/-! ## The connection -/

/-- What the responses to the requests have to carry, if there are responses. -/
def payloads (server : Server σ ρ) : List (ReadRequest kafka) → Option (List Bytes)
  | [] => some []
  | q :: qs =>
    match server.handle_kafka_request ipc json q.request with
    | (.ok (some response), server) => (payloads server qs).map (q.payload response :: ·)
    | _ => none

/-- What is written on a connection with these requests is one frame for each,
in order, with the header and the body of its response and nothing else. -/
def Framed (server : Server σ ρ) (requests : List (ReadRequest kafka)) : Prop :=
  ∃ ps, payloads ipc json server requests = some ps ∧
    frames.readAll (handle_kafka_connection kafka ipc json server
      (requests.flatMap fun q => framed q.message)).2.1 = (ps, .ok ())

/-- The first response already announces too many bytes. -/
theorem not_framed_cons (hk : kafka.Lawful) (server : Server σ ρ) (q : ReadRequest kafka)
    (qs : List (ReadRequest kafka)) : ¬Framed ipc json server (q :: qs) := by
  rintro ⟨ps, hps, hframes⟩
  rw [List.flatMap_cons, handle_kafka_connection_framed kafka ipc json server q.length_lt] at hframes
  rw [payloads] at hps
  split at hps
  · rename_i response server' hresponse
    obtain ⟨ps, -, rfl⟩ := Option.map_eq_some_iff.1 hps
    split at hframes
    · rw [Reader.readAll_nil] at hframes
      cases hframes
    · rename_i sent server'' hmsg
      obtain ⟨response', h', hsent⟩ := q.sent ipc json hk (congrArg Prod.fst hmsg)
      obtain ⟨size, hsize, rfl⟩ := hsent.bytes
      rw [hresponse] at h'
      cases h'
      dsimp only at hframes
      rw [List.append_assoc] at hframes
      -- the frame is as long as announced, four or five more than the payload
      have hlen := frames_head (read_message_len_be _ _) hframes
      omega
  · cases hps

/-- The responses are framed right exactly if there are none. -/
theorem framed_iff (hk : kafka.Lawful) (server : Server σ ρ) (requests : List (ReadRequest kafka)) :
    Framed ipc json server requests ↔ requests = [] := by
  constructor
  · intro h
    cases requests with
    | nil => rfl
    | cons q qs => exact absurd h (not_framed_cons ipc json hk server q qs)
  · rintro rfl
    refine ⟨[], rfl, ?_⟩
    rw [List.flatMap_nil, handle_kafka_connection, connection_loop]
    simp [read_message_len, readExact]

end

/-- An OffsetFetch of group `g` on topic `t`, at version 6. -/
def committed_request : ReadRequest pocketKafka where
  message := [0, 9, 0, 6, 0, 0, 0, 0, 0, 0, 0, 2, 103, 2, 2, 116, 1, 0, 0]
  api_version := 6
  header_version := 2
  header := ⟨9, 6, 0, some ""⟩
  buffer := [2, 103, 2, 2, 116, 1, 0, 0]
  request := .OffsetFetch (some (create_offset_fetch_request "g" "t"))
  header_read := by decide +kernel
  request_read := by decide
  answered := .inr ⟨_, rfl⟩
  length_lt := by simp

theorem framed_iff_one : ¬ Framed pocketIpc plainJson (.new ⟨1⟩) [committed_request] := fun h =>
  absurd ((framed_iff pocketIpc plainJson pocketKafka_lawful (.new ⟨1⟩) [committed_request]).1 h) (by simp)

/-- The response announces 42 bytes, and has 37. -/
theorem header_counted_twice :
    (handle_message pocketKafka pocketIpc plainJson (.new ⟨1⟩) committed_request.message).1 =
      .ok (be 4 42 ++ committed_request.payload (.OffsetFetch ⟨[⟨"t", [⟨0⟩]⟩]⟩)) ∧
    (committed_request.payload (.OffsetFetch ⟨[⟨"t", [⟨0⟩]⟩]⟩)).length = 37 ∧
    ¬Framed pocketIpc plainJson (.new ⟨1⟩) [committed_request] :=
  ⟨by decide, by decide, not_framed_cons pocketIpc plainJson pocketKafka_lawful _ _ _⟩

end herbert.Framing
