import Herbert.Wire
/-!
# A connection of the Kafka listener

`handle_kafka_connection` reads length-prefixed messages until the stream ends,
hands the request in each to its handler and writes the response. The server
reads with `read_exact`, so how the stream is cut does not matter here, and the
input is one byte string.
-/
open Lib Lib.Bytes

namespace herbert

variable {σ ρ : Type}

namespace Connection

def read_message_len (input : Bytes) : Except Fault (Nat × Bytes) :=
  match readExact 4 input with
  | none => .error (.Error (.Io .UnexpectedEof))
  | some (len_buf, input) => .ok (ofBe len_buf, input)

theorem read_message_len_be (n : Nat) (rest : Bytes) : read_message_len (be 4 n ++ rest) = .ok (n % 2 ^ 32, rest) := by
  have hread := readExact_append (be 4 n) rest
  rw [length_be] at hread
  rw [read_message_len, hread]
  have hpow : 256 ^ 4 = 2 ^ 32 := by decide
  dsimp only
  rw [ofBe_be, hpow]

theorem read_message_shrinks {input input' rest message : Bytes} {n : Nat}
    (h : read_message_len input = .ok (n, input')) (h' : readExact n input' = some (message, rest)) :
    rest.length < input.length := by
  unfold read_message_len at h
  split at h
  · cases h
  · rename_i len_buf mid hlen
    cases h
    obtain ⟨rfl, hlen⟩ := readExact_eq_some hlen
    obtain ⟨rfl, -⟩ := readExact_eq_some h'
    simp only [List.length_append]; omega

variable (kafka : KafkaCodec)

/-- The start of a message: its api version, the version of its header, the
header, and what is behind it. -/
def read_header (buffer : Bytes) : Except Fault (Int × Int × RequestHeader × Bytes) :=
  match peek_i16 buffer 0 with
  | none => .error .Panic
  | some api_key =>
    match peek_i16 buffer 2 with
    | none => .error .Panic
    | some api_version =>
      match kafka.try_from api_key with
      | none => .error (.Error .Decode)
      | some api_key =>
        let header_version := kafka.request_header_version api_key api_version
        match kafka.request_header.decode header_version buffer with
        | none => .error (.Error .Decode)
        | some (header, buffer) => .ok (api_version, header_version, header, buffer)

theorem read_header_eq_ok {buffer rest : Bytes} {api_version header_version : Int} {header : RequestHeader} :
    read_header kafka buffer = .ok (api_version, header_version, header, rest) ↔
      ∃ peeked api_key, peek_i16 buffer 0 = some peeked ∧ peek_i16 buffer 2 = some api_version ∧
        kafka.try_from peeked = some api_key ∧ kafka.request_header_version api_key api_version = header_version ∧
        kafka.request_header.decode header_version buffer = some (header, rest) := by
  constructor
  · intro h
    unfold read_header at h
    split at h
    · cases h
    rename_i peeked hpeeked
    split at h
    · cases h
    rename_i version hversion
    split at h
    · cases h
    rename_i api_key hkey
    dsimp only at h
    split at h
    · cases h
    rename_i hdecode
    cases h
    exact ⟨peeked, api_key, hpeeked, hversion, hkey, rfl, hdecode⟩
  · rintro ⟨peeked, api_key, hpeeked, hversion, hkey, rfl, hdecode⟩
    simp only [read_header, hpeeked, hversion, hkey, hdecode]

/-- What the handlers decode. -/
def read_request (header : RequestHeader) (buffer : Bytes) : KafkaRequest :=
  match kafka.try_from header.request_api_key with
  | some .Produce => .Produce ((kafka.produce_request.decode header.request_api_version buffer).map Prod.fst)
  | some .OffsetCommit =>
    .OffsetCommit ((kafka.offset_commit_request.decode header.request_api_version buffer).map Prod.fst)
  | some .Fetch => .Fetch ((kafka.fetch_request.decode header.request_api_version buffer).map Prod.fst)
  | some .OffsetFetch =>
    .OffsetFetch ((kafka.offset_fetch_request.decode header.request_api_version buffer).map Prod.fst)
  | _ => .NotCovered

def response_size (version : Int) : KafkaResponse → Option Nat
  | .Fetch response => kafka.fetch_response.compute_size version response
  | .OffsetFetch response => kafka.offset_fetch_response.compute_size version response

def encode_response (version : Int) : KafkaResponse → Bytes
  | .Fetch response => (kafka.fetch_response.encode version response).1
  | .OffsetFetch response => (kafka.offset_fetch_response.encode version response).1

/-- The response buffer. `size` is what the header was counted with already, at
the version of the request's header; it is counted again at its own. -/
def respond (size : Nat) (api_version : Int) (header : RequestHeader) (response : KafkaResponse) :
    Except Fault Bytes :=
  let response_header : ResponseHeader := ⟨header.correlation_id⟩
  match kafka.response_header.compute_size 1 response_header with
  | none => .error (.Error .ComputeSize)
  | some header_size =>
    match response_size kafka header.request_api_version response with
    | none => .error (.Error .ComputeSize)
    | some body_size =>
      .ok (be 4 (size + header_size + body_size) ++ (kafka.response_header.encode 1 response_header).1 ++
        encode_response kafka api_version response)

variable [DecidableEq σ] (ipc : ArrowIpc σ ρ) (json : OffsetJson)

/-- One pass of the loop, on a message that was read: the bytes it writes. -/
def handle_message (server : Server σ ρ) (message : Bytes) : Except Fault Bytes × Server σ ρ :=
  match read_header kafka message with
  | .error e => (.error e, server)
  | .ok (api_version, header_version, header, buffer) =>
    match kafka.response_header.compute_size header_version ⟨header.correlation_id⟩ with
    | none => (.error (.Error .ComputeSize), server)
    | some size =>
      match server.handle_kafka_request ipc json (read_request kafka header buffer) with
      | (.error e, server) => (.error (.Error e), server)
      | (.ok none, server) => (.ok [], server)
      | (.ok (some response), server) => (respond kafka size api_version header response, server)

/-- The loop of the connection, with `handle` for a pass: how it ends, what it has
written by then, and the server it leaves. -/
def connection_loop (handle : Server σ ρ → Bytes → Except Fault Bytes × Server σ ρ) (server : Server σ ρ)
    (input : Bytes) : Except Fault Unit × Bytes × Server σ ρ :=
  match h : read_message_len input with
  | .error e => (.error e, [], server)
  | .ok (msg_len, input) =>
    match h' : readExact msg_len input with
    -- a message that is cut short is logged, and the loop ends
    | none => (.ok (), [], server)
    | some (message, input) =>
      match handle server message with
      | (.error e, server) => (.error e, [], server)
      | (.ok response, server) =>
        have := read_message_shrinks h h'
        let (result, output, server) := connection_loop handle server input
        (result, response ++ output, server)
termination_by input.length

def handle_kafka_connection (server : Server σ ρ) (input : Bytes) : Except Fault Unit × Bytes × Server σ ρ :=
  connection_loop (handle_message kafka ipc json) server input

omit [DecidableEq σ] in
theorem connection_loop_read (handle : Server σ ρ → Bytes → Except Fault Bytes × Server σ ρ) (server : Server σ ρ)
    {input input' message rest : Bytes} {msg_len : Nat} (hlen : read_message_len input = .ok (msg_len, input'))
    (hread : readExact msg_len input' = some (message, rest)) :
    connection_loop handle server input =
      match handle server message with
      | (.error e, server) => (.error e, [], server)
      | (.ok response, server) =>
        let (result, output, server) := connection_loop handle server rest
        (result, response ++ output, server) := by
  rw [connection_loop]
  split
  · rename_i e h
    rw [hlen] at h; cases h
  · rename_i n input h
    rw [hlen] at h; cases h
    split
    · rename_i h'
      rw [hread] at h'; cases h'
    · rename_i message' input' h'
      rw [hread] at h'; cases h'
      rfl

/-- A message that is read off the input, and the input behind it. -/
theorem handle_kafka_connection_read (server : Server σ ρ) {input input' message rest : Bytes} {msg_len : Nat}
    (hlen : read_message_len input = .ok (msg_len, input')) (hread : readExact msg_len input' = some (message, rest)) :
    handle_kafka_connection kafka ipc json server input =
      match handle_message kafka ipc json server message with
      | (.error e, server) => (.error e, [], server)
      | (.ok response, server) =>
        let (result, output, server) := handle_kafka_connection kafka ipc json server rest
        (result, response ++ output, server) :=
  connection_loop_read (handle_message kafka ipc json) server hlen hread

/-- Whatever a message is, the server does what it does for some request, or nothing. -/
theorem handle_message_snd (server : Server σ ρ) (message : Bytes) :
    (handle_message kafka ipc json server message).2 = server ∨
      ∃ request, (handle_message kafka ipc json server message).2 = (server.handle_kafka_request ipc json request).2 := by
  unfold handle_message
  split
  · exact .inl rfl
  rename_i header buffer _
  split
  · exact .inl rfl
  refine .inr ⟨read_request kafka header buffer, ?_⟩
  split <;> rename_i h <;> rw [h]

/-- Whatever bytes arrive on the connection, the server is left as some requests
leave it. -/
theorem handle_kafka_connection_refines (server : Server σ ρ) (input : Bytes) :
    ∃ requests : List KafkaRequest, (handle_kafka_connection kafka ipc json server input).2.2 =
      requests.foldl (fun server request => (server.handle_kafka_request ipc json request).2) server := by
  induction hn : input.length using Nat.strongRecOn generalizing server input with
  | _ n ih =>
    rw [handle_kafka_connection, connection_loop]
    split
    · exact ⟨[], rfl⟩
    rename_i msg_len input' hlen
    split
    · exact ⟨[], rfl⟩
    rename_i message rest hread
    have hsnd := handle_message_snd kafka ipc json server message
    split
    · rename_i e server' hmsg
      rw [hmsg] at hsnd
      rcases hsnd with rfl | ⟨request, rfl⟩
      · exact ⟨[], rfl⟩
      · exact ⟨[request], rfl⟩
    · rename_i response server' hmsg
      rw [hmsg] at hsnd
      obtain ⟨requests, hrest⟩ := ih rest.length (hn ▸ read_message_shrinks hlen hread) server' rest rfl
      rcases hsnd with rfl | ⟨request, rfl⟩
      · exact ⟨requests, hrest⟩
      · exact ⟨request :: requests, hrest⟩

/-- A message behind its length. -/
def framed (message : Bytes) : Bytes := be 4 message.length ++ message

theorem handle_kafka_connection_framed (server : Server σ ρ) {message : Bytes} (hlen : message.length < 2 ^ 32)
    (rest : Bytes) :
    handle_kafka_connection kafka ipc json server (framed message ++ rest) =
      match handle_message kafka ipc json server message with
      | (.error e, server) => (.error e, [], server)
      | (.ok response, server) =>
        let (result, output, server) := handle_kafka_connection kafka ipc json server rest
        (result, response ++ output, server) := by
  have hmsg := read_message_len_be message.length (message ++ rest)
  rw [← List.append_assoc, Nat.mod_eq_of_lt hlen] at hmsg
  exact handle_kafka_connection_read kafka ipc json server hmsg (readExact_append message rest)

end Connection
end herbert
