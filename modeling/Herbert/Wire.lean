import Herbert.Server
import Herbert.Lib.Codec
/-!
# Messages as bytes

The encoders and decoders of `kafka_protocol` are a parameter `KafkaCodec`, with
the headers, the four requests and the two responses that are sent. A version
picks the format. `KafkaCodec.Lawful` is what is documented of them.

`pocketKafka` has the formats of the versions that the client uses, with the
defaults in the fields the model leaves out.
-/
open Lib Lib.Bytes

namespace herbert

inductive ApiKey where
  | Produce
  | Fetch
  | OffsetCommit
  | OffsetFetch
  | Other (key : Int)
deriving DecidableEq, Repr

structure RequestHeader where
  request_api_key : Int
  request_api_version : Int
  correlation_id : Int
  client_id : Option String
deriving DecidableEq, Repr

structure ResponseHeader where
  correlation_id : Int
deriving DecidableEq, Repr

/-- The encoder and decoder of a message. -/
structure Message (α : Type) where
  /-- `compute_size(version)`; `none` is an error. -/
  compute_size : Int → α → Option Nat
  /-- What `encode(version)` appends to the buffer, and whether it succeeds. -/
  encode : Int → α → Bytes × Bool
  /-- `decode(version)` off the front of the buffer; `none` is an error. -/
  decode : Int → Bytes → Option (α × Bytes)

structure KafkaCodec where
  /-- `ApiKey::try_from` -/
  try_from : Int → Option ApiKey
  request_header_version : ApiKey → Int → Int
  request_header : Message RequestHeader
  produce_request : Message ProduceRequest
  fetch_request : Message FetchRequest
  offset_fetch_request : Message OffsetFetchRequest
  offset_commit_request : Message OffsetCommitRequest
  response_header : Message ResponseHeader
  fetch_response : Message FetchResponse
  offset_fetch_response : Message OffsetFetchResponse

namespace Message

variable {α : Type}

/-- The version is one that is decoded. -/
def Supports (m : Message α) (version : Int) : Prop := ∃ buffer, m.decode version buffer ≠ none

/-- The size is the number of bytes encoded, and these are decoded, whatever
follows. -/
structure Lawful (m : Message α) (version : Int) : Prop where
  size : ∀ a n, m.compute_size version a = some n → (m.encode version a).1.length = n
  round_trip : ∀ a n rest, m.compute_size version a = some n →
    m.decode version ((m.encode version a).1 ++ rest) = some (a, rest)

/-- The message with these formats. -/
def of (c : Int → Codec α) : Message α where
  compute_size version a := ((c version).put a).map List.length
  encode version a := (((c version).put a).getD [], ((c version).put a).isSome)
  decode version buffer := (c version).get buffer

/-- The size is counted on what is encoded. -/
theorem size_of {c : Int → Codec α} {version : Int} {a : α} {n : Nat} (h : (of c).compute_size version a = some n) :
    ((of c).encode version a).1.length = n := by
  obtain ⟨w, hw, rfl⟩ := Option.map_eq_some_iff.1 h
  simp [of, hw]

theorem lawful_of {c : Int → Codec α} {version : Int} (hc : (c version).Lawful) : (of c).Lawful version where
  size _ _ h := size_of h
  round_trip a n rest h := by
    obtain ⟨w, hw, -⟩ := Option.map_eq_some_iff.1 h
    simpa [of, hw] using hc a w rest hw

end Message

/-- `buffer.peek_bytes(start..start + 2).get_i16()`; a range past the end panics. -/
def peek_i16 (buffer : Bytes) (start : Nat) : Option Int :=
  ((Codec.int 2).get (buffer.drop start)).map Prod.fst

/-- A request header starts with its key and version. A response header is a
correlation id, in later versions with an empty section of tagged fields. A
response has the versions of its request. -/
structure KafkaCodec.Lawful (kafka : KafkaCodec) : Prop where
  request_header_front : ∀ version buffer header rest,
    kafka.request_header.decode version buffer = some (header, rest) →
      peek_i16 buffer 0 = some header.request_api_key ∧ peek_i16 buffer 2 = some header.request_api_version
  response_header : kafka.response_header.Lawful 1
  response_header_size : ∀ version header n,
    kafka.response_header.compute_size version header = some n → n = 4 ∨ n = 5
  fetch_response : ∀ version, kafka.fetch_request.Supports version → kafka.fetch_response.Lawful version
  offset_fetch_response : ∀ version,
    kafka.offset_fetch_request.Supports version → kafka.offset_fetch_response.Lawful version

/-! ## The formats of the client's versions -/

namespace Format

open Lib.Codec

def text : Codec String := required (nullableText (len 2))
def compactText : Codec String := required (nullableText compactLen)
def array {α : Type} (c : Codec α) : Codec (List α) := required (nullableArray (len 4) c)
def compactArray {α : Type} (c : Codec α) : Codec (List α) := required (nullableArray compactLen c)

/-- The client id comes with version 1, the tagged fields with version 2. -/
def request_header (version : Int) : Codec RequestHeader :=
  if version < 1 then never
  else (trail ((int 2).seq ((int 2).seq ((int 4).seq (nullableText (len 2))))) (if 2 ≤ version then [0] else [])).via
    (fun x => some ⟨x.1, x.2.1, x.2.2.1, x.2.2.2⟩)
    fun h => some (h.request_api_key, h.request_api_version, h.correlation_id, h.client_id)

def response_header (version : Int) : Codec ResponseHeader :=
  (trail (int 4) (if 1 ≤ version then [0] else [])).via (fun i => some ⟨i⟩) fun h => some h.correlation_id

def produce_request (version : Int) : Codec ProduceRequest :=
  if version ≠ 9 then never
  else
    -- index, records
    let partition := trail (lead [0, 0, 0, 0] (nullableBytes compactLen)) [0]
    let topic := trail (compactText.seq (compactArray (partition.via (fun r => some ⟨r⟩) fun p => some p.records))) [0]
    -- no transactional_id, acks, timeout_ms, topic_data
    (trail (lead [0, 0, 0, 0, 0, 0, 0] (compactArray (topic.via (fun x => some ⟨x.1, x.2⟩) fun t =>
      some (t.name, t.partition_data)))) [0]).via (fun x => some ⟨x⟩) fun r => some r.topic_data

/-- The version has no `max_bytes`, which is decoded as its default. -/
def fetch_request (version : Int) : Codec FetchRequest :=
  if version ≠ 1 then never
  else
    -- partition, fetch_offset, partition_max_bytes
    let partition := trail (lead [0, 0, 0, 0] (int 8)) [0, 0, 0, 0]
    let topic := text.seq (array (partition.via (fun i => some ⟨i⟩) fun p => some p.fetch_offset))
    -- replica_id -1, max_wait_ms, min_bytes, topics
    (lead [0xFF, 0xFF, 0xFF, 0xFF, 0, 0, 0, 0, 0, 0, 0, 0] (array (topic.via (fun x => some ⟨x.1, x.2⟩) fun t =>
      some (t.topic, t.partitions)))).via (fun x => some ⟨0x7FFFFFFF, x⟩) fun r => some r.topics

def offset_fetch_request (version : Int) : Codec OffsetFetchRequest :=
  if version ≠ 6 then never
  else
    -- name, no partition_indexes
    let topic := (trail compactText [1, 0]).via (fun s => some ⟨s⟩) fun t => some t.name
    (trail (compactText.seq (nullableArray compactLen topic)) [0]).via (fun x => some ⟨x.1, x.2⟩) fun r =>
      some (r.group_id, r.topics)

def offset_commit_request (version : Int) : Codec OffsetCommitRequest :=
  if version ≠ 9 then never
  else
    -- partition_index, committed_offset, committed_leader_epoch -1, empty committed_metadata
    let partition := trail (lead [0, 0, 0, 0] (int 8)) [0xFF, 0xFF, 0xFF, 0xFF, 1, 0]
    let topic := trail (compactText.seq (compactArray (partition.via (fun i => some ⟨i⟩) fun p =>
      some p.committed_offset))) [0]
    -- group_id, generation_id -1, empty member_id, no group_instance_id, topics
    (trail ((trail compactText [0xFF, 0xFF, 0xFF, 0xFF, 1, 0]).seq
      (compactArray (topic.via (fun x => some ⟨x.1, x.2⟩) fun t => some (t.name, t.partitions)))) [0]).via
      (fun x => some ⟨x.1, x.2⟩) fun r => some (r.group_id, r.topics)

def fetch_response (version : Int) : Codec FetchResponse :=
  if version ≠ 1 then never
  else
    -- partition_index, error_code, high_watermark, records
    let partition := lead (List.replicate 14 0) (nullableBytes (len 4))
    -- empty topic, partitions
    let topic := lead [0, 0] (array (partition.via (fun r => some ⟨r⟩) fun p => some p.records))
    -- throttle_time_ms, responses
    (lead [0, 0, 0, 0] (array (topic.via (fun x => some ⟨x⟩) fun t => some t.partitions))).via (fun x => some ⟨x⟩)
      fun r => some r.responses

def offset_fetch_response (version : Int) : Codec OffsetFetchResponse :=
  if version ≠ 6 then never
  else
    -- partition_index, committed_offset, committed_leader_epoch -1, empty metadata, error_code
    let partition := trail (lead [0, 0, 0, 0] (int 8)) [0xFF, 0xFF, 0xFF, 0xFF, 1, 0, 0, 0]
    let topic := trail (compactText.seq (compactArray (partition.via (fun i => some ⟨i⟩) fun p =>
      some p.committed_offset))) [0]
    -- throttle_time_ms, topics, error_code
    (trail (lead [0, 0, 0, 0] (compactArray (topic.via (fun x => some ⟨x.1, x.2⟩) fun t =>
      some (t.name, t.partitions)))) [0, 0, 0]).via (fun x => some ⟨x⟩) fun r => some r.topics

theorem lawful_compactText : compactText.Lawful := lawful_compactLen.nullableText.required

theorem lawful_array {α : Type} {c : Codec α} (hc : c.Lawful) : (array c).Lawful :=
  ((lawful_len 4).nullableArray hc).required

theorem lawful_compactArray {α : Type} {c : Codec α} (hc : c.Lawful) : (compactArray c).Lawful :=
  (lawful_compactLen.nullableArray hc).required

theorem request_header_front {version : Int} {buffer rest : Bytes} {header : RequestHeader}
    (h : (request_header version).get buffer = some (header, rest)) :
    peek_i16 buffer 0 = some header.request_api_key ∧ peek_i16 buffer 2 = some header.request_api_version := by
  unfold request_header at h
  split at h
  · cases h
  obtain ⟨x, hx, heq⟩ := get_via h
  obtain ⟨y, hy, hxy⟩ := get_via hx
  cases heq; cases hxy
  obtain ⟨_, hy, -⟩ := get_seq hy
  obtain ⟨_, hkey, hy⟩ := get_seq hy
  obtain ⟨_, hversion, -⟩ := get_seq hy
  cases get_int hkey
  exact ⟨by simp [peek_i16, hkey], by simp [peek_i16, hversion]⟩

theorem length_response_header {version : Int} {header : ResponseHeader} {w : Bytes}
    (h : (response_header version).put header = some w) : w.length = 4 ∨ w.length = 5 := by
  simp only [response_header, via, Option.bind_some, put_trail] at h
  obtain ⟨b, hb, rfl⟩ := Option.map_eq_some_iff.1 h
  rw [List.length_append, length_put_int hb]
  split
  · exact .inr rfl
  · exact .inl rfl

theorem lawful_response_header (version : Int) : (response_header version).Lawful := by
  refine ((lawful_int 4).trail _).via fun i h hi => ?_
  cases hi; rfl

theorem lawful_produce_request (version : Int) : (produce_request version).Lawful := by
  unfold produce_request
  split
  · exact lawful_never
  refine (((lawful_compactArray (((lawful_compactText.seq (lawful_compactArray ((((lawful_compactLen.nullableBytes).lead
    _).trail _).via ?_))).trail _).via ?_)).lead _).trail _).via ?_
  all_goals
    intro a b h
    cases h; rfl

theorem lawful_fetch_response (version : Int) : (fetch_response version).Lawful := by
  unfold fetch_response
  split
  · exact lawful_never
  refine ((lawful_array (((lawful_array ((((lawful_len 4).nullableBytes).lead _).via ?_)).lead _).via ?_)).lead _).via ?_
  all_goals
    intro a b h
    cases h; rfl

theorem lawful_offset_fetch_response (version : Int) : (offset_fetch_response version).Lawful := by
  unfold offset_fetch_response
  split
  · exact lawful_never
  refine (((lawful_compactArray (((lawful_compactText.seq
    (lawful_compactArray ((((lawful_int 8).lead _).trail _).via ?_))).trail _).via ?_)).lead _).trail _).via ?_
  all_goals
    intro a b h
    cases h; rfl

end Format

def pocketKafka : KafkaCodec where
  try_from
    | 0 => some .Produce
    | 1 => some .Fetch
    | 8 => some .OffsetCommit
    | 9 => some .OffsetFetch
    | _ => none
  request_header_version
    | .Produce, version => if 9 ≤ version then 2 else 1
    | .Fetch, version => if 12 ≤ version then 2 else 1
    | .OffsetCommit, version => if 8 ≤ version then 2 else 1
    | .OffsetFetch, version => if 6 ≤ version then 2 else 1
    | .Other _, _ => 1
  request_header := .of Format.request_header
  produce_request := .of Format.produce_request
  fetch_request := .of Format.fetch_request
  offset_fetch_request := .of Format.offset_fetch_request
  offset_commit_request := .of Format.offset_commit_request
  response_header := .of Format.response_header
  fetch_response := .of Format.fetch_response
  offset_fetch_response := .of Format.offset_fetch_response

theorem pocketKafka_lawful : pocketKafka.Lawful where
  request_header_front _ _ _ _ h := Format.request_header_front h
  response_header := Message.lawful_of (Format.lawful_response_header 1)
  response_header_size _ _ _ h := by
    obtain ⟨w, hw, rfl⟩ := Option.map_eq_some_iff.1 h
    exact Format.length_response_header hw
  fetch_response version _ := Message.lawful_of (Format.lawful_fetch_response version)
  offset_fetch_response version _ := Message.lawful_of (Format.lawful_offset_fetch_response version)

end herbert
