import Herbert.Client
import Herbert.Connection
/-!
# The frames of the requests

`create_buffer` encodes the header at the version of the request, and the server
decodes it at `request_header_version`. A header has one format at version 1 and
another one, with tagged fields, from version 2 on. So a request is read back
exactly if its version is 1 or one of the flexible ones, for which the header is
decoded at version 2 (`read_back_iff`). The client's own versions are such.
-/
open Lib Lib.Bytes

namespace herbert

/-- A message to encode, its type being forgotten. -/
structure Encodable where
  compute_size : Int → Option Nat
  encode : Int → Bytes × Bool

def Message.encodable {α : Type} (m : Message α) (a : α) : Encodable where
  compute_size version := m.compute_size version a
  encode version := m.encode version a

namespace Client

def create_request_header (request_api_key request_api_version : Int) : RequestHeader :=
  ⟨request_api_key, request_api_version, 0, some ""⟩

/-- The size goes into 32 bits. -/
def create_buffer (kafka : KafkaCodec) (header : RequestHeader) (request : Encodable) : Except HerbertError Bytes :=
  let version := header.request_api_version
  match kafka.request_header.compute_size version header with
  | none => .error .ComputeSize
  | some header_size =>
    match request.compute_size version with
    | none => .error .ComputeSize
    | some request_size =>
      if !(kafka.request_header.encode version header).2 then .error .Encode
      else if !(request.encode version).2 then .error .Encode
      else .ok (be 4 (header_size + request_size) ++ (kafka.request_header.encode version header).1 ++
        (request.encode version).1)

end Client

/-- The requests the client sends. -/
inductive ClientRequest where
  | Produce (request : ProduceRequest)
  | Fetch (request : FetchRequest)
  | OffsetFetch (request : OffsetFetchRequest)
  | OffsetCommit (request : OffsetCommitRequest)

def ClientRequest.api_key : ClientRequest → ApiKey
  | .Produce _ => .Produce
  | .Fetch _ => .Fetch
  | .OffsetFetch _ => .OffsetFetch
  | .OffsetCommit _ => .OffsetCommit

/-- The first flexible version of the request. -/
def ClientRequest.flexible_from : ClientRequest → Int
  | .Produce _ => 9
  | .Fetch _ => 12
  | .OffsetFetch _ => 6
  | .OffsetCommit _ => 8

/-- The version the client sends the request at. -/
def ClientRequest.client_version : ClientRequest → Int
  | .Produce _ => 9
  | .Fetch _ => 1
  | .OffsetFetch _ => 6
  | .OffsetCommit _ => 9

def ClientRequest.encodable (kafka : KafkaCodec) : ClientRequest → Encodable
  | .Produce request => kafka.produce_request.encodable request
  | .Fetch request => kafka.fetch_request.encodable request
  | .OffsetFetch request => kafka.offset_fetch_request.encodable request
  | .OffsetCommit request => kafka.offset_commit_request.encodable request

namespace Requests

open Client Connection

/-- A message is as long as its size. A request header has the client id from
version 1 on, which takes two bytes at least, and tagged fields from version 2 on;
what is decoded from some bytes is encoded in as many or fewer. -/
structure LawfulRequests (kafka : KafkaCodec) : Prop where
  request_header_front : ∀ version buffer header rest,
    kafka.request_header.decode version buffer = some (header, rest) →
      peek_i16 buffer 0 = some header.request_api_key ∧ peek_i16 buffer 2 = some header.request_api_version
  request_header_size : ∀ version header n,
    kafka.request_header.compute_size version header = some n →
      (kafka.request_header.encode version header).1.length = n
  request_header : ∀ version, 1 ≤ version → kafka.request_header.Lawful version
  decoded_size : ∀ version, 1 ≤ version → ∀ buffer header rest,
    kafka.request_header.decode version buffer = some (header, rest) →
      ∃ n, kafka.request_header.compute_size version header = some n ∧ n + rest.length ≤ buffer.length
  client_id : ∀ version < 1, ∀ header n n₁,
    kafka.request_header.compute_size version header = some n →
      kafka.request_header.compute_size 1 header = some n₁ → n + 2 ≤ n₁
  tagged_fields : ∀ version, 2 ≤ version → ∀ header n,
    kafka.request_header.compute_size version header = some n →
      ∃ n₁ tagged, kafka.request_header.compute_size 1 header = some n₁ ∧ tagged ≠ [] ∧
        (kafka.request_header.encode version header).1 = (kafka.request_header.encode 1 header).1 ++ tagged
  last_version : ∀ version, 2 ≤ version → ∀ header,
    kafka.request_header.compute_size version header = kafka.request_header.compute_size 2 header ∧
      kafka.request_header.encode version header = kafka.request_header.encode 2 header
  request_header_version : ∀ (request : ClientRequest) version,
    kafka.request_header_version request.api_key version = if request.flexible_from ≤ version then 2 else 1
  request_size : ∀ (request : ClientRequest) version n,
    (request.encodable kafka).compute_size version = some n → ((request.encodable kafka).encode version).1.length = n

variable {kafka : KafkaCodec}

/-- The server reads the message off the input: it finds the header, `body` is what
is left for the handler, and `rest` the input behind the message. -/
def ReadBack (kafka : KafkaCodec) (input : Bytes) (header : RequestHeader) (body rest : Bytes) : Prop :=
  ∃ n input' message header_version, read_message_len input = .ok (n, input') ∧
    readExact n input' = some (message, rest) ∧
    read_header kafka message = .ok (header.request_api_version, header_version, header, body)

theorem create_buffer_ok {header : RequestHeader} {request : Encodable} {buffer : Bytes}
    (h : create_buffer kafka header request = .ok buffer) :
    ∃ header_size request_size,
      kafka.request_header.compute_size header.request_api_version header = some header_size ∧
      request.compute_size header.request_api_version = some request_size ∧
      buffer = be 4 (header_size + request_size) ++
        ((kafka.request_header.encode header.request_api_version header).1 ++
          (request.encode header.request_api_version).1) := by
  unfold create_buffer at h
  dsimp only at h
  split at h
  · cases h
  rename_i header_size hheader
  split at h
  · cases h
  rename_i request_size hrequest
  split at h
  · cases h
  split at h
  · cases h
  cases h
  exact ⟨header_size, request_size, hheader, hrequest, List.append_assoc ..⟩

/-- A message behind its length is read off as it is exactly if the length fits. -/
theorem read_back_message {n : Nat} {message : Bytes} (hn : message.length = n) (header : RequestHeader)
    (body rest : Bytes) :
    ReadBack kafka (be 4 n ++ message ++ rest) header body rest ↔
      n < 2 ^ 32 ∧ ∃ header_version,
        read_header kafka message = .ok (header.request_api_version, header_version, header, body) := by
  have hlen := read_message_len_be n (message ++ rest)
  rw [← List.append_assoc] at hlen
  constructor
  · rintro ⟨k, input', message', header_version, hk, hread, hheader⟩
    rw [hlen] at hk
    cases hk
    obtain ⟨happ, hmessage'⟩ := readExact_eq_some hread
    obtain rfl := List.append_cancel_right happ
    rw [hn] at hmessage'
    have : n % 2 ^ 32 < 2 ^ 32 := Nat.mod_lt n (by decide)
    exact ⟨by omega, header_version, hheader⟩
  · rintro ⟨hlt, header_version, hheader⟩
    refine ⟨n, message ++ rest, message, header_version, ?_, hn ▸ readExact_append message rest, hheader⟩
    rw [hlen, Nat.mod_eq_of_lt hlt]

/-! ## The header -/

/-- With its tagged fields the header gets longer. -/
theorem tagged_size (hk : LawfulRequests kafka) {header : RequestHeader} {version : Int} (hv : 2 ≤ version) {n : Nat}
    (hn : kafka.request_header.compute_size version header = some n) :
    ∃ n₁, kafka.request_header.compute_size 1 header = some n₁ ∧ n₁ < n := by
  obtain ⟨n₁, tagged, hn₁, htagged, hencode⟩ := hk.tagged_fields version hv header n hn
  refine ⟨n₁, hn₁, ?_⟩
  have hlen := congrArg List.length hencode
  rw [List.length_append, hk.request_header_size _ _ _ hn, hk.request_header_size _ _ _ hn₁] at hlen
  have := List.length_pos_iff.2 htagged
  omega

/-- A header is decoded exactly at a version with the format it is encoded in. -/
theorem decode_header_iff (hk : LawfulRequests kafka) {header : RequestHeader} {version header_version : Int} {n : Nat}
    (hn : kafka.request_header.compute_size version header = some n) (hv : header_version = 1 ∨ header_version = 2)
    (body : Bytes) :
    kafka.request_header.decode header_version ((kafka.request_header.encode version header).1 ++ body) =
        some (header, body) ↔
      (version = 1 ∧ header_version = 1) ∨ (2 ≤ version ∧ header_version = 2) := by
  have hlen := hk.request_header_size _ _ _ hn
  constructor
  · intro h
    obtain ⟨m, hm, hle⟩ := hk.decoded_size header_version (by omega) _ _ _ h
    rw [List.length_append, hlen] at hle
    -- at version 1 the header takes as many bytes as the decoder reads, or fewer
    obtain ⟨n₁, hn₁, hle₁⟩ : ∃ n₁, kafka.request_header.compute_size 1 header = some n₁ ∧ n₁ ≤ m := by
      rcases hv with rfl | rfl
      · exact ⟨m, hm, Nat.le_refl m⟩
      · obtain ⟨n₁, hn₁, hlt⟩ := tagged_size hk (by decide) hm
        exact ⟨n₁, hn₁, hlt.le⟩
    rcases Int.lt_trichotomy version 1 with hlt | rfl | hgt
    · have := hk.client_id version hlt header n n₁ hn hn₁
      omega
    · rcases hv with rfl | rfl
      · exact .inl ⟨rfl, rfl⟩
      · obtain ⟨n', hn', hlt⟩ := tagged_size hk (by decide) hm
        rw [hn] at hn'
        cases hn'
        omega
    · refine .inr ⟨by omega, hv.resolve_left ?_⟩
      rintro rfl
      -- the tagged fields are left in front of the body
      obtain ⟨n₁, tagged, hn₁, htagged, hencode⟩ := hk.tagged_fields version (by omega) header n hn
      rw [hencode, List.append_assoc, (hk.request_header 1 (by decide)).round_trip _ _ _ hn₁] at h
      simp only [Option.some.injEq, Prod.mk.injEq, List.append_left_eq_self, true_and] at h
      exact htagged h
  · rintro (⟨rfl, rfl⟩ | ⟨hge, rfl⟩)
    · exact (hk.request_header 1 (by decide)).round_trip _ _ _ hn
    · obtain ⟨hsize, hencode⟩ := hk.last_version version hge header
      rw [hencode]
      exact (hk.request_header 2 (by decide)).round_trip _ _ _ (hsize ▸ hn)

/-- The header of a request is read exactly if the version is 1 or a flexible one. -/
theorem read_request_header_iff (hk : LawfulRequests kafka) {header : RequestHeader} {request : ClientRequest}
    (hkey : kafka.try_from header.request_api_key = some request.api_key) {n : Nat}
    (hn : kafka.request_header.compute_size header.request_api_version header = some n) (body : Bytes) :
    (∃ header_version, read_header kafka
        ((kafka.request_header.encode header.request_api_version header).1 ++ body) =
          .ok (header.request_api_version, header_version, header, body)) ↔
      header.request_api_version = 1 ∨ request.flexible_from ≤ header.request_api_version := by
  have hflexible : 2 ≤ request.flexible_from := by cases request <;> simp [ClientRequest.flexible_from]
  have hversion := hk.request_header_version request header.request_api_version
  have hone : kafka.request_header_version request.api_key header.request_api_version = 1 ∨
      kafka.request_header_version request.api_key header.request_api_version = 2 := by
    rw [hversion]
    split
    · exact .inr rfl
    · exact .inl rfl
  have hdecode := decode_header_iff hk hn hone body
  constructor
  · rintro ⟨header_version, h⟩
    obtain ⟨peeked, api_key, hpeeked, -, hapi, rfl, h⟩ := (read_header_eq_ok kafka).1 h
    have hfront := (hk.request_header_front _ _ _ _ h).1
    rw [hpeeked] at hfront
    cases hfront
    rw [hkey] at hapi
    cases hapi
    rcases hdecode.1 h with ⟨hv, -⟩ | ⟨-, hv⟩
    · exact .inl hv
    · rw [hversion] at hv
      split at hv
      · exact .inr ‹_›
      · exact absurd hv (by decide)
  · intro hv
    have h := hdecode.2 (by
      rcases hv with hv | hv
      · exact .inl ⟨hv, by rw [hversion, if_neg (by omega)]⟩
      · exact .inr ⟨by omega, by rw [hversion, if_pos hv]⟩)
    obtain ⟨hpeeked, hpeeked'⟩ := hk.request_header_front _ _ _ _ h
    exact ⟨_, (read_header_eq_ok kafka).2 ⟨_, _, hpeeked, hpeeked', hkey, rfl, h⟩⟩

/-- A request of these sizes is read back exactly if its header is decoded in the
format it has and its length fits. -/
theorem read_back_sizes (hk : LawfulRequests kafka) {header : RequestHeader} {request : ClientRequest}
    (hkey : kafka.try_from header.request_api_key = some request.api_key) {header_size request_size : Nat}
    (hheader : kafka.request_header.compute_size header.request_api_version header = some header_size)
    (hrequest : (request.encodable kafka).compute_size header.request_api_version = some request_size) (rest : Bytes) :
    ReadBack kafka (be 4 (header_size + request_size) ++
        ((kafka.request_header.encode header.request_api_version header).1 ++
          ((request.encodable kafka).encode header.request_api_version).1) ++ rest) header
      ((request.encodable kafka).encode header.request_api_version).1 rest ↔
    (header.request_api_version = 1 ∨ request.flexible_from ≤ header.request_api_version) ∧
      header_size + request_size < 2 ^ 32 := by
  have hlen : ((kafka.request_header.encode header.request_api_version header).1 ++
      ((request.encodable kafka).encode header.request_api_version).1).length = header_size + request_size := by
    rw [List.length_append, hk.request_header_size _ _ _ hheader, hk.request_size _ _ _ hrequest]
  rw [read_back_message hlen, read_request_header_iff hk hkey hheader, and_comm]

/-- The length of the message fits its 32 bits. -/
def Fits (kafka : KafkaCodec) (header : RequestHeader) (request : Encodable) : Prop :=
  ∃ header_size request_size,
    kafka.request_header.compute_size header.request_api_version header = some header_size ∧
    request.compute_size header.request_api_version = some request_size ∧ header_size + request_size < 2 ^ 32

/-- A request is read back, with nothing left over and nothing missing, exactly if
it has version 1 or a flexible one and its length fits. -/
theorem read_back_iff (hk : LawfulRequests kafka) (header : RequestHeader) (request : ClientRequest)
    (hkey : kafka.try_from header.request_api_key = some request.api_key) (buffer : Bytes)
    (hbuffer : create_buffer kafka header (request.encodable kafka) = .ok buffer) (rest : Bytes) :
    ReadBack kafka (buffer ++ rest) header ((request.encodable kafka).encode header.request_api_version).1 rest ↔
      (header.request_api_version = 1 ∨ request.flexible_from ≤ header.request_api_version) ∧
        Fits kafka header (request.encodable kafka) := by
  obtain ⟨header_size, request_size, hheader, hrequest, rfl⟩ := create_buffer_ok hbuffer
  rw [read_back_sizes hk hkey hheader hrequest]
  refine and_congr_right fun _ => ⟨fun hlt => ⟨header_size, request_size, hheader, hrequest, hlt⟩, ?_⟩
  rintro ⟨_, _, hheader', hrequest', hlt⟩
  rw [hheader] at hheader'
  rw [hrequest] at hrequest'
  cases hheader'; cases hrequest'
  exact hlt

/-- The client's own requests are read back. -/
theorem client_request_read_back (hk : LawfulRequests kafka) {request_api_key : Int} {request : ClientRequest}
    (hkey : kafka.try_from request_api_key = some request.api_key) {buffer : Bytes}
    (hbuffer : create_buffer kafka (create_request_header request_api_key request.client_version)
      (request.encodable kafka) = .ok buffer)
    (hlen : buffer.length < 4 + 2 ^ 32) (rest : Bytes) :
    ReadBack kafka (buffer ++ rest) (create_request_header request_api_key request.client_version)
      ((request.encodable kafka).encode request.client_version).1 rest := by
  obtain ⟨header_size, request_size, hheader, hrequest, rfl⟩ := create_buffer_ok hbuffer
  rw [List.length_append, length_be, List.length_append, hk.request_header_size _ _ _ hheader,
    hk.request_size _ _ _ hrequest] at hlen
  refine (read_back_sizes hk hkey hheader hrequest rest).2 ⟨?_, by omega⟩
  cases request <;> simp [create_request_header, ClientRequest.client_version, ClientRequest.flexible_from]

/-! ## The formats of the client's versions -/

theorem request_header_of_le {version : Int} (hv : 2 ≤ version) :
    Format.request_header version = Format.request_header 2 := by
  simp only [Format.request_header, if_pos hv, if_neg (show ¬version < 1 by omega)]
  rfl

/-- The tagged fields are one byte. -/
theorem put_request_header (header : RequestHeader) :
    (Format.request_header 2).put header = ((Format.request_header 1).put header).map (· ++ [0]) := by
  simp [Format.request_header, Codec.via, Codec.put_trail]

theorem lawful_request_header (version : Int) : (Format.request_header version).Lawful := by
  unfold Format.request_header
  split
  · exact Codec.lawful_never
  refine ((((Codec.lawful_int 2).seq ((Codec.lawful_int 2).seq ((Codec.lawful_int 4).seq
    (Codec.lawful_len 2).nullableText))).trail _).via ?_)
  intro x header h
  cases h; rfl

theorem sized_request_header {version : Int} (hv : 1 ≤ version) : (Format.request_header version).Sized := by
  rw [Format.request_header, if_neg (by omega)]
  refine ((((Codec.sized_int 2).seq ((Codec.sized_int 2).seq ((Codec.sized_int 4).seq
    (Codec.sized_len 2).nullableText))).trail _).via ?_)
  intro x header h
  cases h; rfl

/-- The versions 0 to 2 have one format. -/
def early_fetch_request (version : Int) : Codec FetchRequest :=
  if 0 ≤ version ∧ version ≤ 2 then Format.fetch_request 1 else .never

def earlyFetch : KafkaCodec := { pocketKafka with fetch_request := .of early_fetch_request }

theorem earlyFetch_lawful : LawfulRequests earlyFetch where
  request_header_front _ _ _ _ h := Format.request_header_front h
  request_header_size version header n h := Message.size_of h
  request_header version _ := Message.lawful_of (lawful_request_header version)
  decoded_size version hv buffer header rest h := by
    obtain ⟨w, hw, hlen⟩ := sized_request_header hv header buffer rest h
    exact ⟨w.length, Option.map_eq_some_iff.2 ⟨w, hw, rfl⟩, hlen.ge⟩
  client_id version hv header n n₁ h _ := by
    obtain ⟨w, hw, -⟩ := Option.map_eq_some_iff.1 h
    rw [Format.request_header, if_pos hv] at hw
    cases hw
  tagged_fields version hv header n h := by
    obtain ⟨w, hw, -⟩ := Option.map_eq_some_iff.1 h
    rw [request_header_of_le hv, put_request_header] at hw
    obtain ⟨w₁, hw₁, rfl⟩ := Option.map_eq_some_iff.1 hw
    refine ⟨w₁.length, [0], Option.map_eq_some_iff.2 ⟨w₁, hw₁, rfl⟩, by simp, ?_⟩
    simp [earlyFetch, pocketKafka, Message.of, request_header_of_le hv, put_request_header, hw₁]
  last_version version hv header := by
    simp [earlyFetch, pocketKafka, Message.of, request_header_of_le hv]
  request_header_version request version := by cases request <;> rfl
  request_size request version n h := by
    cases request <;> exact Message.size_of h

/-- From the start of the topic "t". -/
def fetch_start : ClientRequest := .Fetch (create_fetch_request "t" 3 0)

def fetch_start_body : Bytes := ((fetch_start.encodable earlyFetch).encode 1).1

/-- A Fetch of version 1, with one more byte behind it. -/
theorem read_back_iff_client :
    ReadBack earlyFetch (be 4 49 ++ [0, 1, 0, 1, 0, 0, 0, 0, 0, 0] ++ fetch_start_body ++ [7])
      (create_request_header 1 1) fetch_start_body [7] :=
  (read_back_iff earlyFetch_lawful (create_request_header 1 1) fetch_start rfl _ (by decide +kernel) [7]).2
    ⟨.inl rfl, 10, 39, by decide +kernel, by decide +kernel, by decide⟩

/-- At version 2 the byte of the tagged fields is left in front of the body. -/
theorem tagged_fields_left :
    create_buffer earlyFetch (create_request_header 1 2) (fetch_start.encodable earlyFetch) =
      .ok (be 4 50 ++ ([0, 1, 0, 2, 0, 0, 0, 0, 0, 0, 0] ++ fetch_start_body)) ∧
    read_header earlyFetch ([0, 1, 0, 2, 0, 0, 0, 0, 0, 0, 0] ++ fetch_start_body) =
      .ok (2, 1, create_request_header 1 2, 0 :: fetch_start_body) ∧
    ¬ReadBack earlyFetch (be 4 50 ++ ([0, 1, 0, 2, 0, 0, 0, 0, 0, 0, 0] ++ fetch_start_body) ++ [])
      (create_request_header 1 2) ((fetch_start.encodable earlyFetch).encode 2).1 [] := by
  have hleft : read_header earlyFetch ([0, 1, 0, 2, 0, 0, 0, 0, 0, 0, 0] ++ fetch_start_body) =
      .ok (2, 1, create_request_header 1 2, 0 :: fetch_start_body) := by decide +kernel
  refine ⟨by decide +kernel, hleft, ?_⟩
  rw [read_back_message (by decide +kernel), hleft]
  rintro ⟨-, header_version, h⟩
  have hbody : ((fetch_start.encodable earlyFetch).encode 2).1 = fetch_start_body := by decide +kernel
  simp [hbody] at h

end Requests
end herbert
