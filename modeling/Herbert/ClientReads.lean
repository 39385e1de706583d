import Herbert.Client
import Herbert.Framing
import Herbert.Lib.Stream
/-!
# How the client reads a response

`get_offset` reads once, into a buffer of 512 zeros, and `get_records` reads the
length and then once more, into as many zeros. A read returns what has arrived,
so each is right exactly if its read returns all of the response and nothing
behind it.
-/
open Lib Lib.Bytes herbert.Connection herbert.Framing

namespace herbert.ClientReads

variable {σ ρ : Type} (kafka : KafkaCodec)

/-- A buffer of `n` zeros after a read into it. -/
def filled (n : Nat) (read : Bytes) : Bytes := read ++ List.replicate (n - read.length) 0

def get_offset (stream : Stream UInt8) : Except HerbertError Int × Stream UInt8 :=
  let (read, stream) := stream.read 512
  let new_buf := (filled 512 read).drop 4
  match kafka.response_header.decode 1 new_buf with
  | none => (.error .Decode, stream)
  | some (_, new_buf) =>
    match kafka.offset_fetch_response.decode 6 new_buf with
    | none => (.error .Decode, stream)
    | some (offset_fetch_response, _) => (Client.get_offset offset_fetch_response, stream)

def get_records (fetch_request_api_version : Int) (stream : Stream UInt8) : Except HerbertError Bytes × Stream UInt8 :=
  match stream.readExact 4 with
  | (none, stream) => (Client.get_records none, stream)
  | (some len_buf, stream) =>
    let len := ofBe len_buf
    let (read, stream) := stream.read len
    match kafka.response_header.decode 1 (filled len read) with
    | none => (.error .Decode, stream)
    | some (_, new_buf) =>
      match kafka.fetch_response.decode fetch_request_api_version new_buf with
      | none => (.error .Decode, stream)
      | some (fetch_response, _) => (Client.get_records (some fetch_response), stream)

/-- The value is returned, and the stream is left at `next`. -/
def Reads {α : Type} (r : Except HerbertError α × Stream UInt8) (a : α) (next : Bytes) : Prop :=
  r.1 = .ok a ∧ r.2.content = next

variable {kafka}

/-! ## What is consumed -/

theorem get_offset_snd (s : Stream UInt8) : (get_offset kafka s).2 = (s.read 512).2 := by
  simp only [get_offset]
  split
  · rfl
  split <;> rfl

theorem get_records_snd {v : Int} {s : Stream UInt8} (hlen : 4 ≤ s.content.length) :
    (get_records kafka v s).2 = ((s.drop 4).read (ofBe (s.content.take 4))).2 := by
  simp only [get_records, Stream.readExact, if_pos hlen]
  split
  · rfl
  split <;> rfl

/-! ## What is decoded -/

theorem get_offset_fst (hk : kafka.Lawful) {q : ReadRequest kafka} (hv : q.api_version = 6)
    (hl : kafka.offset_fetch_response.Lawful q.api_version) {response : OffsetFetchResponse} {sent : Bytes}
    (h : Sent q (.OffsetFetch response) sent) {s : Stream UInt8} (hread : (s.read 512).1 = sent) :
    (get_offset kafka s).1 = Client.get_offset response := by
  obtain ⟨n, hn⟩ := h.body
  have hbody := hl.round_trip response n (List.replicate (512 - sent.length) 0) hn
  rw [hv] at hbody
  simp only [get_offset, hread, filled]
  rw [List.drop_append_of_le_length h.four_le, h.drop_four, h.decode_header hk]
  simp only [encode_response, hv, hbody]

theorem get_records_fst (hk : kafka.Lawful) {q : ReadRequest kafka} (hl : kafka.fetch_response.Lawful q.api_version)
    {response : FetchResponse} {sent : Bytes} (h : Sent q (.Fetch response) sent) {s : Stream UInt8}
    (hlen : 4 ≤ s.content.length)
    (hread : ((s.drop 4).read (ofBe (s.content.take 4))).1 = sent.drop 4) :
    (get_records kafka q.api_version s).1 = Client.get_records (some response) := by
  obtain ⟨n, hn⟩ := h.body
  have hbody := hl.round_trip response n (List.replicate (ofBe (s.content.take 4) - (sent.drop 4).length) 0) hn
  simp only [get_records, Stream.readExact, if_pos hlen, hread, filled]
  rw [h.drop_four] at hbody ⊢
  rw [h.decode_header hk]
  simp only [encode_response, hbody]

/-! ## When a call is right -/

section
variable [DecidableEq σ] (ipc : ArrowIpc σ ρ) (json : OffsetJson)

theorem get_offset_iff (hk : kafka.Lawful) {q : ReadRequest kafka} (hv : q.api_version = 6)
    (hl : kafka.offset_fetch_response.Lawful q.api_version) {response : OffsetFetchResponse} {sent next : Bytes}
    (h : Sent q (.OffsetFetch response) sent) {offset : Int} (ho : Client.get_offset response = .ok offset)
    {s : Stream UInt8} (hs : s.content = sent ++ next) :
    Reads (get_offset kafka s) offset next ↔ s.OneRead 512 sent := by
  have hne : sent ≠ [] := List.ne_nil_of_length_pos (by have := h.four_le; omega)
  rw [Reads, get_offset_snd, Stream.content_read_iff hs hne]
  refine ⟨fun hr => hr.2, fun hone => ⟨?_, hone⟩⟩
  rw [get_offset_fst hk hv hl h (hone.read_fst hs), ho]

theorem get_records_iff (hk : kafka.Lawful) {q : ReadRequest kafka} (hl : kafka.fetch_response.Lawful q.api_version)
    {response : FetchResponse} {sent next : Bytes} (h : Sent q (.Fetch response) sent) {records : Bytes}
    (hr : Client.get_records (some response) = .ok records)
    {s : Stream UInt8} (hs : s.content = sent ++ next) :
    Reads (get_records kafka q.api_version s) records next ↔
      (s.drop 4).OneRead (ofBe (sent.take 4)) (sent.drop 4) := by
  have hlen : 4 ≤ s.content.length := by
    have := h.four_le
    rw [hs, List.length_append]
    omega
  have htake : s.content.take 4 = sent.take 4 := by rw [hs, List.take_append_of_le_length h.four_le]
  have hdrop : (s.drop 4).content = sent.drop 4 ++ next := by
    rw [Stream.content_drop, hs, List.drop_append_of_le_length h.four_le]
  have hne : sent.drop 4 ≠ [] := by rw [h.drop_four]; exact h.payload_ne_nil hk
  rw [Reads, get_records_snd hlen, htake, Stream.content_read_iff hdrop hne]
  -- what is consumed decides: if it is the response, the response is decoded
  refine ⟨fun hread => hread.2, fun hone => ⟨?_, hone⟩⟩
  have hread := hone.read_fst hdrop
  rw [← htake] at hread
  rw [get_records_fst hk hl h hlen hread, hr]

/-! ## On what the server sent -/

section
variable (hk : kafka.Lawful) {server : Server σ ρ} {q : ReadRequest kafka} {sent next : Bytes}
  (hsent : (handle_message kafka ipc json server q.message).1 = .ok sent) {s : Stream UInt8}
  (hs : s.content = sent ++ next)
include hk hsent hs

theorem offset_iff {response : OffsetFetchResponse} {offset : Int}
    (hresponse : (server.handle_kafka_request ipc json q.request).1 = .ok (some (.OffsetFetch response)))
    (ho : Client.get_offset response = .ok offset) (hv : q.api_version = 6) :
    Reads (get_offset kafka s) offset next ↔ s.OneRead 512 sent := by
  obtain ⟨hlawful, h⟩ := q.sent_response ipc json hk hresponse hsent
  exact get_offset_iff hk hv hlawful h ho hs

theorem records_iff {response : FetchResponse} {records : Bytes}
    (hresponse : (server.handle_kafka_request ipc json q.request).1 = .ok (some (.Fetch response)))
    (hr : Client.get_records (some response) = .ok records) :
    Reads (get_records kafka q.api_version s) records next ↔
      (s.drop 4).OneRead (ofBe (sent.take 4)) (sent.drop 4) := by
  obtain ⟨hlawful, h⟩ := q.sent_response ipc json hk hresponse hsent
  exact get_records_iff hk hlawful h hr hs

end

/-- The offset is read right exactly if the first read of at most 512 bytes returns
the response, and the records exactly if, behind the length, the first read of
as many bytes as announced returns the payload. -/
theorem right_iff_one_read (hk : kafka.Lawful) (server : Server σ ρ) (q : ReadRequest kafka) {sent next : Bytes}
    (hsent : (handle_message kafka ipc json server q.message).1 = .ok sent) (s : Stream UInt8)
    (hs : s.content = sent ++ next) :
    (∀ response offset, (server.handle_kafka_request ipc json q.request).1 = .ok (some (.OffsetFetch response)) →
      Client.get_offset response = .ok offset → q.api_version = 6 →
      (Reads (get_offset kafka s) offset next ↔ s.OneRead 512 sent)) ∧
    ∀ response records, (server.handle_kafka_request ipc json q.request).1 = .ok (some (.Fetch response)) →
      Client.get_records (some response) = .ok records →
      (Reads (get_records kafka q.api_version s) records next ↔
        (s.drop 4).OneRead (ofBe (sent.take 4)) (sent.drop 4)) := by
  constructor
  · intro response offset hresponse ho hv
    exact offset_iff ipc json hk hsent hs hresponse ho hv
  · intro response records hresponse hr
    exact records_iff ipc json hk hsent hs hresponse hr

end

/-- A server with the record `abc` on topic `t`. -/
def abc : Server UInt8 UInt8 :=
  (Server.handle_kafka_request pocketIpc plainJson (.new ⟨1⟩)
    (.Produce (some (create_produce_request "t" [97, 98, 99])))).2

/-- A Fetch from offset 0 of topic `t`, at version 1. -/
def fetch_request : ReadRequest pocketKafka where
  message := [0, 1, 0, 1, 0, 0, 0, 0, 0, 0, 255, 255, 255, 255, 0, 0, 0, 0, 0, 0, 0, 0, 0, 0, 0, 1, 0, 1, 116, 0, 0, 0, 1,
    0, 0, 0, 0, 0, 0, 0, 0, 0, 0, 0, 0, 0, 0, 0, 0]
  api_version := 1
  header_version := 1
  header := ⟨1, 1, 0, some ""⟩
  buffer := [255, 255, 255, 255, 0, 0, 0, 0, 0, 0, 0, 0, 0, 0, 0, 1, 0, 1, 116, 0, 0, 0, 1, 0, 0, 0, 0, 0, 0, 0, 0, 0, 0,
    0, 0, 0, 0, 0, 0]
  request := .Fetch (some (create_fetch_request "t" 0x7FFFFFFF 0))
  header_read := by decide +kernel
  request_read := by decide +kernel
  answered := .inl ⟨_, rfl⟩
  length_lt := by simp

/-- The response of 44 bytes, up to the first byte of the record. -/
def abc_front : Bytes :=
  [0, 0, 0, 45, 0, 0, 0, 0, 0, 0, 0, 0, 0, 0, 0, 0, 1, 0, 0, 0, 0, 0, 1, 0, 0, 0, 0, 0, 0, 0, 0, 0, 0, 0, 0, 0, 0, 0,
    0, 0, 3, 97]

/-- The response to `committed_request`. -/
def zero_committed : Bytes := be 4 42 ++ committed_request.payload (.OffsetFetch ⟨[⟨"t", [⟨0⟩]⟩]⟩)

/-- A response in one piece, and one in one piece behind its length. -/
theorem right_iff_one_read_piece :
    Reads (get_offset pocketKafka ⟨[zero_committed], by decide⟩) 0 [] ∧
    Reads (get_records pocketKafka 1 ⟨[abc_front.take 4, abc_front.drop 4 ++ [98, 99]], by decide⟩) [97, 98, 99] [] := by
  have hoffset : (handle_message pocketKafka pocketIpc plainJson (.new ⟨1⟩) committed_request.message).1 =
      .ok zero_committed := by decide +kernel
  have hrecords : (handle_message pocketKafka pocketIpc plainJson abc fetch_request.message).1 =
      .ok (abc_front ++ [98, 99]) := by decide +kernel
  constructor
  · exact ((right_iff_one_read pocketIpc plainJson pocketKafka_lawful _ _ hoffset _ (by decide)).1 ⟨[⟨"t", [⟨0⟩]⟩]⟩ 0
      (by decide +kernel) rfl rfl).2 ⟨_, _, rfl, by decide⟩
  · exact ((right_iff_one_read pocketIpc plainJson pocketKafka_lawful _ _ hrecords _ (by decide)).2
      ⟨[⟨[⟨some [97, 98, 99]⟩]⟩]⟩ _ (by decide +kernel) rfl).2 ⟨_, _, rfl, by decide⟩

/-- Cut before its last two bytes, the record is read as `a` and two zeros. -/
theorem record_zeroed :
    (handle_message pocketKafka pocketIpc plainJson abc fetch_request.message).1 = .ok (abc_front ++ [98, 99]) ∧
    (get_records pocketKafka 1 ⟨[abc_front, [98, 99]], by decide⟩).1 = .ok [97, 0, 0] ∧
    ¬Reads (get_records pocketKafka 1 ⟨[abc_front, [98, 99]], by decide⟩) [97, 98, 99] [] := by
  have hread : (get_records pocketKafka 1 ⟨[abc_front, [98, 99]], by decide⟩).1 = .ok [97, 0, 0] := by decide +kernel
  refine ⟨by decide +kernel, hread, fun h => ?_⟩
  have := hread.symm.trans h.1
  simp at this

end herbert.ClientReads
