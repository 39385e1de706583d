import Herbert.SocketGroup
/-!
# Rows of a schema topic

Batches are produced to a topic that was created with their schema, and groups
call `consume_record_batches`, one call after another, with requests of others
in between. A call writes its requests to a connection and reads the responses as
they arrive. Where every response arrives in one read, what the calls of a group
returned is the first rows produced, as many as its committed offset says, and a
call gets every row that is not in the WAL buffer (`rows_exact`).
-/
open Lib Lib.Bytes Lib.Runs herbert.TopicManager herbert.Fetch herbert.Client herbert.Connection
open herbert.Sockets (offset_request fetch_request commit_request Carries LawfulCodec decoded)

namespace herbert.Rows

variable {σ ρ : Type}

structure Setup (σ ρ : Type) where
  ipc : ArrowIpc σ ρ
  json : OffsetJson
  kafka : KafkaCodec
  topic : String
  schema : σ

/-- One call of a group. -/
def Setup.call (setup : Setup σ ρ) (consumer_group : String) (max_messages : Int) : Consumers.Setup Unit σ ρ where
  ipc := setup.ipc
  json := setup.json
  consumer_group
  topic := setup.topic
  max_messages _ := max_messages

/-- How what was written arrives. -/
structure Arrival where
  cut : Bytes → Stream UInt8
  content_cut : ∀ written, (cut written).content = written

structure State (σ ρ : Type) where
  server : Server σ ρ
  produced : List (RecordBatch σ ρ)
  /-- What the calls of each group returned. -/
  returned : String → List (RecordBatch σ ρ)

def start (config : Config) : State σ ρ := ⟨.new config, [], fun _ => []⟩

inductive Label (σ ρ : Type) where
  | produce (record_batch : RecordBatch σ ρ)
  | consume (consumer_group : String) (max_messages : Int) (first second : Arrival)
  | other (request : KafkaRequest)
  | create_topic (topic : String) (schema : Option σ)

/-- All rows of the batches. -/
def rows (bs : List (RecordBatch σ ρ)) : List ρ := bs.flatMap (·.rows)

/-- The request commits an offset for the topic. -/
def commits_to (topic : String) : KafkaRequest → Bool
  | .OffsetCommit (some ⟨_, first_topic :: _⟩) => first_topic.name = topic
  | _ => false

section
variable [DecidableEq σ] (setup : Setup σ ρ)

/-- What the server's task has written, and what it leaves, when it handled the
messages written to its connection. -/
def served (server : Server σ ρ) (written : Bytes) : Bytes × Server σ ρ :=
  (handle_kafka_connection setup.kafka setup.ipc setup.json server written).2

/-- `consume_record_batches` against the server, which handles each of its
messages before the next one is sent. The two responses arrive as `first` and
`second` say. -/
def call (server : Server σ ρ) (consumer_group : String) (max_messages : Int) (first second : Arrival) :
    Except HerbertError (List (RecordBatch σ ρ)) × Server σ ρ :=
  let call := setup.call consumer_group max_messages
  match (offset_request call).request_buffer setup.kafka with
  | .error e => (.error e, server)
  | .ok offset_buffer =>
    let (told, server') := served setup server offset_buffer
    match ClientReads.get_offset setup.kafka (first.cut told) with
    | (.error e, _) => (.error e, server')
    | (.ok initial_offset, stream) =>
      match (fetch_request call () initial_offset).request_buffer setup.kafka with
      | .error e => (.error e, server')
      | .ok fetch_buffer =>
        let (sent, server') := served setup server (offset_buffer ++ fetch_buffer)
        match (ClientReads.get_records setup.kafka 1 (second.cut (stream.content ++ sent.drop told.length))).1 with
        | .error e => (.error e, server')
        | .ok records =>
          match Client.consume_record_batches setup.ipc initial_offset records with
          | .error e => (.error e, server')
          | .ok (batches, none) => (.ok batches, server')
          | .ok (batches, some offset) =>
            match (commit_request call offset).request_buffer setup.kafka with
            | .error e => (.error e, server')
            | .ok commit_buffer =>
              (.ok batches, (served setup server (offset_buffer ++ fetch_buffer ++ commit_buffer)).2)

/-- A `VecDeque` does not grow to `2 ^ 63` elements. -/
def grown (s : State σ ρ) : Option (State σ ρ) :=
  if (s.server.topic_manager.backend.offset_queue setup.topic).length < 2 ^ 63 then some s else none

def step (s : State σ ρ) : Label σ ρ → Option (State σ ρ)
  | .produce record_batch =>
    if record_batch.schema = setup.schema ∧
        s.server.topic_manager.topic_metadatas.lookup setup.topic = some ⟨setup.topic, some setup.schema⟩ then
      match Client.produce_record_batch setup.ipc setup.topic record_batch with
      | .error _ => some s
      | .ok request =>
        grown setup { s with
          server := (s.server.handle_kafka_request setup.ipc setup.json request).2
          produced := s.produced ++ [record_batch] }
    else none
  | .consume consumer_group max_messages first second =>
    match call setup s.server consumer_group max_messages first second with
    | (.error _, server) => some { s with server }
    | (.ok batches, server) =>
      some { s with
        server
        returned := Function.update s.returned consumer_group (s.returned consumer_group ++ batches) }
  | .other request =>
    if Server.elsewhere setup.topic request ∧ ¬ commits_to setup.topic request then
      grown setup { s with server := (s.server.handle_kafka_request setup.ipc setup.json request).2 }
    else none
  | .create_topic topic schema =>
    some { s with server := s.server.handle_herbert_connection (Client.create_topic topic schema) }

/-- The request is encoded and, if the server does not refuse it, answered by bytes
with the property. -/
def Delivered (server : Server σ ρ) (request : ClientRequest) (arrives : Bytes → Prop) : Prop :=
  ∃ buffer, request.request_buffer setup.kafka = .ok buffer ∧ buffer.length < 4 + 2 ^ 32 ∧
    ((server.handle_kafka_request setup.ipc setup.json (decoded setup.kafka request)).1.isOk →
      ∃ sent, (handle_message setup.kafka setup.ipc setup.json server (buffer.drop 4)).1 = .ok sent ∧ arrives sent)

/-- The messages of a call are delivered, and each response arrives in one read. -/
def Whole (server : Server σ ρ) (consumer_group : String) (max_messages : Int) (first second : Arrival) : Prop :=
  let call := setup.call consumer_group max_messages
  let visible := entryCount (server.topic_manager.backend.queue setup.topic)
  Delivered setup server (offset_request call) (fun sent => (first.cut sent).OneRead 512 sent) ∧
  Delivered setup server (fetch_request call () (server.offset_manager.get_offset consumer_group setup.topic))
    (fun sent => ((second.cut sent).drop 4).OneRead (ofBe (sent.take 4)) (sent.drop 4)) ∧
  Delivered setup server (commit_request call visible) fun _ => True

def Admissible (s : State σ ρ) : Label σ ρ → Prop
  | .consume consumer_group max_messages first second =>
    Whole setup s.server consumer_group max_messages first second
  | _ => True

theorem delivered_iff_mem {server : Server σ ρ} {request : ClientRequest} {arrives : Bytes → Prop} :
    Delivered setup server request arrives ↔
      ∃ buffer ∈ (request.request_buffer setup.kafka).toOption, buffer.length < 4 + 2 ^ 32 ∧
        ((server.handle_kafka_request setup.ipc setup.json (decoded setup.kafka request)).1.isOk →
          ∃ sent ∈ (handle_message setup.kafka setup.ipc setup.json server (buffer.drop 4)).1.toOption, arrives sent) := by
  have hok {ε α : Type} (x : Except ε α) (a : α) : a ∈ x.toOption ↔ x = .ok a := by cases x <;> simp [Except.toOption]
  simp only [Delivered, hok]

instance (server : Server σ ρ) (request : ClientRequest) (arrives : Bytes → Prop) [DecidablePred arrives] :
    Decidable (Delivered setup server request arrives) :=
  decidable_of_iff _ (delivered_iff_mem setup).symm

instance (s : State σ ρ) : (l : Label σ ρ) → Decidable (Admissible setup s l)
  | .consume _ _ _ _ => inferInstanceAs (Decidable (_ ∧ _ ∧ _))
  | .produce _ | .other _ | .create_topic _ _ => inferInstanceAs (Decidable True)

end

/-- The offset the group committed. -/
def committed (setup : Setup σ ρ) (s : State σ ρ) (consumer_group : String) : Int :=
  s.server.offset_manager.get_offset consumer_group setup.topic

/-- The rows produced that are still in the WAL buffer. -/
def buffered (setup : Setup σ ρ) (s : State σ ρ) : Nat :=
  entryCount (History.ofTopic setup.topic s.server.topic_manager.wal.buffer)

/-! ## The manager -/

/-- The log is that of some history, and nothing is buffered if one record is
enough for a flush. -/
structure Sound (config : Config) (tm : TopicManager σ ρ (InMemoryLog σ ρ)) : Prop where
  tracked : ∃ h, Tracks tm h
  config_eq : tm.wal.config = config
  prompt : config.num_uncommitted_messages ≤ 1 → tm.wal.buffer = []

theorem sound_new (config : Config) : Sound config (.new .new config [] : TopicManager σ ρ (InMemoryLog σ ρ)) :=
  ⟨⟨[], tracks_new config []⟩, rfl, fun _ => rfl⟩

theorem Sound.fetch {config : Config} {tm : TopicManager σ ρ (InMemoryLog σ ρ)} (h : Sound config tm)
    (ipc : ArrowIpc σ ρ) (t : String) (o : Int) : Sound config (tm.fetch ipc t o).2 := by
  obtain ⟨hist, ht⟩ := h.tracked
  exact ⟨⟨hist, ht.fetch ipc t o⟩, h.config_eq, h.prompt⟩

theorem Sound.create {config : Config} {tm : TopicManager σ ρ (InMemoryLog σ ρ)} (h : Sound config tm) (t : String)
    (schema : Option σ) : Sound config (tm.create t schema).2 := by
  obtain ⟨hist, ht⟩ := h.tracked
  refine ⟨⟨hist, ht.create t schema⟩, ?_, ?_⟩
  · rw [wal_create]
    exact h.config_eq
  · rw [wal_create]
    exact h.prompt

theorem Sound.add [DecidableEq σ] {config : Config} {tm : TopicManager σ ρ (InMemoryLog σ ρ)} (h : Sound config tm)
    (ipc : ArrowIpc σ ρ) (t : String) (record : Bytes) :
    Sound config (tm.add ipc t record).2 ∧ ∀ t', tm.backend.queue t' <+: (tm.add ipc t record).2.backend.queue t' := by
  rcases add_cases ipc tm t record with ⟨e, he⟩ | ⟨r, hr, hw⟩
  · rw [he]
    exact ⟨h, fun _ => List.prefix_rfl⟩
  obtain ⟨hist, ht⟩ := h.tracked
  obtain ⟨ht', hq, -⟩ := ht.add hr hw
  refine ⟨⟨⟨_, ht'⟩, (config_add ipc tm t record).trans h.config_eq, fun hn => ?_⟩, hq⟩
  rw [add_full tm hr hw (by rw [h.config_eq]; omega)]
  rfl

/-- The index of a topic is that of its queue, a prefix of its log. -/
theorem Sound.index {config : Config} {tm : TopicManager σ ρ (InMemoryLog σ ρ)} (h : Sound config tm) (t : String) :
    tm.backend.offset_queue t = offsetIndex (tm.backend.queue t) := by
  obtain ⟨-, visible, -, hvis⟩ := h.tracked
  rw [hvis.index, hvis.queue]

theorem Sound.fetch_fst {config : Config} {tm : TopicManager σ ρ (InMemoryLog σ ρ)} (h : Sound config tm)
    (ipc : ArrowIpc σ ρ) (t : String) (o : Int) : (tm.fetch ipc t o).1 = readFrom ipc (tm.backend.queue t) o := by
  obtain ⟨-, visible, -, hvis⟩ := h.tracked
  rw [hvis.queue, ← fetch_holds ipc hvis]
  rfl

theorem sound_handle [DecidableEq σ] {config : Config} {server : Server σ ρ} (h : Sound config server.topic_manager)
    (ipc : ArrowIpc σ ρ) (json : OffsetJson) (request : KafkaRequest) :
    Sound config (server.handle_kafka_request ipc json request).2.topic_manager ∧
      ∀ t, server.topic_manager.backend.queue t <+:
        (server.handle_kafka_request ipc json request).2.topic_manager.backend.queue t := by
  refine Server.keeps_topic_manager ipc json
    (fun tm => Sound config tm ∧ ∀ t, server.topic_manager.backend.queue t <+: tm.backend.queue t) ?_ ?_
    ⟨h, fun _ => List.prefix_rfl⟩ request
  · rintro tm t' o ⟨hs, hq⟩
    exact ⟨hs.fetch ipc t' o, fun t => by rw [queue_fetch]; exact hq t⟩
  · rintro tm t' record ⟨hs, hq⟩
    obtain ⟨hs', hq'⟩ := hs.add ipc t' record
    exact ⟨hs', fun t => (hq t).trans (hq' t)⟩

/-! ## One call -/

/-- The client makes of a stream its batches, and commits the offset behind their
rows. -/
theorem consume_stream_batches {ipc : ArrowIpc σ ρ} {o : Int} {w : Bytes} (hw : w ≠ []) {bs : List (RecordBatch σ ρ)}
    (hread : ipc.read w = .ok (bs.map .ok)) :
    Client.consume_record_batches ipc o w = .ok (bs, some (o + (rows bs).length)) := by
  have hsum : (bs.map (·.num_rows)).sum = (rows bs).length := by
    rw [rows, List.length_flatMap]
    rfl
  rw [Client.consume_record_batches, if_neg (by simpa using hw), hread]
  simp only [read_batches_ok, hsum]

section
variable [DecidableEq σ] {setup : Setup σ ρ} {s s' : State σ ρ} {config : Config}

/-- What is delivered is one frame, and the server handles the message in it. -/
theorem Delivered.frame (hk : LawfulCodec setup.kafka) {server : Server σ ρ} {request : ClientRequest}
    {arrives : Bytes → Prop} (h : Delivered setup server request arrives) :
    ∃ m, request.request_buffer setup.kafka = .ok (framed m) ∧ Carries setup.kafka request m ∧
      ∀ answer, (server.handle_kafka_request setup.ipc setup.json (decoded setup.kafka request)).1 = .ok answer →
        ∃ sent, arrives sent ∧ handle_message setup.kafka setup.ipc setup.json server m =
          (.ok sent, (server.handle_kafka_request setup.ipc setup.json (decoded setup.kafka request)).2) := by
  obtain ⟨buffer, hbuffer, hsmall, hanswered⟩ := h
  obtain ⟨m, rfl, hm⟩ := Sockets.buffer_framed hk hbuffer hsmall
  refine ⟨m, hbuffer, hm, fun answer hok => ?_⟩
  obtain ⟨sent, hsent, harrives⟩ := hanswered (by rw [hok]; rfl)
  have hdrop : (framed m).drop 4 = m := List.drop_left' (length_be 4 _)
  rw [hdrop] at hsent
  exact ⟨sent, harrives, Prod.ext hsent (hm.server hsent)⟩

theorem served_nil (server : Server σ ρ) : served setup server [] = ([], server) := by
  rw [served, handle_kafka_connection, connection_loop]
  rfl

/-- A message that is handled, and what is written behind it. -/
theorem served_framed {server server' : Server σ ρ} {m sent : Bytes} (hm : m.length < 2 ^ 32)
    (h : handle_message setup.kafka setup.ipc setup.json server m = (.ok sent, server')) (written : Bytes) :
    served setup server (framed m ++ written) =
      (sent ++ (served setup server' written).1, (served setup server' written).2) := by
  rw [served, handle_kafka_connection_framed _ _ _ _ hm, h]
  rfl

theorem served_one {server server' : Server σ ρ} {m sent : Bytes} (hm : m.length < 2 ^ 32)
    (h : handle_message setup.kafka setup.ipc setup.json server m = (.ok sent, server')) :
    served setup server (framed m) = (sent, server') := by
  simpa [served_nil] using served_framed hm h []

section
variable (hk : LawfulCodec setup.kafka) {server : Server σ ρ} {g : String} {max_messages : Int} {first second : Arrival}
  (hw : Whole setup server g max_messages first second)
include hk hw

/-- The call is told the committed offset. -/
theorem told_offset :
    ∃ m told stream, (offset_request (setup.call g max_messages)).request_buffer setup.kafka = .ok (framed m) ∧
      m.length < 2 ^ 32 ∧ handle_message setup.kafka setup.ipc setup.json server m = (.ok told, server) ∧
      ClientReads.get_offset setup.kafka (first.cut told) =
        (.ok (server.offset_manager.get_offset g setup.topic), stream) ∧ stream.content = [] := by
  obtain ⟨m, hbuffer, hm, hhandled⟩ := hw.1.frame hk
  have hhandle : server.handle_kafka_request setup.ipc setup.json
      (decoded setup.kafka (offset_request (setup.call g max_messages))) = _ :=
    (congrArg _ (Sockets.decoded_offset_request hk hm)).trans
      (Server.handle_offset_fetch setup.ipc setup.json server g setup.topic)
  obtain ⟨told, hone, hmessage⟩ := hhandled _ (congrArg Prod.fst hhandle)
  rw [hhandle] at hmessage
  have hanswers := (Sockets.tells hk hm server).2 told (congrArg Prod.fst hmessage)
  obtain ⟨stream, hread, hnil⟩ := SocketGroup.get_offset_whole hk hanswers (first.content_cut told) hone
  exact ⟨m, told, stream, hbuffer, hm.1, hmessage, hread, hnil⟩

/-- It gets the records from there on. -/
theorem got_records {records : Bytes} (hfetch : (server.topic_manager.fetch setup.ipc setup.topic
      (server.offset_manager.get_offset g setup.topic)).1 = .ok records) :
    ∃ m sent, (fetch_request (setup.call g max_messages) () (server.offset_manager.get_offset g setup.topic)).request_buffer
        setup.kafka = .ok (framed m) ∧ m.length < 2 ^ 32 ∧
      handle_message setup.kafka setup.ipc setup.json server m = (.ok sent, { server with
        topic_manager := (server.topic_manager.fetch setup.ipc setup.topic
          (server.offset_manager.get_offset g setup.topic)).2 }) ∧
      (ClientReads.get_records setup.kafka 1 (second.cut sent)).1 = .ok records := by
  obtain ⟨m, hbuffer, hm, hhandled⟩ := hw.2.1.frame hk
  obtain ⟨max_bytes, hrequest⟩ := Sockets.decoded_fetch_request hk hm
  have hhandle : server.handle_kafka_request setup.ipc setup.json (decoded setup.kafka
      (fetch_request (setup.call g max_messages) () (server.offset_manager.get_offset g setup.topic))) = _ :=
    (congrArg _ hrequest).trans (Server.handle_fetch setup.ipc setup.json hfetch max_bytes)
  obtain ⟨sent, hone, hmessage⟩ := hhandled _ (congrArg Prod.fst hhandle)
  rw [hhandle] at hmessage
  obtain ⟨q, hv, hlawful, hsent⟩ :=
    hm.answers hk (.inl ⟨_, hrequest⟩) (congrArg Prod.fst hhandle) (congrArg Prod.fst hmessage)
  have hreads : ClientReads.Reads (ClientReads.get_records setup.kafka q.api_version (second.cut sent)) records [] :=
    (ClientReads.get_records_iff hk.responses (hv ▸ hlawful) hsent rfl
      (by rw [second.content_cut, List.append_nil])).2 hone
  rw [hv] at hreads
  exact ⟨m, sent, hbuffer, hm.1, hmessage, hreads.1⟩

/-- It commits the end of the visible rows, wherever the server is by then. -/
theorem sent_commit :
    ∃ m, (commit_request (setup.call g max_messages)
        (entryCount (server.topic_manager.backend.queue setup.topic))).request_buffer setup.kafka = .ok (framed m) ∧
      m.length < 2 ^ 32 ∧ ∀ server', handle_message setup.kafka setup.ipc setup.json server' m = (.ok [],
        { server' with offset_manager := (server'.offset_manager.set_offset setup.json g setup.topic
          (entryCount (server.topic_manager.backend.queue setup.topic))).2 }) := by
  obtain ⟨m, hbuffer, hm, hhandled⟩ := hw.2.2.frame hk
  have hhandle (server' : Server σ ρ) : server'.handle_kafka_request setup.ipc setup.json (decoded setup.kafka
      (commit_request (setup.call g max_messages) (entryCount (server.topic_manager.backend.queue setup.topic)))) = _ :=
    (congrArg _ (Sockets.decoded_commit_request hk hm)).trans
      (Server.handle_offset_commit setup.ipc setup.json server' g setup.topic _)
  obtain ⟨sent, -, hmessage⟩ := hhandled _ (congrArg Prod.fst (hhandle server))
  exact ⟨m, hbuffer, hm.1, fun server' => hm.acknowledged (congrArg Prod.fst hmessage) (hhandle server')⟩

/-- A call of a group that is at `c` returns the visible rows from there on, and
leaves the group behind the last one. -/
theorem call_ok (hipc : setup.ipc.Framed) (hs : Sound config server.topic_manager)
    {bs : List (RecordBatch σ ρ)} (hq : server.topic_manager.backend.queue setup.topic = bs.map .Batch)
    (hschema : ∀ b ∈ bs, b.schema = setup.schema) (hfits : (rows bs).length < 2 ^ 63) {c : Nat}
    (hc : server.offset_manager.get_offset g setup.topic = c) (hle : c ≤ (rows bs).length) :
    ∃ batches server', call setup server g max_messages first second = (.ok batches, server') ∧
      rows batches = (rows bs).drop c ∧
      server'.topic_manager = (server.topic_manager.fetch setup.ipc setup.topic c).2 ∧
      ∀ g', server'.offset_manager.get_offset g' setup.topic =
        if g' = g then ((rows bs).length : Int) else server.offset_manager.get_offset g' setup.topic := by
  have hfetch := hs.fetch_fst setup.ipc setup.topic c
  rw [hq] at hfetch
  obtain ⟨m₁, told, stream, hbuffer₁, hm₁, hmessage₁, hoffset, hnil⟩ := told_offset hk hw
  rw [hc] at hoffset
  rcases Nat.lt_or_eq_of_le hle with hlt | heq
  · obtain ⟨j, b, r, w, hj, hr, hsum, hread, hw', hitems⟩ := readFrom_batch hipc.toLawful hschema
      (Int.natCast_nonneg c) (by omega) (by exact_mod_cast hlt)
    rw [hread] at hfetch
    have hne : w ≠ [] := by
      rintro rfl
      exact absurd (hipc.marked _ _ _ hw').2 (by simp)
    have hrows : rows (b.slice r (b.num_rows - r) :: bs.drop (j + 1)) = (rows bs).drop c := by
      rw [rows, rows_from hj hr.le, entryCount_batch, ← hsum, Int.toNat_natCast, rows]
    have hend : (c : Int) + (rows (b.slice r (b.num_rows - r) :: bs.drop (j + 1))).length = (rows bs).length := by
      rw [hrows, List.length_drop]
      omega
    obtain ⟨m₂, sent, hbuffer₂, hm₂, hmessage₂, hrecords⟩ := got_records hk hw (by rw [hc]; exact hfetch)
    obtain ⟨m₃, hbuffer₃, hm₃, hmessage₃⟩ := sent_commit hk hw
    rw [hc] at hbuffer₂ hmessage₂
    have hvisible : entryCount (server.topic_manager.backend.queue setup.topic) = (rows bs).length := by
      rw [hq]
      exact entryCount_batch bs
    rw [hvisible] at hbuffer₃ hmessage₃
    refine ⟨b.slice r (b.num_rows - r) :: bs.drop (j + 1), ⟨(server.topic_manager.fetch setup.ipc setup.topic c).2,
      (server.offset_manager.set_offset setup.json g setup.topic (rows bs).length).2⟩, ?_, hrows, rfl, fun g' => ?_⟩
    · have hcommitted := served_one hm₃ (hmessage₃ { server with
        topic_manager := (server.topic_manager.fetch setup.ipc setup.topic c).2 })
      simp only [call, hbuffer₁, served_one hm₁ hmessage₁, hoffset, hbuffer₂, served_framed hm₁ hmessage₁,
        served_one hm₂ hmessage₂, hnil, List.nil_append, List.drop_left, hrecords, consume_stream_batches hne hitems,
        hend, hbuffer₃, List.append_assoc, served_framed hm₂ hmessage₂, hcommitted]
    · rw [OffsetManager.get_offset_set_offset]
      simp
  · rw [readFrom_outside setup.ipc _ (by omega) (by omega) (.inr (by rw [entryCount_batch]; exact_mod_cast heq.ge))]
      at hfetch
    obtain ⟨m₂, sent, hbuffer₂, hm₂, hmessage₂, hrecords⟩ := got_records hk hw (by rw [hc]; exact hfetch)
    rw [hc] at hbuffer₂ hmessage₂
    refine ⟨[], { server with topic_manager := (server.topic_manager.fetch setup.ipc setup.topic c).2 }, ?_, ?_, rfl,
      fun g' => ?_⟩
    · have hempty : Client.consume_record_batches setup.ipc c [] = .ok ([], none) := rfl
      simp only [call, hbuffer₁, served_one hm₁ hmessage₁, hoffset, hbuffer₂, served_framed hm₁ hmessage₁,
        served_one hm₂ hmessage₂, hnil, List.nil_append, List.drop_left, hrecords, hempty]
    · rw [heq, List.drop_length]
      rfl
    · split
      · rename_i hg
        rw [hg, hc, heq]
      · rfl

end
end

/-! ## Runs -/

/-- The group was returned the rows before its committed offset, which are
visible. -/
def Resumes (setup : Setup σ ρ) (s : State σ ρ) (g : String) : Prop :=
  ∃ c : Nat, committed setup s g = c ∧ c ≤ entryCount (s.server.topic_manager.backend.queue setup.topic) ∧
    rows (s.returned g) = (rows s.produced).take c

structure Inv (setup : Setup σ ρ) (config : Config) (s : State σ ρ) : Prop where
  sound : Sound config s.server.topic_manager
  log : log_of s.server.topic_manager setup.topic = s.produced.map .Batch
  schemas : ∀ b ∈ s.produced, b.schema = setup.schema
  fits : (s.server.topic_manager.backend.offset_queue setup.topic).length < 2 ^ 63
  groups : ∀ g, Resumes setup s g

variable {setup : Setup σ ρ} {s s' : State σ ρ} {config : Config}

theorem inv_start : Inv setup config (start config) where
  sound := sound_new config
  log := rfl
  schemas b hb := by cases hb
  fits := show 0 < 2 ^ 63 by decide
  groups g := ⟨0, rfl, Nat.le_refl _, rfl⟩

/-- The visible batches are the first ones produced, and the others are buffered. -/
theorem Inv.visible (hi : Inv setup config s) :
    ∃ bs, s.server.topic_manager.backend.queue setup.topic = bs.map .Batch ∧ bs <+: s.produced ∧
      (rows bs).length < 2 ^ 63 ∧ (rows bs).length + buffered setup s = (rows s.produced).length := by
  have hlog := hi.log
  rw [log_of] at hlog
  obtain ⟨bs, hp, hq⟩ := List.prefix_map_iff.1 (hlog ▸ List.prefix_append _ _)
  have hfits := hi.fits
  rw [hi.sound.index, hq, length_offsetIndex, entryCount_batch] at hfits
  have hcount := congrArg entryCount hlog
  rw [entryCount_append, hq, entryCount_batch, entryCount_batch] at hcount
  exact ⟨bs, hq, hp, hfits, hcount⟩

theorem Inv.group (hi : Inv setup config s) (g : String) {bs : List (RecordBatch σ ρ)}
    (hq : s.server.topic_manager.backend.queue setup.topic = bs.map .Batch) :
    ∃ c : Nat, committed setup s g = c ∧ c ≤ (rows bs).length ∧ rows (s.returned g) = (rows s.produced).take c := by
  obtain ⟨c, hc, hle, hrows⟩ := hi.groups g
  rw [hq, entryCount_batch] at hle
  exact ⟨c, hc, hle, hrows⟩

/-- What the groups were returned stays, as long as the rows they were returned
are visible. -/
theorem Resumes.mono {g : String} (h : Resumes setup s g) (hreturned : s'.returned g = s.returned g)
    (hoffset : committed setup s' g = committed setup s g)
    (hq : s.server.topic_manager.backend.queue setup.topic <+: s'.server.topic_manager.backend.queue setup.topic)
    (hle : entryCount (s.server.topic_manager.backend.queue setup.topic) ≤ (rows s.produced).length)
    (hp : s.produced <+: s'.produced) : Resumes setup s' g := by
  obtain ⟨c, hc, hcle, hrows⟩ := h
  obtain ⟨more, hq⟩ := hq
  obtain ⟨bs, hp⟩ := hp
  refine ⟨c, hoffset.trans hc, ?_, ?_⟩
  · rw [← hq, entryCount_append]
    omega
  · rw [hreturned, hrows, ← hp, rows, rows, List.flatMap_append, List.take_append_of_le_length]
    exact hcle.trans hle

section
variable [DecidableEq σ]

/-- A request keeps the invariant if what it adds to the topic is produced, and
it commits nothing for it. -/
theorem Inv.request (hi : Inv setup config s) (request : KafkaRequest) {produced : List (RecordBatch σ ρ)}
    (hp : s.produced <+: produced) (hschemas : ∀ b ∈ produced, b.schema = setup.schema)
    (hlog : log_of (s.server.handle_kafka_request setup.ipc setup.json request).2.topic_manager setup.topic =
      produced.map .Batch)
    (hcommit : ∀ g, (s.server.handle_kafka_request setup.ipc setup.json request).2.offset_manager.get_offset g
      setup.topic = s.server.offset_manager.get_offset g setup.topic)
    (hs : grown setup { s with
      server := (s.server.handle_kafka_request setup.ipc setup.json request).2, produced } = some s') :
    Inv setup config s' := by
  obtain ⟨hsound, hq⟩ := sound_handle hi.sound setup.ipc setup.json request
  rw [grown, Option.ite_none_right_eq_some, Option.some.injEq] at hs
  obtain ⟨hfits, rfl⟩ := hs
  refine ⟨hsound, hlog, hschemas, hfits, fun g => ?_⟩
  refine (hi.groups g).mono rfl (hcommit g) (hq setup.topic) ?_ hp
  obtain ⟨bs, hbs, -, -, hcount⟩ := hi.visible
  rw [hbs, entryCount_batch]
  exact Nat.le.intro hcount

theorem inv_produce (hipc : setup.ipc.Framed) (hi : Inv setup config s) {b : RecordBatch σ ρ}
    (hs : step setup s (.produce b) = some s') : Inv setup config s' := by
  simp only [step] at hs
  split at hs
  · rename_i hguard
    obtain ⟨hschema, hmeta⟩ := hguard
    obtain ⟨w, hw, -⟩ := hipc.read_write b.schema [b] (by simp)
    rw [show Client.produce_record_batch setup.ipc setup.topic b =
      .ok (.Produce (some (create_produce_request setup.topic w))) by rw [Client.produce_record_batch, hw]] at hs
    have hr := stored_record_stream hipc hw (hschema.symm ▸ hmeta)
    refine hi.request _ (List.prefix_append _ _) ?_ ?_ (fun g => ?_) hs
    · intro b' hb'
      rcases List.mem_append.1 hb' with hb' | hb'
      · exact hi.schemas b' hb'
      · rw [List.mem_singleton.1 hb', hschema]
    · rw [Server.handle_produce]
      show log_of (s.server.topic_manager.add setup.ipc setup.topic w).2 setup.topic = _
      rw [(log_of_add_ok s.server.topic_manager hr ⟨w, hw⟩).2, hi.log, if_pos rfl, List.map_append, List.map_singleton]
    · rw [Server.handle_produce]
  · cases hs

theorem inv_other (hi : Inv setup config s) {request : KafkaRequest}
    (hs : step setup s (.other request) = some s') : Inv setup config s' := by
  simp only [step] at hs
  split at hs
  · rename_i hguard
    refine hi.request request List.prefix_rfl hi.schemas ?_ (fun g => ?_) hs
    · rw [s.server.log_of_elsewhere setup.ipc setup.json hguard.1, hi.log]
    · rcases s.server.offset_manager_cases setup.ipc setup.json request with
        heq | ⟨group_id, first_topic, rest, o, rfl, heq⟩
      · rw [heq]
      · have hname : first_topic.name ≠ setup.topic := by simpa [commits_to] using hguard.2
        rw [heq, OffsetManager.get_offset_set_offset, if_neg (by simp [Ne.symm hname])]
  · cases hs

/-- After a call the group is behind the last visible row. -/
theorem inv_consume (hk : LawfulCodec setup.kafka) (hipc : setup.ipc.Framed) (hi : Inv setup config s) {g : String}
    {max_messages : Int} {first second : Arrival} (hw : Whole setup s.server g max_messages first second)
    (hs : step setup s (.consume g max_messages first second) = some s') :
    Inv setup config s' ∧ (∃ batches, (call setup s.server g max_messages first second).1 = .ok batches) ∧
      committed setup s' g + buffered setup s' = (rows s'.produced).length := by
  obtain ⟨bs, hq, hp, hfits, hcount⟩ := hi.visible
  obtain ⟨c, hc, hle, hreturned⟩ := hi.group g hq
  obtain ⟨batches, server', hcall, hbatches, htm, hoffset⟩ := call_ok hk hw hipc hi.sound hq
    (fun b hb => hi.schemas b (hp.subset hb)) hfits hc hle
  simp only [step, hcall] at hs
  cases hs
  have hqueue : server'.topic_manager.backend.queue setup.topic = bs.map .Batch := by
    rw [htm, queue_fetch, hq]
  have hrows : rows s.produced = rows bs ++ (rows s.produced).drop (rows bs).length := by
    obtain ⟨more, hmore⟩ := hp
    rw [← hmore, rows, rows, List.flatMap_append, List.drop_left]
  refine ⟨⟨?_, ?_, hi.schemas, ?_, fun g' => ?_⟩, ⟨batches, by rw [hcall]⟩, ?_⟩
  · show Sound config server'.topic_manager
    rw [htm]
    exact hi.sound.fetch _ _ _
  · show log_of server'.topic_manager setup.topic = _
    rw [htm, log_of_fetch, hi.log]
  · show (server'.topic_manager.backend.offset_queue setup.topic).length < _
    have hsound : Sound config server'.topic_manager := htm ▸ hi.sound.fetch _ _ _
    rw [hsound.index, hqueue, length_offsetIndex, entryCount_batch]
    exact hfits
  · by_cases hg : g' = g
    · subst hg
      refine ⟨(rows bs).length, ?_, ?_, ?_⟩
      · show server'.offset_manager.get_offset g' setup.topic = _
        rw [hoffset, if_pos rfl]
      · show _ ≤ entryCount (server'.topic_manager.backend.queue setup.topic)
        rw [hqueue, entryCount_batch]
        exact Nat.le_refl _
      · show rows (Function.update s.returned g' (s.returned g' ++ batches) g') = (rows s.produced).take _
        have happend : rows (s.returned g' ++ batches) = rows (s.returned g') ++ rows batches := List.flatMap_append
        rw [Function.update_self, happend, hreturned, hbatches, hrows, List.take_left,
          List.take_append_of_le_length hle, List.take_append_drop]
    · refine (hi.groups g').mono (Function.update_of_ne hg _ _) ?_ ?_ ?_ List.prefix_rfl
      · show server'.offset_manager.get_offset g' setup.topic = _
        rw [hoffset, if_neg hg]
        rfl
      · show _ <+: server'.topic_manager.backend.queue setup.topic
        simp only [hqueue, hq, List.prefix_rfl]
      · rw [hq, entryCount_batch]
        exact Nat.le.intro hcount
  · show server'.offset_manager.get_offset g setup.topic +
      ((entryCount (History.ofTopic setup.topic server'.topic_manager.wal.buffer) : Nat) : Int) = (rows s.produced).length
    rw [hoffset, if_pos rfl, htm, ← hcount]
    rfl

theorem inv_step (hk : LawfulCodec setup.kafka) (hipc : setup.ipc.Framed) (hi : Inv setup config s) {l : Label σ ρ}
    (ha : Admissible setup s l) (hs : step setup s l = some s') : Inv setup config s' := by
  cases l with
  | produce b => exact inv_produce hipc hi hs
  | consume g max_messages first second => exact (inv_consume hk hipc hi ha hs).1
  | other request => exact inv_other hi hs
  | create_topic t schema =>
    cases hs
    have hbackend := backend_create s.server.topic_manager t schema
    refine ⟨hi.sound.create t schema, (log_of_create _ t schema _).trans hi.log, hi.schemas, ?_, fun g => ?_⟩
    · show ((s.server.topic_manager.create t schema).2.backend.offset_queue setup.topic).length < _
      rw [hbackend]
      exact hi.fits
    · obtain ⟨c, hc, hle, hrows⟩ := hi.groups g
      refine ⟨c, hc, ?_, hrows⟩
      show c ≤ entryCount ((s.server.topic_manager.create t schema).2.backend.queue setup.topic)
      rw [hbackend]
      exact hle

theorem inv_run (hk : LawfulCodec setup.kafka) (hipc : setup.ipc.Framed) {tr}
    (hr : Run (step setup) (start config) tr s) (ha : Always (Admissible setup) tr) : Inv setup config s :=
  hr.inv_while (Inv setup config) inv_start (fun _ _ _ hi ha hs => inv_step hk hipc hi ha hs) ha

/-- If every response arrives in one read, each group's calls returned exactly the
first rows produced, as many as its committed offset says. A call succeeds and
brings the group to the last row that is not in the WAL buffer, which is the last
one produced if every record is flushed at once. -/
theorem rows_exact (hk : LawfulCodec setup.kafka) (hipc : setup.ipc.Framed) {tr}
    (hr : Run (step setup) (start config) tr s) (ha : Always (Admissible setup) tr) (g : String) :
    (∃ c : Nat, committed setup s g = c ∧ c ≤ (rows s.produced).length ∧
      rows (s.returned g) = (rows s.produced).take c) ∧
    ∀ max_messages first second s', Whole setup s.server g max_messages first second →
      step setup s (.consume g max_messages first second) = some s' →
      (∃ batches, (call setup s.server g max_messages first second).1 = .ok batches) ∧
      committed setup s' g + buffered setup s' = (rows s'.produced).length ∧
      (config.num_uncommitted_messages ≤ 1 → committed setup s' g = (rows s'.produced).length) := by
  have hi := inv_run hk hipc hr ha
  constructor
  · obtain ⟨bs, hq, -, -, hcount⟩ := hi.visible
    obtain ⟨c, hc, hle, hrows⟩ := hi.group g hq
    exact ⟨c, hc, hle.trans (Nat.le.intro hcount), hrows⟩
  · intro max_messages first second s' hw hs
    obtain ⟨hi', hok, hall⟩ := inv_consume hk hipc hi hw hs
    refine ⟨hok, hall, fun hn => ?_⟩
    rw [← hall, buffered, hi'.sound.prompt hn]
    simp [entryCount]

end

/-! ## Two groups -/

/-- Written bytes arrive in two pieces, the first of at most `n` bytes. -/
def pieces (n : Nat) : Arrival where
  cut written := ⟨[written.take n, written.drop n].filter (· ≠ []), by simp⟩
  content_cut written := by
    rw [Stream.content, List.flatten_filter_ne_nil]
    simp

/-- The small codecs and a topic with schema 7. -/
def pocketSetup : Setup UInt8 UInt8 := ⟨pocketIpc, plainJson, Requests.earlyFetch, "t", 7⟩

/-- A call whose responses arrive in one read. -/
def pocketCall (consumer_group : String) : Label UInt8 UInt8 := .consume consumer_group 100 (pieces 512) (pieces 4)

/-- Two groups and an empty batch. -/
def pocketLabels : List (Label UInt8 UInt8) :=
  [.create_topic "t" (some 7), .produce ⟨7, [1, 2]⟩, pocketCall "g", .produce ⟨7, []⟩, pocketCall "g",
    .produce ⟨7, [3]⟩, pocketCall "h", pocketCall "g"]

theorem rows_exact_two :
    ∃ s : State UInt8 UInt8, s.returned "g" = [⟨7, [1, 2]⟩, ⟨7, [3]⟩] ∧
      ∃ c : Nat, committed pocketSetup s "g" = c ∧ c ≤ (rows s.produced).length ∧
        rows (s.returned "g") = (rows s.produced).take c := by
  have hreturned : (execWhile (step pocketSetup) (Admissible pocketSetup) (start ⟨1⟩) pocketLabels).map (·.returned "g") =
      some [⟨7, [1, 2]⟩, ⟨7, [3]⟩] := by decide +kernel
  obtain ⟨s, hs, hg⟩ := Option.map_eq_some_iff.1 hreturned
  obtain ⟨tr, hr, ha⟩ := run_execWhile .nil always_nil hs
  exact ⟨s, hg, (rows_exact SocketGroup.earlyFetch_codec pocketIpc_framed hr ha "g").1⟩

/-- Not every call gets all rows produced: with two uncommitted messages the first
batch is still in the WAL buffer, though every response arrives in one read. With
one a call fails if the response to its OffsetFetch is cut. -/
theorem buffered_row_missed :
    (¬ ∀ tr (s s' : State UInt8 UInt8) g max_messages first second,
      Run (step pocketSetup) (start ⟨2⟩) tr s → Always (Admissible pocketSetup) tr →
      Whole pocketSetup s.server g max_messages first second →
      step pocketSetup s (.consume g max_messages first second) = some s' →
      committed pocketSetup s' g = (rows s'.produced).length) ∧
    ¬ ∀ tr (s s' : State UInt8 UInt8) g max_messages first second,
      Run (step pocketSetup) (start ⟨1⟩) tr s →
      step pocketSetup s (.consume g max_messages first second) = some s' →
      committed pocketSetup s' g = (rows s'.produced).length := by
  let labels : List (Label UInt8 UInt8) := [.create_topic "t" (some 7), .produce ⟨7, [1]⟩]
  let counts (s : State UInt8 UInt8) := (committed pocketSetup s "g", (rows s.produced).length)
  constructor
  · intro h
    have hcall : ((execWhile (step pocketSetup) (Admissible pocketSetup) (start ⟨2⟩) labels).bind fun s =>
        if Admissible pocketSetup s (pocketCall "g") then (step pocketSetup s (pocketCall "g")).map counts else none) =
        some (0, 1) := by decide +kernel
    obtain ⟨s, hs, hcall⟩ := Option.bind_eq_some_iff.1 hcall
    rw [Option.ite_none_right_eq_some] at hcall
    obtain ⟨tr, hr, ha⟩ := run_execWhile .nil always_nil hs
    obtain ⟨s', hs', heq⟩ := Option.map_eq_some_iff.1 hcall.2
    obtain ⟨hc, hn⟩ : committed pocketSetup s' "g" = 0 ∧ (rows s'.produced).length = 1 := Prod.mk.inj heq
    have hall := h _ s s' "g" 100 _ _ hr ha hcall.1 hs'
    rw [hc, hn] at hall
    exact absurd hall (by decide)
  · intro h
    have hcall : ((exec (step pocketSetup) (start ⟨1⟩) labels).bind fun s =>
        (step pocketSetup s (.consume "g" 100 (pieces 4) (pieces 4))).map counts) = some (0, 1) := by decide +kernel
    obtain ⟨s, hs, hcall⟩ := Option.bind_eq_some_iff.1 hcall
    obtain ⟨tr, hr, -⟩ := Run.nil.exec hs
    obtain ⟨s', hs', heq⟩ := Option.map_eq_some_iff.1 hcall
    obtain ⟨hc, hn⟩ : committed pocketSetup s' "g" = 0 ∧ (rows s'.produced).length = 1 := Prod.mk.inj heq
    have hall := h _ s s' "g" 100 _ _ hr hs'
    rw [hc, hn] at hall
    exact absurd hall (by decide)

end herbert.Rows
