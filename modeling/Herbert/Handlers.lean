import Herbert.Wire
import Herbert.ShortWrites
/-!
# The write handlers

What the two handlers that write do with the bytes of a request. A produce
request is accepted exactly if its first topic has a first partition with
records that the topic can store, and otherwise nothing changes; if the file
takes a part of the frame, it is the frame that is not whole
(`produce_exact_iff`).

An `Ok` speaks of the first partition of the first topic (`ok_first`): the server
assumes one topic with one partition, and drops the others. Besides,
`handle_produce_request` returns it for bytes that do not decode, and
`handle_offset_commit_request` drops the result of `set_offset`.
`produceTold_iff` and `commitTold_iff` say when all of the request was carried
out.
-/
open Lib Lib.Faulty herbert.WriteAheadLog herbert.TopicManager

namespace herbert.Handlers

variable {σ ρ β : Type}

/-- The topic and the records that are looked at. -/
def first_records (request : ProduceRequest) : Option (String × Bytes) :=
  request.topic_data.head?.bind fun topic =>
    topic.partition_data.head?.bind fun partition => partition.records.map fun records => (topic.name, records)

/-- The bytes decode, and this is what is looked at. -/
def requested (kafka : KafkaCodec) (buf : Bytes) (api_version : Int) : Option (String × Bytes) :=
  (kafka.produce_request.decode api_version buf).bind fun x => first_records x.1

/-! ## The produce handler -/

section
variable [DecidableEq σ] (ipc : ArrowIpc σ ρ)

def handle_topic_data [RecordStorage β σ ρ] (topic_data : List TopicProduceData) (tm : Faults.TopicManager σ ρ β) :
    Except HerbertError Unit × Faults.TopicManager σ ρ β :=
  match topic_data[0]? with
  | none => (.error .NoTopicData, tm)
  | some first_topic =>
    match first_topic.partition_data[0]? with
    | none => (.error .NoPartitionData, tm)
    | some partition_data =>
      match partition_data.records with
      | none => (.error .NoRecordData, tm)
      | some records => tm.add ipc first_topic.name records

def handle_produce_request [RecordStorage β σ ρ] (kafka : KafkaCodec) (buf : Bytes) (api_version : Int)
    (tm : Faults.TopicManager σ ρ β) : Except HerbertError Unit × Faults.TopicManager σ ρ β :=
  match kafka.produce_request.decode api_version buf with
  | some (⟨topic_data⟩, _) => handle_topic_data ipc topic_data tm
  -- logged, and answered like a request that was handled
  | none => (.ok (), tm)

theorem handle_produce_request_some [RecordStorage β σ ρ] {kafka : KafkaCodec} {buf rest : Bytes} {api_version : Int}
    {request : ProduceRequest} (hdec : kafka.produce_request.decode api_version buf = some (request, rest))
    {e : String × Bytes} (h : first_records request = some e) (tm : Faults.TopicManager σ ρ β) :
    handle_produce_request ipc kafka buf api_version tm = tm.add ipc e.1 e.2 := by
  rw [handle_produce_request, hdec]
  match request with
  | ⟨[]⟩ | ⟨⟨_, []⟩ :: _⟩ | ⟨⟨_, ⟨none⟩ :: _⟩ :: _⟩ => cases h
  | ⟨⟨_, ⟨some _⟩ :: _⟩ :: _⟩ => cases h; rfl

theorem handle_produce_request_error [RecordStorage β σ ρ] {kafka : KafkaCodec} {buf rest : Bytes} {api_version : Int}
    {request : ProduceRequest} (hdec : kafka.produce_request.decode api_version buf = some (request, rest))
    (h : first_records request = none) (tm : Faults.TopicManager σ ρ β) :
    ∃ e, handle_produce_request ipc kafka buf api_version tm = (.error e, tm) := by
  rw [handle_produce_request, hdec]
  match request with
  | ⟨[]⟩ | ⟨⟨_, []⟩ :: _⟩ | ⟨⟨_, ⟨none⟩ :: _⟩ :: _⟩ => exact ⟨_, rfl⟩
  | ⟨⟨_, ⟨some _⟩ :: _⟩ :: _⟩ => cases h

/-- The bytes change nothing, or their first records are added. -/
theorem handle_produce_request_cases [RecordStorage β σ ρ] (kafka : KafkaCodec) (buf : Bytes) (api_version : Int)
    (tm : Faults.TopicManager σ ρ β) :
    (requested kafka buf api_version = none ∧ (handle_produce_request ipc kafka buf api_version tm).2 = tm) ∨
      ∃ e, requested kafka buf api_version = some e ∧
        handle_produce_request ipc kafka buf api_version tm = tm.add ipc e.1 e.2 := by
  unfold requested
  cases hdec : kafka.produce_request.decode api_version buf with
  | none => exact .inl ⟨rfl, by rw [handle_produce_request, hdec]⟩
  | some x =>
    obtain ⟨request, rest⟩ := x
    cases hfirst : first_records request with
    | none =>
      obtain ⟨e, he⟩ := handle_produce_request_error ipc hdec hfirst tm
      exact .inl ⟨hfirst, by rw [he]⟩
    | some e => exact .inr ⟨e, hfirst, handle_produce_request_some ipc hdec hfirst tm⟩

/-- With frames that the file takes whole this is the handler without faults. -/
theorem handle_produce_request_steady [RecordStorage β σ ρ] (kafka : KafkaCodec) (buf : Bytes) (api_version : Int)
    {limit : Nat} {tm : Faults.TopicManager σ ρ β} (h : tm.wal.Steady limit)
    (hfit : ∀ e r, requested kafka buf api_version = some e → stored_record ipc tm.topic_metadatas e.1 e.2 = .ok r →
      (frame ipc (e.1, r)).length ≤ limit) :
    let handled := herbert.handle_produce_request ipc ((kafka.produce_request.decode api_version buf).map Prod.fst)
      tm.settled
    (handle_produce_request ipc kafka buf api_version tm).1 = handled.1 ∧
      (handle_produce_request ipc kafka buf api_version tm).2.settled = handled.2 := by
  unfold requested at hfit
  cases hdec : kafka.produce_request.decode api_version buf with
  | none =>
    rw [handle_produce_request, hdec]
    exact ⟨rfl, rfl⟩
  | some x =>
    obtain ⟨⟨topic_data⟩, rest⟩ := x
    rw [hdec] at hfit
    rw [handle_produce_request, hdec]
    match topic_data with
    | [] | ⟨_, []⟩ :: _ | ⟨_, ⟨none⟩ :: _⟩ :: _ => exact ⟨rfl, rfl⟩
    | ⟨name, ⟨some records⟩ :: _⟩ :: _ =>
      obtain ⟨hfst, hsnd, -⟩ := Faults.TopicManager.add_steady ipc h fun r hr => hfit (name, records) r rfl hr
      exact ⟨hfst, hsnd⟩

/-! ### What its Ok is worth -/

/-- The records of every topic and partition of a request. -/
def carried (request : ProduceRequest) : List (String × Bytes) :=
  request.topic_data.flatMap fun topic =>
    topic.partition_data.filterMap fun partition => partition.records.map fun records => (topic.name, records)

theorem carried_of_first {request : ProduceRequest} {e : String × Bytes} (h : first_records request = some e) :
    ∃ es, carried request = e :: es := by
  match request with
  | ⟨[]⟩ | ⟨⟨_, []⟩ :: _⟩ | ⟨⟨_, ⟨none⟩ :: _⟩ :: _⟩ => cases h
  | ⟨⟨_, ⟨some _⟩ :: _⟩ :: _⟩ => cases h; exact ⟨_, rfl⟩

/-- What the topics store for the records, if they store all of them. -/
def stored_records (m : HashMap String (TopicMetadata σ)) : List (String × Bytes) → Option (History σ ρ)
  | [] => some []
  | (topic, records) :: es =>
    match stored_record ipc m topic records, stored_records m es with
    | .ok r, some rs => some ((topic, r) :: rs)
    | _, _ => none

/-- Every record of the request is behind those of its topic. -/
def Appended (request : ProduceRequest) (tm tm' : Faults.TopicManager σ ρ (InMemoryLog σ ρ)) : Prop :=
  ∃ rs, stored_records ipc tm.topic_metadatas (carried request) = some rs ∧
    ∀ t, log_of tm'.settled t = log_of tm.settled t ++ rs.ofTopic t

/-- The record fits the topic, the `BufWriter` takes the frame, and if the buffer
is flushed then the file takes what is pending. -/
def Accepts (tm : Faults.TopicManager σ ρ (InMemoryLog σ ρ)) (t : String) (record : Bytes) : Prop :=
  ∃ r w n, stored_record ipc tm.topic_metadatas t record = .ok r ∧ serialize ipc t r = .ok w ∧
    (tm.wal.file.write w).1 = .ok n ∧
    (tm.wal.config.num_uncommitted_messages ≤ tm.wal.buffer.length + 1 → (tm.wal.file.write w).2.flush.1 = .ok ())

variable {ipc}

theorem add_accepts {tm : Faults.TopicManager σ ρ (InMemoryLog σ ρ)} {t : String} {record : Bytes}
    (h : Accepts ipc tm t record) :
    (tm.add ipc t record).1 = .ok () ∧ ∃ r, stored_record ipc tm.topic_metadatas t record = .ok r ∧
      ∀ t', log_of (tm.add ipc t record).2.settled t' = log_of tm.settled t' ++ if t = t' then [r] else [] := by
  obtain ⟨r, w, n, hr, hs, hw, hflush⟩ := h
  have hadd := Faults.TopicManager.add_logged hr (Faults.WriteAheadLog.add_written hs (Prod.ext hw rfl))
  rw [hadd]
  split
  · rename_i hneed
    have hok := hflush (by simpa [Faults.WriteAheadLog.need_to_flush] using hneed)
    rw [Faults.WriteAheadLog.flush_written (Prod.ext hok rfl)]
    refine ⟨by rw [drain_log], r, hr, fun t' => ?_⟩
    simp [log_of, Faults.TopicManager.settled, Faults.WriteAheadLog.settled, drain_log, InMemoryLog.queue_addAll,
      History.ofTopic_singleton]
  · refine ⟨rfl, r, hr, fun t' => ?_⟩
    simp [log_of, Faults.TopicManager.settled, Faults.WriteAheadLog.settled, History.ofTopic_singleton]

theorem accepts_of_ok {tm : Faults.TopicManager σ ρ (InMemoryLog σ ρ)} {t : String} {record : Bytes}
    (h : (tm.add ipc t record).1 = .ok ()) : Accepts ipc tm t record := by
  rcases Faults.TopicManager.add_cases ipc tm t record with
    ⟨e, hadd, -⟩ | ⟨r, w, hr, hs, ⟨e, file, -, hadd⟩ | ⟨n, file, hw, hadd⟩⟩
  · rw [hadd] at h
    cases h
  · rw [hadd] at h
    cases h
  · refine ⟨r, w, n, hr, hs, by rw [hw], fun hneed => ?_⟩
    dsimp only at hadd
    rw [hadd, if_pos hneed] at h
    rw [hw]
    cases hf : file.flush with
    | mk result file' =>
      cases result with
      | ok u => rfl
      | error e =>
        rw [Faults.WriteAheadLog.flush_unwritten hf] at h
        cases h

theorem stored_records_cons {m : HashMap String (TopicMetadata σ)} {e : String × Bytes} {es : List (String × Bytes)}
    {rs : History σ ρ} (h : stored_records ipc m (e :: es) = some rs) :
    ∃ r rs', stored_record ipc m e.1 e.2 = .ok r ∧ stored_records ipc m es = some rs' ∧ rs = (e.1, r) :: rs' := by
  rw [stored_records] at h
  split at h
  · rename_i r rs' hr hrs
    cases h
    exact ⟨r, rs', hr, hrs, rfl⟩
  · cases h

/-- When the first record was appended, and nothing else, all records of the
request were exactly if there is no other. -/
theorem appended_iff {request : ProduceRequest} {tm tm' : Faults.TopicManager σ ρ (InMemoryLog σ ρ)}
    {e : String × Bytes} {es : List (String × Bytes)} {r : StoredRecord σ ρ} (hes : carried request = e :: es)
    (hr : stored_record ipc tm.topic_metadatas e.1 e.2 = .ok r)
    (hlog : ∀ t, log_of tm'.settled t = log_of tm.settled t ++ if e.1 = t then [r] else []) :
    Appended ipc request tm tm' ↔ carried request = [e] := by
  rw [Appended, hes]
  constructor
  · rintro ⟨rs, hrs, hall⟩
    obtain ⟨r', rs', hr', hrs', rfl⟩ := stored_records_cons hrs
    rw [hr] at hr'
    cases hr'
    have hnone : rs' = [] := History.eq_nil_of_ofTopic fun t => by
      have := (hlog t).symm.trans (hall t)
      rw [History.ofTopic_cons, History.ofTopic_singleton, List.append_cancel_left_eq] at this
      exact List.self_eq_append_right.1 this
    subst hnone
    match es with
    | [] => rfl
    | e' :: es =>
      obtain ⟨r'', rs'', -, -, hcons⟩ := stored_records_cons hrs'
      cases hcons
  · intro hone
    cases hone
    refine ⟨[(e.1, r)], by simp [stored_records, hr], fun t => ?_⟩
    rw [hlog, History.ofTopic_singleton]

variable (ipc) in
/-- An `Ok` says that every record of the request was appended. -/
def ProduceTold (kafka : KafkaCodec) (buf : Bytes) (api_version : Int)
    (tm : Faults.TopicManager σ ρ (InMemoryLog σ ρ)) : Prop :=
  (handle_produce_request ipc kafka buf api_version tm).1 = .ok () →
    ∃ request rest, kafka.produce_request.decode api_version buf = some (request, rest) ∧
      Appended ipc request tm (handle_produce_request ipc kafka buf api_version tm).2

/-- The bytes decode, and if the record that is looked at can be added then it is
the only one of the request. -/
theorem produceTold_iff (kafka : KafkaCodec) (buf : Bytes) (api_version : Int)
    (tm : Faults.TopicManager σ ρ (InMemoryLog σ ρ)) :
    ProduceTold ipc kafka buf api_version tm ↔
      ∃ request rest, kafka.produce_request.decode api_version buf = some (request, rest) ∧
        ∀ e, first_records request = some e → Accepts ipc tm e.1 e.2 → carried request = [e] := by
  unfold ProduceTold
  cases hdec : kafka.produce_request.decode api_version buf with
  | none =>
    refine iff_of_false (fun h => ?_) (by simp)
    obtain ⟨request, rest, hsome, -⟩ := h (by rw [handle_produce_request, hdec])
    cases hsome
  | some x =>
    obtain ⟨request, rest⟩ := x
    have honly : ∀ P : ProduceRequest → Prop,
        (∃ request' rest', some (request, rest) = some (request', rest') ∧ P request') ↔ P request := by
      simp
    rw [honly, honly]
    cases hfirst : first_records request with
    | none =>
      obtain ⟨e, he⟩ := handle_produce_request_error ipc hdec hfirst tm
      exact iff_of_true (fun h => by rw [he] at h; cases h) (by simp)
    | some e =>
      rw [handle_produce_request_some ipc hdec hfirst]
      by_cases hacc : Accepts ipc tm e.1 e.2
      · obtain ⟨hok, r, hr, hlog⟩ := add_accepts hacc
        obtain ⟨es, hes⟩ := carried_of_first hfirst
        simp only [Option.some.injEq, forall_eq', hacc, forall_const, hok]
        exact appended_iff hes hr hlog
      · refine iff_of_true (fun h => absurd (accepts_of_ok h) hacc) ?_
        rintro e' he' hacc'
        cases he'
        exact absurd hacc' hacc

/-- A request that decodes and is answered with `Ok` had its first record appended,
and nothing else. -/
theorem produce_ok {kafka : KafkaCodec} {buf rest : Bytes} {api_version : Int} {request : ProduceRequest}
    (hdec : kafka.produce_request.decode api_version buf = some (request, rest))
    {tm : Faults.TopicManager σ ρ (InMemoryLog σ ρ)}
    (hok : (handle_produce_request ipc kafka buf api_version tm).1 = .ok ()) :
    ∃ e r, first_records request = some e ∧ stored_record ipc tm.topic_metadatas e.1 e.2 = .ok r ∧
      ∀ t, log_of (handle_produce_request ipc kafka buf api_version tm).2.settled t =
        log_of tm.settled t ++ if e.1 = t then [r] else [] := by
  cases hfirst : first_records request with
  | none =>
    obtain ⟨e, he⟩ := handle_produce_request_error ipc hdec hfirst tm
    rw [he] at hok
    cases hok
  | some e =>
    rw [handle_produce_request_some ipc hdec hfirst] at hok ⊢
    obtain ⟨-, r, hr, hlog⟩ := add_accepts (accepts_of_ok hok)
    exact ⟨e, r, rfl, hr, hlog⟩

/-! ### Exact acceptance -/

variable (ipc)

/-- The topic stores `r` for the bytes: on a topic with a schema the first batch
of the stream they are, and else the bytes. -/
def Storable (m : HashMap String (TopicMetadata σ)) (topic : String) (records : Bytes) (r : StoredRecord σ ρ) : Prop :=
  match (m.lookup topic).bind (·.schema) with
  | some schema =>
    8 ≤ records.length ∧ (continuation <+: records ∨ arrow1 <+: records) ∧
      ∃ batch rest, ipc.read records = .ok (.ok batch :: rest) ∧ batch.schema = schema ∧ r = .Batch batch
  | none => r = .Raw records

omit [DecidableEq σ] in
theorem magic_iff (records : Bytes) : (continuation <+: records ∨ arrow1 <+: records) ↔
    ¬ (records.take 6 ≠ arrow1 ∧ records.take 4 ≠ continuation) := by
  rw [List.prefix_iff_eq_take, List.prefix_iff_eq_take, not_and_or, not_not, not_not, or_comm]
  exact or_congr eq_comm eq_comm

theorem parse_iff (records : Bytes) (schema : σ) (batch : RecordBatch σ ρ) :
    parse_record_batch_from_bytes ipc records schema = .ok batch ↔
      8 ≤ records.length ∧ (continuation <+: records ∨ arrow1 <+: records) ∧
        ∃ rest, ipc.read records = .ok (.ok batch :: rest) ∧ batch.schema = schema := by
  rw [magic_iff]
  unfold parse_record_batch_from_bytes
  by_cases hlen : records.length < 8
  · rw [if_pos hlen]
    exact iff_of_false (fun h => by cases h) fun h => absurd h.1 (Nat.not_le.2 hlen)
  rw [if_neg hlen]
  by_cases hmagic : records.take 6 ≠ arrow1 ∧ records.take 4 ≠ continuation
  · rw [if_pos hmagic]
    exact iff_of_false (fun h => by cases h) fun h => absurd hmagic h.2.1
  rw [if_neg hmagic]
  cases hread : ipc.read records with
  | error e => simp
  | ok items =>
    match items with
    | [] => simp
    | .error e :: _ => simp
    | .ok b :: bs =>
      by_cases hs : b.schema = schema
      · simp only [hs, ne_eq, not_true_eq_false, if_false, Except.ok.injEq, List.cons.injEq]
        constructor
        · rintro rfl
          exact ⟨by omega, hmagic, bs, ⟨rfl, rfl⟩, hs⟩
        · rintro ⟨-, -, rest, ⟨rfl, -⟩, -⟩
          rfl
      · simp only [ne_eq, hs, not_false_eq_true, if_true, Except.ok.injEq, List.cons.injEq]
        constructor
        · intro h
          cases h
        · rintro ⟨-, -, rest, ⟨rfl, -⟩, hs'⟩
          exact absurd hs' hs

theorem stored_record_iff (m : HashMap String (TopicMetadata σ)) (topic : String) (records : Bytes)
    (r : StoredRecord σ ρ) : stored_record ipc m topic records = .ok r ↔ Storable ipc m topic records r := by
  have hraw : (.ok (.Raw records) : Except HerbertError (StoredRecord σ ρ)) = .ok r ↔ r = .Raw records :=
    ⟨fun h => (Except.ok.inj h).symm, fun h => congrArg _ h.symm⟩
  unfold stored_record Storable
  match m.lookup topic with
  | none | some ⟨_, none⟩ => exact hraw
  | some ⟨_, some schema⟩ =>
    dsimp only [Option.bind_some]
    cases hp : parse_record_batch_from_bytes ipc records schema with
    | error e =>
      refine iff_of_false (fun h => by cases h) ?_
      rintro ⟨hlen, hmagic, batch, rest, hread, hs, -⟩
      rw [(parse_iff ipc records schema batch).2 ⟨hlen, hmagic, rest, hread, hs⟩] at hp
      cases hp
    | ok b =>
      obtain ⟨hlen, hmagic, rest, hread, hs⟩ := (parse_iff ipc records schema b).1 hp
      constructor
      · intro h
        cases h
        exact ⟨hlen, hmagic, b, rest, hread, hs, rfl⟩
      · rintro ⟨-, -, b', rest', hread', -, rfl⟩
        rw [hread] at hread'
        cases hread'
        rfl

/-- The bytes are a request whose first records are stored as `r`. -/
def Accepted (kafka : KafkaCodec) (m : HashMap String (TopicMetadata σ)) (buf : Bytes) (api_version : Int)
    (topic : String) (r : StoredRecord σ ρ) : Prop :=
  ∃ records, requested kafka buf api_version = some (topic, records) ∧ Storable ipc m topic records r

/-- The bytes append one frame to the log, and one record to the topic's, if they
are accepted, and else change nothing. -/
def ProduceExact (kafka : KafkaCodec) (buf : Bytes) (api_version : Int)
    (tm : Faults.TopicManager σ ρ (InMemoryLog σ ρ)) : Prop :=
  let after := (handle_produce_request ipc kafka buf api_version tm).2
  (∀ t r, Accepted ipc kafka tm.topic_metadatas buf api_version t r →
    ∃ w, serialize ipc t r = .ok w ∧ after.wal.file.contents = tm.wal.file.contents ++ w ∧
      after.topic_metadatas = tm.topic_metadatas ∧
      ∀ t', log_of after.settled t' = log_of tm.settled t' ++ if t = t' then [r] else []) ∧
  ((¬ ∃ t r, Accepted ipc kafka tm.topic_metadatas buf api_version t r) → after = tm)

variable {ipc}

omit [DecidableEq σ] in
theorem not_accepted {kafka : KafkaCodec} {m : HashMap String (TopicMetadata σ)} {buf : Bytes} {api_version : Int}
    (h : requested kafka buf api_version = none) (t : String) (r : StoredRecord σ ρ) :
    ¬ Accepted ipc kafka m buf api_version t r := by
  rintro ⟨records, hsome, -⟩
  rw [h] at hsome
  cases hsome

theorem accepted_iff {kafka : KafkaCodec} {m : HashMap String (TopicMetadata σ)} {buf : Bytes} {api_version : Int}
    {e : String × Bytes} (h : requested kafka buf api_version = some e) (t : String) (r : StoredRecord σ ρ) :
    Accepted ipc kafka m buf api_version t r ↔ t = e.1 ∧ stored_record ipc m e.1 e.2 = .ok r := by
  rw [Accepted, h]
  constructor
  · rintro ⟨records, he, hstore⟩
    cases he
    exact ⟨rfl, (stored_record_iff ipc _ _ _ _).2 hstore⟩
  · rintro ⟨rfl, hr⟩
    exact ⟨e.2, rfl, (stored_record_iff ipc _ _ _ _).1 hr⟩

/-- With a file that does not fail a record that is stored is added. -/
theorem accepts_of_works (hipc : ipc.Lawful) {tm : Faults.TopicManager σ ρ (InMemoryLog σ ρ)} (hw : tm.wal.file.Works)
    {t : String} {record : Bytes} {r : StoredRecord σ ρ} (hr : stored_record ipc tm.topic_metadatas t record = .ok r) :
    Accepts ipc tm t record := by
  obtain ⟨n, hn, hw'⟩ := BufWriter.write_works hw (frame ipc (t, r))
  exact ⟨r, _, n, hr, serialize_writable ipc (writable_of_lawful hipc r) t, hn, fun _ => (BufWriter.flush_works hw').1⟩

/-- A record that is stored is added exactly if the file does not cut its frame
short. -/
theorem exact_iff_uncut (hipc : ipc.Lawful) {kafka : KafkaCodec} {buf : Bytes} {api_version : Int}
    {tm : Faults.TopicManager σ ρ (InMemoryLog σ ρ)} (hw : tm.wal.file.Works) {e : String × Bytes} {r : StoredRecord σ ρ}
    (hsome : requested kafka buf api_version = some e) (hr : stored_record ipc tm.topic_metadatas e.1 e.2 = .ok r) :
    ProduceExact ipc kafka buf api_version tm ↔ ¬ Faults.CutShort ipc tm.wal (e.1, r) := by
  have hadd : handle_produce_request ipc kafka buf api_version tm = tm.add ipc e.1 e.2 := by
    rcases handle_produce_request_cases ipc kafka buf api_version tm with ⟨hnone, -⟩ | ⟨e', he', hadd⟩
    · rw [hsome] at hnone
      cases hnone
    · rw [hsome] at he'
      cases he'
      exact hadd
  obtain ⟨hok, r', hr', hlog⟩ := add_accepts (accepts_of_works hipc hw hr)
  rw [hr] at hr'
  cases hr'
  obtain ⟨hcontents, hmap⟩ := Faults.TopicManager.contents_add hr
  obtain ⟨n, hn, -⟩ := BufWriter.write_works hw (frame ipc (e.1, r))
  have hlogged := Faults.WriteAheadLog.add_written (serialize_writable ipc (writable_of_lawful hipc r) e.1)
    (Prod.ext hn rfl)
  unfold ProduceExact
  simp only [accepted_iff hsome]
  rw [hadd, hcontents, hmap, ← Faults.add_whole_iff ipc tm.wal (e.1, r)]
  constructor
  · rintro ⟨h, -⟩ -
    obtain ⟨w, hs, hc, -⟩ := h e.1 r ⟨rfl, hr⟩
    exact ⟨w, hs, hc⟩
  · intro h
    refine ⟨?_, fun hno => absurd ⟨e.1, r, rfl, hr⟩ hno⟩
    rintro t r' ⟨rfl, hr'⟩
    cases hr.symm.trans hr'
    obtain ⟨w, hs, hc⟩ := h (by rw [hlogged])
    exact ⟨w, hs, hc, rfl, hlog⟩

/-- With a file that does not fail a produce request is accepted or ignored
exactly, if and only if the file does not cut the frame short. -/
theorem produce_exact_iff (hipc : ipc.Lawful) (kafka : KafkaCodec) (buf : Bytes) (api_version : Int)
    {tm : Faults.TopicManager σ ρ (InMemoryLog σ ρ)} (hw : tm.wal.file.Works) :
    ProduceExact ipc kafka buf api_version tm ↔
      ∀ t r, Accepted ipc kafka tm.topic_metadatas buf api_version t r → ¬ Faults.CutShort ipc tm.wal (t, r) := by
  rcases handle_produce_request_cases ipc kafka buf api_version tm with ⟨hnone, hsame⟩ | ⟨e, hsome, hadd⟩
  · have hno : ∀ t r, ¬ Accepted ipc kafka tm.topic_metadatas buf api_version t r := not_accepted hnone
    exact iff_of_true ⟨fun t r h => absurd h (hno t r), fun _ => hsame⟩ fun t r h => absurd h (hno t r)
  simp only [accepted_iff hsome]
  cases hr : stored_record ipc tm.topic_metadatas e.1 e.2 with
  | error err =>
    refine iff_of_true ⟨fun t r h => ?_, fun _ => ?_⟩ (by simp)
    · have := ((accepted_iff hsome t r).1 h).2
      rw [hr] at this
      cases this
    · rw [hadd, Faults.TopicManager.add_refused hr]
  | ok r =>
    rw [exact_iff_uncut hipc hw hsome hr]
    constructor
    · rintro h t r' ⟨rfl, hr'⟩
      cases hr'
      exact h
    · exact fun h => h e.1 r ⟨rfl, rfl⟩

end

/-- The file takes one byte of the first write, and the frame is buffered. -/
theorem produce_exact_iff_pocket :
    let tm : Faults.TopicManager UInt8 UInt8 (InMemoryLog UInt8 UInt8) :=
      ⟨.new, (∅ : HashMap String (TopicMetadata UInt8)).insert "t" ⟨"t", some 7⟩, .new ⟨1⟩ [] [.took 0]⟩
    let records : Bytes := [255, 255, 255, 255, 7, 3, 1, 5, 2, 0, 0, 0]
    let buf := (pocketKafka.produce_request.encode 9 (create_produce_request "t" records)).1
    let after := (handle_produce_request pocketIpc pocketKafka buf 9 tm).2
    after.wal.file.contents = [116, 10, 1, 12, 0, 0, 0, 255, 255, 255, 255, 7, 3, 1, 5, 2, 0, 0, 0] ∧
      log_of after.settled "t" = [.Batch ⟨7, [5]⟩] := by
  intro tm records buf after
  have hreq : requested pocketKafka buf 9 = some ("t", records) := by decide +kernel
  have hr : stored_record pocketIpc tm.topic_metadatas "t" records = .ok (.Batch ⟨7, [5]⟩) := by decide
  have huncut : ∀ t r, Accepted pocketIpc pocketKafka tm.topic_metadatas buf 9 t r →
      ¬ Faults.CutShort pocketIpc tm.wal (t, r) := by
    intro t r hacc
    obtain ⟨rfl, hr'⟩ := (accepted_iff hreq t r).1 hacc
    rw [hr] at hr'
    cases hr'
    exact Faults.not_cutShort pocketIpc (by decide)
  have hexact : ProduceExact pocketIpc pocketKafka buf 9 tm :=
    (produce_exact_iff pocketIpc_framed.toLawful pocketKafka buf 9 (by simp [tm, BufWriter.Works, Faults.WriteAheadLog.new])).2
      huncut
  obtain ⟨w, hw, hcontents, -, hlog⟩ := hexact.1 "t" (.Batch ⟨7, [5]⟩) ((accepted_iff hreq _ _).2 ⟨rfl, hr⟩)
  refine ⟨?_, hlog "t"⟩
  cases hw
  exact hcontents

theorem requested_produce (records : Bytes) :
    requested pocketKafka (pocketKafka.produce_request.encode 9 (create_produce_request "t" records)).1 9 =
      some ("t", records) := by
  have hput : ((Format.produce_request 9).put (create_produce_request "t" records)).isSome := by
    simp [Format.produce_request, create_produce_request, create_topic_produce_data, Format.compactArray, Format.compactText,
      Codec.via, Codec.trail, Codec.lead, Codec.seq, Codec.fixed, Codec.required, Codec.nullableArray, Codec.nullableBytes,
      Codec.nullableText, Codec.nullable, Codec.times, Codec.bytes, Codec.compactLen, Codec.varint]
  obtain ⟨w, hw⟩ := Option.isSome_iff_exists.1 hput
  have hdec : (Format.produce_request 9).get w = some (create_produce_request "t" records, []) := by
    have := Format.lawful_produce_request 9 _ w [] hw
    rwa [List.append_nil] at this
  show (((Format.produce_request 9).get (((Format.produce_request 9).put _).getD [])).bind fun x => first_records x.1) = _
  rw [hw, Option.getD_some, hdec]
  rfl

/-- Of a frame of 8199 bytes the file takes one, and the request is answered
with `Ok`. -/
theorem frame_cut :
    let tm : Faults.TopicManager UInt8 UInt8 (InMemoryLog UInt8 UInt8) := ⟨.new, ∅, .new ⟨1⟩ [] [.took 0]⟩
    let buf := (pocketKafka.produce_request.encode 9 (create_produce_request "t" (List.replicate 8192 7))).1
    tm.wal.file.Works ∧ ¬ ProduceExact pocketIpc pocketKafka buf 9 tm := by
  have hbs : (List.replicate 8192 (7 : UInt8)).length = 8192 := List.length_replicate
  generalize List.replicate 8192 (7 : UInt8) = bs at hbs ⊢
  intro tm buf
  have hworks : tm.wal.file.Works := by simp [tm, BufWriter.Works, Faults.WriteAheadLog.new]
  refine ⟨hworks, fun h => ?_⟩
  have hlen : 8192 < (frame pocketIpc ("t", .Raw bs)).length := by
    rw [length_frame, payload]
    omega
  have hcut : Faults.CutShort pocketIpc tm.wal ("t", .Raw bs) :=
    ⟨_, serialize_writable pocketIpc (r := .Raw bs) trivial "t", hlen.le, rfl, 0, [], rfl, by omega⟩
  exact (exact_iff_uncut pocketIpc_framed.toLawful hworks (requested_produce bs) (r := .Raw bs) rfl).1 h hcut

/-! ## The commit handler -/

/-- How `fs::write` ends: a failed one may leave anything in the file. -/
inductive FsWrite where
  | done
  | failed (e : IoError) (left : Option Bytes)
deriving DecidableEq, Repr

def flush (json : OffsetJson) (fs_write : FsWrite) (om : OffsetManager) : Except HerbertError Unit × OffsetManager :=
  match json.to_string (OffsetManager.flushed_map om.offsets), fs_write with
  | none, _ => (.error .Serialization, om)
  | some text, .done => (.ok (), { om with file := some text })
  | some _, .failed e left => (.error (.Io e), { om with file := left })

def set_offset (json : OffsetJson) (fs_write : FsWrite) (om : OffsetManager) (consumer_group topic : String)
    (offset : Int) : Except HerbertError Unit × OffsetManager :=
  flush json fs_write { om with offsets := om.offsets.insert (consumer_group, topic) offset }

def handle_offset_commit_request (kafka : KafkaCodec) (json : OffsetJson) (fs_write : FsWrite) (buf : Bytes)
    (api_version : Int) (om : OffsetManager) : Except HerbertError Unit × OffsetManager :=
  match kafka.offset_commit_request.decode api_version buf with
  | none => (.error .RequestDecode, om)
  | some (⟨group_id, topics⟩, _) =>
    match topics[0]? with
    | none => (.error .NoTopicData, om)
    | some first_topic =>
      match first_topic.partitions[0]? with
      | none => (.error .NoPartitionData, om)
      | some first_partition =>
        -- `let _ = offset_manager.set_offset(..)`
        (.ok (), (set_offset json fs_write om group_id first_topic.name first_partition.committed_offset).2)

/-- When `fs::write` succeeds this is the handler without faults. -/
theorem handle_offset_commit_request_done (kafka : KafkaCodec) (json : OffsetJson) (buf : Bytes) (api_version : Int)
    (om : OffsetManager) :
    handle_offset_commit_request kafka json .done buf api_version om =
      herbert.handle_offset_commit_request json ((kafka.offset_commit_request.decode api_version buf).map Prod.fst)
        om := by
  have hset : ∀ g t o, set_offset json .done om g t o = om.set_offset json g t o := fun g t o => by
    simp only [set_offset, flush, OffsetManager.set_offset, OffsetManager.flush]
    split <;> simp_all
  unfold handle_offset_commit_request herbert.handle_offset_commit_request
  simp only [hset]
  cases kafka.offset_commit_request.decode api_version buf <;> rfl

/-- The topic and the offset that are looked at. -/
def first_offset (request : OffsetCommitRequest) : Option (String × Int) :=
  request.topics.head?.bind fun topic =>
    topic.partitions.head?.map fun partition => (topic.name, partition.committed_offset)

/-- The offsets of every topic and partition of a request. -/
def carried_offsets (request : OffsetCommitRequest) : List (String × Int) :=
  request.topics.flatMap fun topic => topic.partitions.map fun partition => (topic.name, partition.committed_offset)

/-- The file has the text after the call. -/
def FsWrite.Leaves (text : Bytes) : FsWrite → Prop
  | .done => True
  | .failed _ left => left = some text

/-- Every offset of the request is stored, and the file is that of the map. -/
def Committed (json : OffsetJson) (request : OffsetCommitRequest) (om : OffsetManager) : Prop :=
  (∀ e ∈ carried_offsets request, om.offsets.lookup (request.group_id, e.1) = some e.2) ∧
    ∃ text, json.to_string (OffsetManager.flushed_map om.offsets) = some text ∧ om.file = some text

/-- An `Ok` says that every offset of the request was committed. -/
def CommitTold (kafka : KafkaCodec) (json : OffsetJson) (fs_write : FsWrite) (buf : Bytes) (api_version : Int)
    (om : OffsetManager) : Prop :=
  (handle_offset_commit_request kafka json fs_write buf api_version om).1 = .ok () →
    ∃ request rest, kafka.offset_commit_request.decode api_version buf = some (request, rest) ∧
      Committed json request (handle_offset_commit_request kafka json fs_write buf api_version om).2

theorem offsets_set_offset (json : OffsetJson) (fs_write : FsWrite) (om : OffsetManager) (g t : String) (o : Int) :
    (set_offset json fs_write om g t o).2.offsets = om.offsets.insert (g, t) o := by
  unfold set_offset flush
  split <;> rfl

/-- The file is that of the map after the call if the map can be written, and
`fs::write` leaves it there. -/
theorem file_set_offset (json : OffsetJson) (fs_write : FsWrite) (om : OffsetManager) (g t : String) (o : Int) :
    (∃ text, json.to_string (OffsetManager.flushed_map (om.offsets.insert (g, t) o)) = some text ∧
      (set_offset json fs_write om g t o).2.file = some text) ↔
    ∃ text, json.to_string (OffsetManager.flushed_map (om.offsets.insert (g, t) o)) = some text ∧
      fs_write.Leaves text := by
  unfold set_offset flush
  cases hjson : json.to_string (OffsetManager.flushed_map (om.offsets.insert (g, t) o)) with
  | none => simp
  | some text => cases fs_write <;> simp [FsWrite.Leaves]

theorem handle_offset_commit_request_some {kafka : KafkaCodec} {buf rest : Bytes} {api_version : Int}
    {request : OffsetCommitRequest}
    (hdec : kafka.offset_commit_request.decode api_version buf = some (request, rest)) {e : String × Int}
    (h : first_offset request = some e) (json : OffsetJson) (fs_write : FsWrite) (om : OffsetManager) :
    handle_offset_commit_request kafka json fs_write buf api_version om =
      (.ok (), (set_offset json fs_write om request.group_id e.1 e.2).2) := by
  rw [handle_offset_commit_request, hdec]
  match request with
  | ⟨_, []⟩ | ⟨_, ⟨_, []⟩ :: _⟩ => cases h
  | ⟨_, ⟨_, ⟨_⟩ :: _⟩ :: _⟩ => cases h; rfl

theorem handle_offset_commit_request_error {kafka : KafkaCodec} {buf rest : Bytes} {api_version : Int}
    {request : OffsetCommitRequest}
    (hdec : kafka.offset_commit_request.decode api_version buf = some (request, rest))
    (h : first_offset request = none) (json : OffsetJson) (fs_write : FsWrite) (om : OffsetManager) :
    ∃ e, handle_offset_commit_request kafka json fs_write buf api_version om = (.error e, om) := by
  rw [handle_offset_commit_request, hdec]
  match request with
  | ⟨_, []⟩ | ⟨_, ⟨_, []⟩ :: _⟩ => exact ⟨_, rfl⟩
  | ⟨_, ⟨_, ⟨_⟩ :: _⟩ :: _⟩ => cases h

/-- An offset is stored after the call if it is the one that was set, or else was
stored before. -/
theorem lookup_set_offset (json : OffsetJson) (fs_write : FsWrite) (om : OffsetManager) (g t t' : String) (o o' : Int) :
    (set_offset json fs_write om g t o).2.offsets.lookup (g, t') = some o' ↔
      if t' = t then o' = o else om.offsets.lookup (g, t') = some o' := by
  rw [offsets_set_offset]
  split
  · rename_i h
    rw [h, AList.lookup_insert, Option.some.injEq, eq_comm]
  · rename_i h
    rw [AList.lookup_insert_ne (by simpa using h)]

/-- The offset that is looked at is written to the file, and the others are it or
were stored before. -/
theorem commitTold_iff (kafka : KafkaCodec) (json : OffsetJson) (fs_write : FsWrite) (buf : Bytes) (api_version : Int)
    (om : OffsetManager) :
    CommitTold kafka json fs_write buf api_version om ↔
      ∀ request rest e, kafka.offset_commit_request.decode api_version buf = some (request, rest) →
        first_offset request = some e →
        (∃ text, json.to_string (OffsetManager.flushed_map (om.offsets.insert (request.group_id, e.1) e.2)) =
          some text ∧ fs_write.Leaves text) ∧
        ∀ e' ∈ carried_offsets request,
          if e'.1 = e.1 then e'.2 = e.2 else om.offsets.lookup (request.group_id, e'.1) = some e'.2 := by
  unfold CommitTold
  cases hdec : kafka.offset_commit_request.decode api_version buf with
  | none =>
    refine iff_of_true (fun h => ?_) (by simp)
    rw [handle_offset_commit_request, hdec] at h
    cases h
  | some x =>
    obtain ⟨request, rest⟩ := x
    cases hfirst : first_offset request with
    | none =>
      obtain ⟨e, he⟩ := handle_offset_commit_request_error hdec hfirst json fs_write om
      refine iff_of_true (fun h => by rw [he] at h; cases h) ?_
      rintro request' rest' e' hsome he'
      cases hsome
      rw [hfirst] at he'
      cases he'
    | some e =>
      rw [handle_offset_commit_request_some hdec hfirst]
      have hfile := file_set_offset json fs_write om request.group_id e.1 e.2
      constructor
      · intro h request' rest' e' hsome he'
        cases hsome
        rw [hfirst] at he'
        cases he'
        obtain ⟨request', rest', hsome, hoffsets, htext⟩ := h rfl
        cases hsome
        rw [offsets_set_offset] at htext
        exact ⟨hfile.1 htext, fun e' he' => (lookup_set_offset _ _ _ _ _ _ _ _).1 (hoffsets e' he')⟩
      · intro h _
        obtain ⟨htext, hoffsets⟩ := h request rest e rfl hfirst
        refine ⟨request, rest, rfl, fun e' he' => (lookup_set_offset _ _ _ _ _ _ _ _).2 (hoffsets e' he'), ?_⟩
        rw [offsets_set_offset]
        exact hfile.2 htext

/-- A commit answered with `Ok` decodes and has its first offset stored; and the
file is that of the map, if the map can be written and `fs::write` succeeds. -/
theorem commit_ok {kafka : KafkaCodec} {json : OffsetJson} {fs_write : FsWrite} {buf : Bytes} {api_version : Int}
    {om : OffsetManager} (hok : (handle_offset_commit_request kafka json fs_write buf api_version om).1 = .ok ()) :
    ∃ request rest e, kafka.offset_commit_request.decode api_version buf = some (request, rest) ∧
      first_offset request = some e ∧
      (handle_offset_commit_request kafka json fs_write buf api_version om).2.offsets =
        om.offsets.insert (request.group_id, e.1) e.2 ∧
      ∀ text, json.to_string (OffsetManager.flushed_map (om.offsets.insert (request.group_id, e.1) e.2)) = some text →
        fs_write = .done → (handle_offset_commit_request kafka json fs_write buf api_version om).2.file = some text := by
  cases hdec : kafka.offset_commit_request.decode api_version buf with
  | none =>
    rw [handle_offset_commit_request, hdec] at hok
    cases hok
  | some x =>
    obtain ⟨request, rest⟩ := x
    cases hfirst : first_offset request with
    | none =>
      obtain ⟨e, he⟩ := handle_offset_commit_request_error hdec hfirst json fs_write om
      rw [he] at hok
      cases hok
    | some e =>
      rw [handle_offset_commit_request_some hdec hfirst]
      refine ⟨request, rest, e, rfl, hfirst, offsets_set_offset _ _ _ _ _ _, ?_⟩
      rintro text htext rfl
      obtain ⟨text', htext', hfile⟩ := (file_set_offset json .done om _ e.1 e.2).2 ⟨text, htext, trivial⟩
      rw [htext] at htext'
      cases htext'
      exact hfile

/-! ## Both handlers -/

/-- What an `Ok` of a write handler says. A request to produce that decodes had the
record of the first partition of its first topic appended, and nothing else. A
commit had the offset of its first partition stored, and if the map can be
written and `fs::write` succeeds then the file is that of the map. -/
theorem ok_first [DecidableEq σ] (ipc : ArrowIpc σ ρ) (kafka : KafkaCodec) (json : OffsetJson) (buf : Bytes)
    (api_version : Int) :
    (∀ (tm : Faults.TopicManager σ ρ (InMemoryLog σ ρ)) (request : ProduceRequest) (rest : Bytes),
      kafka.produce_request.decode api_version buf = some (request, rest) →
      let handled := handle_produce_request ipc kafka buf api_version tm
      handled.1 = .ok () →
      ∃ e r, first_records request = some e ∧ stored_record ipc tm.topic_metadatas e.1 e.2 = .ok r ∧
        ∀ t, log_of handled.2.settled t = log_of tm.settled t ++ if e.1 = t then [r] else []) ∧
    (∀ (fs_write : FsWrite) (om : OffsetManager),
      let handled := handle_offset_commit_request kafka json fs_write buf api_version om
      handled.1 = .ok () →
      ∃ request rest e, kafka.offset_commit_request.decode api_version buf = some (request, rest) ∧
        first_offset request = some e ∧ handled.2.offsets = om.offsets.insert (request.group_id, e.1) e.2 ∧
        ∀ text, json.to_string (OffsetManager.flushed_map handled.2.offsets) = some text → fs_write = .done →
          handled.2.file = some text) := by
  constructor
  · intro tm request rest hdec handled hok
    exact produce_ok hdec hok
  · intro fs_write om handled hok
    obtain ⟨request, rest, e, hdec, hfirst, hoffsets, hfile⟩ := commit_ok hok
    exact ⟨request, rest, e, hdec, hfirst, hoffsets, by rwa [hoffsets]⟩

/-- Requests of one record and of one offset. -/
theorem ok_first_one :
    let tm : Faults.TopicManager UInt8 UInt8 (InMemoryLog UInt8 UInt8) := ⟨.new, ∅, .new ⟨1⟩ [] []⟩
    let buf := (pocketKafka.produce_request.encode 9 (create_produce_request "t" [5])).1
    let commit := (pocketKafka.offset_commit_request.encode 9 (create_offset_commit_request "g" "t" 3)).1
    log_of (handle_produce_request pocketIpc pocketKafka buf 9 tm).2.settled "t" = [.Raw [5]] ∧
      (handle_offset_commit_request pocketKafka plainJson .done commit 9 .new).2.offsets.lookup ("g", "t") = some 3 := by
  intro tm buf commit
  have hdec : pocketKafka.produce_request.decode 9 buf = some (create_produce_request "t" [5], []) := by decide +kernel
  have hdec' : pocketKafka.offset_commit_request.decode 9 commit = some (create_offset_commit_request "g" "t" 3, []) := by
    decide +kernel
  obtain ⟨e, r, he, hr, hlog⟩ :=
    (ok_first pocketIpc pocketKafka plainJson buf 9).1 tm (create_produce_request "t" [5]) [] hdec (by decide +kernel)
  obtain ⟨request, rest, e', hreq, he', hoffsets, -⟩ :=
    (ok_first pocketIpc pocketKafka plainJson commit 9).2 .done .new (by decide +kernel)
  cases he
  cases hr
  rw [hdec'] at hreq
  cases hreq
  cases he'
  refine ⟨hlog "t", ?_⟩
  rw [hoffsets]
  exact AList.lookup_insert _

def two_partitions : ProduceRequest := ⟨[⟨"t", [⟨some [5]⟩, ⟨some [6]⟩]⟩]⟩

def two_topics : OffsetCommitRequest := ⟨"g", [⟨"t", [⟨3⟩]⟩, ⟨"u", [⟨4⟩]⟩]⟩

/-- The second partition and the second topic are dropped with an `Ok`. -/
theorem others_dropped :
    ¬ ProduceTold pocketIpc pocketKafka (pocketKafka.produce_request.encode 9 two_partitions).1 9
        (⟨.new, ∅, .new ⟨1⟩ [] []⟩ : Faults.TopicManager UInt8 UInt8 _) ∧
      ¬ CommitTold pocketKafka plainJson .done (pocketKafka.offset_commit_request.encode 9 two_topics).1 9 .new := by
  constructor
  · intro h
    have hdec : pocketKafka.produce_request.decode 9 (pocketKafka.produce_request.encode 9 two_partitions).1 =
        some (two_partitions, []) := by decide +kernel
    obtain ⟨request, rest, hreq, hall⟩ := (produceTold_iff _ _ _ _).1 h
    rw [hdec] at hreq
    cases hreq
    have honly := hall ("t", [5]) rfl (accepts_of_ok (by decide +kernel))
    exact absurd honly (by decide)
  · intro h
    have hdec : pocketKafka.offset_commit_request.decode 9 (pocketKafka.offset_commit_request.encode 9 two_topics).1 =
        some (two_topics, []) := by decide +kernel
    have hother := ((commitTold_iff _ _ _ _ _ _).1 h two_topics [] ("t", 3) hdec rfl).2 ("u", 4) (by decide)
    exact absurd hother (by decide)

end herbert.Handlers
