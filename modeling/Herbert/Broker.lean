import Herbert.Metadata
import Herbert.OffsetRecovery
import Herbert.Server
/-!
# The broker

What the server is for: a `Broker` has topics with at most one schema each, an
append-only log for each topic, and an offset for each consumer group and topic.

A server that flushes every record is this broker, also over kills: it answers
each request as the broker does, and `run` always comes up again with the same
logs and offsets (`server_refines`). Of the topics it knows those with a batch.
-/
open Lib Lib.Bytes Lib.Runs herbert.WriteAheadLog herbert.Recovery herbert.Metadata herbert.Fetch herbert.OffsetRecovery
open herbert.TopicManager (stored_record StoresLoggable storesLoggable_of)

namespace herbert

variable {σ ρ : Type}

structure Broker (σ ρ : Type) where
  /-- `none` for a topic that nobody created. -/
  schema : String → Option (Option σ)
  log : String → List (StoredRecord σ ρ)
  offset : String → String → Int

/-- What a request asks for. -/
inductive Broker.Op (σ : Type) where
  | produce (topic : String) (record : Bytes)
  | fetch (topic : String) (fetch_offset : Int)
  | commit (group_id topic : String) (offset : Int)
  | offset (group_id topic : String)
  | create (topic : String) (schema : Option σ)
  | refuse (e : HerbertError)
  | ignore

/-- Only the first partition of the first topic counts. -/
def KafkaRequest.op : KafkaRequest → Broker.Op σ
  | .Produce none => .ignore
  | .Produce (some ⟨[]⟩) => .refuse .NoTopicData
  | .Produce (some ⟨⟨_, []⟩ :: _⟩) => .refuse .NoPartitionData
  | .Produce (some ⟨⟨_, ⟨none⟩ :: _⟩ :: _⟩) => .refuse .NoRecordData
  | .Produce (some ⟨⟨name, ⟨some records⟩ :: _⟩ :: _⟩) => .produce name records
  | .OffsetCommit none => .refuse .RequestDecode
  | .OffsetCommit (some ⟨_, []⟩) => .refuse .NoTopicData
  | .OffsetCommit (some ⟨_, ⟨_, []⟩ :: _⟩) => .refuse .NoPartitionData
  | .OffsetCommit (some ⟨group_id, ⟨name, ⟨o⟩ :: _⟩ :: _⟩) => .commit group_id name o
  | .Fetch none => .refuse .UnknownError
  | .Fetch (some ⟨_, []⟩) => .refuse .NoTopicData
  | .Fetch (some ⟨_, ⟨_, []⟩ :: _⟩) => .refuse .NoPartitionData
  | .Fetch (some ⟨_, ⟨topic, ⟨o⟩ :: _⟩ :: _⟩) => .fetch topic o
  | .OffsetFetch none => .refuse .RequestDecode
  | .OffsetFetch (some ⟨_, none⟩) => .refuse .NoTopicData
  | .OffsetFetch (some ⟨_, some []⟩) => .refuse .EmptyTopicList
  | .OffsetFetch (some ⟨group_id, some (⟨name⟩ :: _)⟩) => .offset group_id name
  | .NotCovered => .ignore

def HerbertRequest.op : HerbertRequest σ → Broker.Op σ
  | .CreateTopic topic schema => .create topic schema

/-- A request of one of the two listeners, or a kill and a new process. -/
inductive Broker.Event (σ : Type) where
  | kafka_request (request : KafkaRequest)
  | herbert_request (request : HerbertRequest σ)
  | restart (config : Config)

namespace Broker

def new : Broker σ ρ := ⟨fun _ => none, fun _ => [], fun _ _ => 0⟩

section
variable [DecidableEq σ] (ipc : ArrowIpc σ ρ)

/-- What is stored for the bytes, in a topic of this schema. -/
def accept (schema : Option (Option σ)) (record : Bytes) : Except HerbertError (StoredRecord σ ρ) :=
  match schema with
  | some (some schema) => (parse_record_batch_from_bytes ipc record schema).map .Batch
  | _ => .ok (.Raw record)

def serve (b : Broker σ ρ) : Op σ → Except HerbertError (Option KafkaResponse) × Broker σ ρ
  | .produce topic record =>
    match accept ipc (b.schema topic) record with
    | .error e => (.error e, b)
    | .ok r => (.ok none, { b with log := Function.update b.log topic (b.log topic ++ [r]) })
  | .fetch topic fetch_offset =>
    ((readFrom ipc (b.log topic) fetch_offset).map fun records => some (.Fetch ⟨[⟨[⟨some records⟩]⟩]⟩), b)
  | .commit group_id topic o =>
    (.ok none, { b with offset := fun g t => if (g, t) = (group_id, topic) then o else b.offset g t })
  | .offset group_id topic => (.ok (some (.OffsetFetch ⟨[⟨topic, [⟨b.offset group_id topic⟩]⟩]⟩)), b)
  | .create topic schema =>
    (.ok none,
      if (b.schema topic).isSome then b else { b with schema := Function.update b.schema topic (some schema) })
  | .refuse e => (.error e, b)
  | .ignore => (.ok none, b)

/-- The topics are those with a batch. -/
def restart (b : Broker σ ρ) : Broker σ ρ := { b with schema := fun t => (first_schema (b.log t)).map some }

def answer (b : Broker σ ρ) : Event σ → Except HerbertError (Option KafkaResponse)
  | .kafka_request request => (b.serve ipc request.op).1
  | .herbert_request request => (b.serve ipc request.op).1
  | .restart _ => .ok none

def step (b : Broker σ ρ) : Event σ → Option (Broker σ ρ)
  | .kafka_request request => some (b.serve ipc request.op).2
  | .herbert_request request => some (b.serve ipc request.op).2
  | .restart _ => some b.restart

end

/-! ## The server -/

/-- The broker that a server is. -/
def of (server : Server σ ρ) : Broker σ ρ where
  schema t := (server.topic_manager.topic_metadatas.lookup t).map (·.schema)
  log t := server.topic_manager.backend.queue t
  offset g t := server.offset_manager.get_offset g t

end Broker

namespace Server

variable (ipc : ArrowIpc σ ρ) (format : OffsetFormat)

/-- `run`, until it listens, on the two files that it finds; `none` is a panic. -/
def run (config : Config) (wal_file : Bytes) (offset_file : Option Bytes) : Option (Server σ ρ) :=
  match restart ipc config wal_file with
  | (.error .NoWalFileFound, tm) | (.ok (), tm) =>
    match OffsetManager.recover format { OffsetManager.new with file := offset_file } with
    | some (.error .NoOffsetFileFound, om) | some (.ok (), om) => some ⟨tm, om⟩
    | _ => none
  | _ => none

variable [DecidableEq σ]

def step (server : Server σ ρ) : Broker.Event σ → Option (Server σ ρ)
  | .kafka_request request => some (server.handle_kafka_request ipc format.toOffsetJson request).2
  | .herbert_request request => some (server.handle_herbert_connection request)
  | .restart config => run ipc format config server.topic_manager.wal.file.inner server.offset_manager.file

def answer (server : Server σ ρ) : Broker.Event σ → Except HerbertError (Option KafkaResponse)
  | .kafka_request request => (server.handle_kafka_request ipc format.toOffsetJson request).1
  | .herbert_request _ | .restart _ => .ok none

end Server

namespace Broker

variable {ipc : ArrowIpc σ ρ} {format : OffsetFormat}

/-! ## The offsets -/

variable (format) in
/-- The offset file has the text of a map with these entries, and no group in it
has a colon in its name. -/
structure Stored (om : OffsetManager) : Prop where
  i64 : ∀ k o, om.offsets.lookup k = some o → IsI64 o
  colon : ∀ k ∈ om.offsets, ':' ∉ k.1.toList
  file : (om.file = none ∧ om.offsets = ∅) ∨ ∃ table text, om.file = some text ∧
    format.to_string (OffsetManager.flushed_map table) = some text ∧ ∀ k, table.lookup k = om.offsets.lookup k

theorem stored_new : Stored format .new := ⟨by simp [OffsetManager.new], by simp [OffsetManager.new], .inl ⟨rfl, rfl⟩⟩

theorem Stored.set_offset (hf : Lawful format) {om : OffsetManager} (h : Stored format om) {g t : String} {o : Int}
    (hg : ':' ∉ g.toList) (ho : IsI64 o) : Stored format (om.set_offset format.toOffsetJson g t o).2 := by
  have hoffsets : (om.set_offset format.toOffsetJson g t o).2.offsets = om.offsets.insert (g, t) o :=
    OffsetManager.offsets_flush _ _
  have hi64 : ∀ k o', (om.offsets.insert (g, t) o).lookup k = some o' → IsI64 o' := by
    intro k o' hk
    by_cases hkey : k = (g, t)
    · rw [hkey, AList.lookup_insert, Option.some.injEq] at hk
      exact hk ▸ ho
    · rw [AList.lookup_insert_ne hkey] at hk
      exact h.i64 k o' hk
  refine ⟨by rw [hoffsets]; exact hi64, ?_, .inr ?_⟩
  · rw [hoffsets]
    intro k hk
    rcases (AList.mem_insert _).1 hk with rfl | hk
    · exact hg
    · exact h.colon k hk
  · obtain ⟨text, htext, -⟩ := recover_flushed hf hi64
    refine ⟨om.offsets.insert (g, t) o, text, ?_, htext, fun k => by rw [hoffsets]⟩
    simp only [OffsetManager.set_offset, OffsetManager.flush, htext]

/-- A new manager on the file has the same entries. -/
theorem Stored.recover (hf : Lawful format) {om : OffsetManager} (h : Stored format om) :
    ∃ result om', OffsetManager.recover format { OffsetManager.new with file := om.file } = some (result, om') ∧
      (result = .ok () ∨ result = .error .NoOffsetFileFound) ∧ Stored format om' ∧
      ∀ k, om'.offsets.lookup k = om.offsets.lookup k := by
  rcases h.file with ⟨hnone, hempty⟩ | ⟨table, text, hfile, htext, hsame⟩
  · refine ⟨_, .new, by rw [hnone]; rfl, .inr rfl, stored_new, fun k => ?_⟩
    rw [hempty]
    rfl
  · have h64 : ∀ k o, table.lookup k = some o → IsI64 o := fun k o hk => h.i64 k o (hsame k ▸ hk)
    have hcolon : ∀ k ∈ table, ':' ∉ k.1.toList := by
      intro k hk
      refine h.colon k ?_
      rw [← AList.lookup_isSome, hsame] at *
      exact hk
    obtain ⟨text', htext', hrec⟩ := recover_flushed hf h64
    rw [htext] at htext'
    cases htext'
    obtain ⟨om', hom', hlookup⟩ := hrec { OffsetManager.new with file := om.file } hfile
    have hentry : ∀ k, om'.offsets.lookup k = om.offsets.lookup k := by
      rintro ⟨g, t⟩
      rw [hlookup, ← hsame]
      split
      · rename_i hg
        rw [eq_comm, AList.lookup_eq_none]
        exact fun hmem => hcolon _ hmem hg
      · rename_i hg
        exact lookup_flushed_map hcolon hg t
    refine ⟨_, om', hom', .inl rfl, ⟨fun k o hk => h.i64 k o (hentry k ▸ hk), fun k hk => ?_, .inr ?_⟩, hentry⟩
    · refine h.colon k ?_
      rw [← AList.lookup_isSome, hentry] at *
      exact hk
    · exact ⟨table, text, (OffsetManager.file_recover hom').trans hfile, htext,
        fun k => (hsame k).trans (hentry k).symm⟩

/-! ## The topics -/

/-- `accept` is what `add` makes of the bytes. -/
theorem accept_eq [DecidableEq σ] (m : HashMap String (TopicMetadata σ)) (t : String) (record : Bytes) :
    accept ipc ((m.lookup t).map (·.schema)) record = stored_record ipc m t record := by
  unfold accept stored_record
  cases m.lookup t with
  | none => rfl
  | some metadata =>
    obtain ⟨name, schema⟩ := metadata
    cases schema with
    | none => rfl
    | some schema =>
      dsimp only [Option.map_some]
      cases parse_record_batch_from_bytes ipc record schema <;> rfl

/-- The manager handed over all that it accepted. -/
structure Eager (tm : TopicManager σ ρ (InMemoryLog σ ρ)) : Prop where
  log : ∃ accepted, Holds tm.backend accepted
  few : tm.wal.config.num_uncommitted_messages ≤ 1
  buffer : tm.wal.buffer = []

variable {tm : TopicManager σ ρ (InMemoryLog σ ρ)}

/-- A fetch reads the topic's log. -/
theorem Eager.fetch_eq (h : Eager tm) (t : String) (o : Int) : (tm.fetch ipc t o).1 = readFrom ipc (tm.backend.queue t) o := by
  obtain ⟨⟨accepted, hlog⟩, -, -⟩ := h
  rw [hlog.queue]
  exact fetch_holds ipc hlog t o

theorem Eager.add [DecidableEq σ] (hipc : ipc.Lawful) (h : Eager tm) (t : String) (record : Bytes) :
    Eager (tm.add ipc t record).2 ∧
      match stored_record ipc tm.topic_metadatas t record with
      | .error e => tm.add ipc t record = (.error e, tm)
      | .ok r => (tm.add ipc t record).1 = .ok () ∧
          ∀ t', (tm.add ipc t record).2.backend.queue t' = Function.update tm.backend.queue t (tm.backend.queue t ++ [r]) t' := by
  cases hr : stored_record ipc tm.topic_metadatas t record with
  | error e =>
    have herror := TopicManager.add_error tm hr
    rw [herror]
    exact ⟨h, rfl⟩
  | ok r =>
    obtain ⟨⟨accepted, hlog⟩, hfew, hbuffer⟩ := h
    have hfull := TopicManager.add_full tm hr (writable_of_lawful hipc r) (by omega)
    refine ⟨⟨?_, ?_, by rw [hfull]; rfl⟩, by rw [hfull], fun t' => ?_⟩
    · rw [hfull]
      exact ⟨_, hlog.addAll _⟩
    · rw [TopicManager.config_add]
      exact hfew
    · rw [hfull, hbuffer]
      simp only [List.nil_append, InMemoryLog.queue_addAll, History.ofTopic_singleton, Function.update_apply]
      by_cases htt : t' = t
      · subst htt
        simp
      · simp [htt, Ne.symm htt]

theorem inv_fetch {accepted : History σ ρ} (h : Metadata.Inv ipc ⟨tm, accepted⟩) (t : String) (o : Int) :
    Metadata.Inv ipc ⟨(tm.fetch ipc t o).2, accepted⟩ where
  crash := by
    obtain ⟨visible, k, hacc, hvis, hfile⟩ := h.crash
    exact ⟨visible, k, hacc, hvis.fetch ipc t o, hfile⟩
  shaped := h.shaped
  named := h.named

variable (ipc) in
/-- The manager flushed all that it accepted. -/
structure Flushed (tm : TopicManager σ ρ (InMemoryLog σ ρ)) : Prop where
  inv : ∃ accepted, Metadata.Inv ipc ⟨tm, accepted⟩
  eager : tm.wal.config.num_uncommitted_messages ≤ 1
  buffer : tm.wal.buffer = []

theorem flushed_new {config : Config} (hn : config.num_uncommitted_messages ≤ 1) :
    Flushed ipc (.new .new config [] : TopicManager σ ρ (InMemoryLog σ ρ)) :=
  ⟨⟨[], Metadata.inv_start config⟩, hn, rfl⟩

theorem Flushed.handed (h : Flushed ipc tm) : Eager tm := by
  obtain ⟨⟨accepted, hinv⟩, hfew, hbuffer⟩ := h
  obtain ⟨visible, k, -, hvis, -⟩ := hinv.crash
  exact ⟨⟨visible, hvis⟩, hfew, hbuffer⟩

/-- Nothing is left in the `BufWriter`. -/
theorem Flushed.saved (h : Flushed ipc tm) : tm.wal.file.inner = tm.wal.file.contents := by
  obtain ⟨⟨accepted, hinv⟩, -, hbuffer⟩ := h
  obtain ⟨visible, k, hacc, -, hfile, hle, -⟩ := hinv.crash
  replace hacc : accepted = visible := by simpa [hbuffer] using hacc
  subst hacc
  rw [hfile.contents, hfile.2.1, List.take_of_length_le hle]

theorem Flushed.fetch (h : Flushed ipc tm) (t : String) (o : Int) : Flushed ipc (tm.fetch ipc t o).2 := by
  obtain ⟨⟨accepted, hinv⟩, heager, hbuffer⟩ := h
  exact ⟨⟨accepted, inv_fetch hinv t o⟩, heager, hbuffer⟩

/-- The next process has the same logs, and the topics that have a batch. -/
theorem Flushed.restart (h : Flushed ipc tm) {config : Config} (hn : config.num_uncommitted_messages ≤ 1) :
    ∃ tm', Recovery.restart ipc config tm.wal.file.inner = (.ok (), tm') ∧ Flushed ipc tm' ∧
      (∀ t, tm'.backend.queue t = tm.backend.queue t) ∧
      ∀ t, tm'.topic_metadatas.lookup t = (first_schema (tm.backend.queue t)).map fun s => ⟨t, some s⟩ := by
  obtain ⟨⟨accepted, hinv⟩, -, hbuffer⟩ := h
  obtain ⟨visible, k, hacc, hvis, hfile, hle, hclean⟩ := hinv.crash
  replace hacc : accepted = visible := by simpa [hbuffer] using hacc
  subst hacc
  have hinner : tm.wal.file.inner = accepted.flatMap (frame ipc) := by
    rw [hfile.2.1, List.take_of_length_le hle]
  have hrec : recovered ipc tm.wal.file.inner = accepted := by
    have := recovered_frames hclean []
    rwa [List.append_nil, show recovered ipc [] = [] by simp [recovered, records], List.append_nil, ← hinner] at this
  obtain ⟨hok, hholds⟩ := restart_frames config hclean
  rw [← hinner] at hok hholds
  have hwal := restart_wal ipc config tm.wal.file.inner
  refine ⟨_, Prod.ext hok rfl, ⟨⟨_, Metadata.inv_kill hinv config⟩, ?_, ?_⟩, fun t => ?_, fun t => ?_⟩
  · rw [hwal]
    exact hn
  · rw [hwal]
    rfl
  · rw [hholds.queue, hvis.queue]
  · rw [lookup_restart, hrec, hvis.queue]

theorem Flushed.create [DecidableEq σ] (hipc : ipc.Lawful) (h : Flushed ipc tm) (t : String) (schema : Option σ) :
    Flushed ipc (tm.create t schema).2 := by
  obtain ⟨⟨accepted, hinv⟩, heager, hbuffer⟩ := h
  let create : Metadata.Event σ := .call (.create t schema)
  have hcreate : Metadata.step ipc ⟨tm, accepted⟩ create = some ⟨(tm.create t schema).2, accepted⟩ := rfl
  refine ⟨⟨accepted, Metadata.inv_step hipc hinv (show Metadata.Fits ipc _ create from trivial) hcreate⟩, ?_, ?_⟩
  · rwa [TopicManager.wal_create]
  · rwa [TopicManager.wal_create]

theorem Flushed.add [DecidableEq σ] (hipc : ipc.Lawful) (h : Flushed ipc tm) {t : String} {record : Bytes}
    (hfit : StoresLoggable ipc tm.topic_metadatas t record) : Flushed ipc (tm.add ipc t record).2 := by
  obtain ⟨heager, -⟩ := h.handed.add hipc t record
  obtain ⟨⟨accepted, hinv⟩, -, -⟩ := h
  let add : Metadata.Event σ := .call (.add t record)
  have hadd : Metadata.step ipc ⟨tm, accepted⟩ add =
      some ⟨(tm.add ipc t record).2, accepted ++ Crash.acceptedBy ipc tm t record⟩ := rfl
  exact ⟨⟨_, Metadata.inv_step hipc hinv (show Metadata.Fits ipc _ add from hfit) hadd⟩, heager.few, heager.buffer⟩

/-! ## What a request does -/

section
variable [DecidableEq σ] (ipc : ArrowIpc σ ρ) (json : OffsetJson)

/-- What the server does for a request, by what it asks for. -/
def perform (server : Server σ ρ) : Op σ → Except HerbertError (Option KafkaResponse) × Server σ ρ
  | .produce topic record =>
    let (result, topic_manager) := server.topic_manager.add ipc topic record
    (result.map fun _ => none, { server with topic_manager })
  | .fetch topic fetch_offset =>
    let (result, topic_manager) := server.topic_manager.fetch ipc topic fetch_offset
    (result.map fun records => some (.Fetch ⟨[⟨[⟨some records⟩]⟩]⟩), { server with topic_manager })
  | .commit group_id topic o =>
    (.ok none, { server with offset_manager := (server.offset_manager.set_offset json group_id topic o).2 })
  | .offset group_id topic =>
    (.ok (some (.OffsetFetch ⟨[⟨topic, [⟨server.offset_manager.get_offset group_id topic⟩]⟩]⟩)), server)
  | .create topic schema =>
    (.ok none, { server with topic_manager := (server.topic_manager.create topic schema).2 })
  | .refuse e => (.error e, server)
  | .ignore => (.ok none, server)

theorem handle_eq_perform (server : Server σ ρ) (request : KafkaRequest) :
    server.handle_kafka_request ipc json request = perform ipc json server request.op := by
  match request with
  | .Produce none | .Produce (some ⟨[]⟩) | .Produce (some ⟨⟨_, []⟩ :: _⟩) | .Produce (some ⟨⟨_, ⟨none⟩ :: _⟩ :: _⟩)
  | .OffsetCommit none | .OffsetCommit (some ⟨_, []⟩) | .OffsetCommit (some ⟨_, ⟨_, []⟩ :: _⟩)
  | .OffsetCommit (some ⟨_, ⟨_, ⟨_⟩ :: _⟩ :: _⟩)
  | .Fetch none | .Fetch (some ⟨_, []⟩) | .Fetch (some ⟨_, ⟨_, []⟩ :: _⟩)
  | .OffsetFetch none | .OffsetFetch (some ⟨_, none⟩) | .OffsetFetch (some ⟨_, some []⟩)
  | .OffsetFetch (some ⟨_, some (_ :: _)⟩) | .NotCovered => rfl
  | .Produce (some ⟨⟨t, ⟨some record⟩ :: data⟩ :: rest⟩) =>
    simp only [Server.handle_kafka_request, handle_produce_request, handle_topic_data, List.getElem?_cons_zero,
      KafkaRequest.op, perform]
    rcases server.topic_manager.add ipc t record with ⟨e | ⟨⟩, tm⟩ <;> rfl
  | .Fetch (some ⟨max_bytes, ⟨t, ⟨o⟩ :: partitions⟩ :: rest⟩) =>
    simp only [Server.handle_kafka_request, handle_fetch_request, List.getElem?_cons_zero, KafkaRequest.op, perform]
    rcases server.topic_manager.fetch ipc t o with ⟨e | records, tm⟩ <;> rfl

end

/-! ## What a request does to the broker -/

section
variable [DecidableEq σ] {server : Server σ ρ}

theorem serve_produce (hipc : ipc.Lawful) (h : Eager server.topic_manager) (t : String) (record : Bytes) :
    (of server).serve ipc (.produce t record) = ((server.topic_manager.add ipc t record).1.map fun _ => none,
      of { server with topic_manager := (server.topic_manager.add ipc t record).2 }) := by
  obtain ⟨-, hadd⟩ := h.add hipc t record
  have haccept : accept ipc ((of server).schema t) record = _ := accept_eq server.topic_manager.topic_metadatas t record
  rw [serve, haccept]
  cases hr : stored_record ipc server.topic_manager.topic_metadatas t record with
  | error e =>
    rw [hr] at hadd
    dsimp only at hadd
    rw [hadd]
    rfl
  | ok r =>
    rw [hr] at hadd
    obtain ⟨hok, hqueue⟩ := hadd
    have hmeta := TopicManager.topic_metadatas_add ipc server.topic_manager t record
    rw [hok]
    simp only [of, hmeta, hqueue]
    rfl

theorem serve_fetch (h : Eager server.topic_manager) (t : String) (o : Int) :
    (of server).serve ipc (.fetch t o) =
      ((server.topic_manager.fetch ipc t o).1.map fun records => some (.Fetch ⟨[⟨[⟨some records⟩]⟩]⟩),
        of { server with topic_manager := (server.topic_manager.fetch ipc t o).2 }) := by
  rw [h.fetch_eq]
  simp only [of, serve, TopicManager.queue_fetch]
  rfl

variable (ipc) in
theorem serve_commit (server : Server σ ρ) (json : OffsetJson) (g t : String) (o : Int) :
    (of server).serve ipc (.commit g t o) =
      (.ok none, of { server with offset_manager := (server.offset_manager.set_offset json g t o).2 }) := by
  simp only [of, serve, OffsetManager.get_offset_set_offset]

variable (ipc) in
theorem serve_create (server : Server σ ρ) (t : String) (schema : Option σ) :
    (of server).serve ipc (.create t schema) =
      (.ok none, of { server with topic_manager := (server.topic_manager.create t schema).2 }) := by
  simp only [of, serve, TopicManager.lookup_create, TopicManager.backend_create, Option.isSome_map]
  cases hm : server.topic_manager.topic_metadatas.lookup t with
  | some metadata => simp
  | none =>
    simp only [Option.isSome_none, Bool.false_eq_true, if_false, and_true, Prod.mk.injEq, true_and]
    congr 1
    funext t'
    rw [Function.update_apply]
    split <;> rfl

end

/-! ## One step -/

variable (ipc format) in
structure Inv (server : Server σ ρ) : Prop where
  topics : Flushed ipc server.topic_manager
  offsets : Stored format server.offset_manager

variable (ipc) in
/-- What a request may ask for: a record that is stored can be logged, a group has
no colon, and an offset is of 64 bits. -/
def Fits [DecidableEq σ] (server : Server σ ρ) : Op σ → Prop
  | .produce topic record => StoresLoggable ipc server.topic_manager.topic_metadatas topic record
  | .commit group_id _ o => ':' ∉ group_id.toList ∧ IsI64 o
  | _ => True

variable (ipc) in
/-- A new process flushes every record as well. -/
def Admissible [DecidableEq σ] (server : Server σ ρ) : Event σ → Prop
  | .kafka_request request => Fits ipc server request.op
  | .herbert_request request => Fits ipc server request.op
  | .restart config => config.num_uncommitted_messages ≤ 1

section
variable [DecidableEq σ] {server : Server σ ρ}

variable (ipc format) in
/-- The server's answer and what it is afterwards are the broker's. -/
structure Serves (answer : Except HerbertError (Option KafkaResponse)) (server' : Server σ ρ)
    (served : Except HerbertError (Option KafkaResponse) × Broker σ ρ) : Prop where
  inv : Inv ipc format server'
  answer : answer = served.1
  broker : of server' = served.2

theorem serves_produce (hipc : ipc.Lawful) (h : Inv ipc format server) {t : String} {record : Bytes}
    (hfit : Fits ipc server (.produce t record)) :
    Serves ipc format ((server.topic_manager.add ipc t record).1.map fun _ => none)
      { server with topic_manager := (server.topic_manager.add ipc t record).2 }
      ((of server).serve ipc (.produce t record)) where
  inv := ⟨h.topics.add hipc hfit, h.offsets⟩
  answer := by rw [serve_produce hipc h.topics.handed]
  broker := by rw [serve_produce hipc h.topics.handed]

theorem serves_fetch (h : Inv ipc format server) (t : String) (o : Int) :
    Serves ipc format ((server.topic_manager.fetch ipc t o).1.map fun records => some (.Fetch ⟨[⟨[⟨some records⟩]⟩]⟩))
      { server with topic_manager := (server.topic_manager.fetch ipc t o).2 } ((of server).serve ipc (.fetch t o)) where
  inv := ⟨h.topics.fetch t o, h.offsets⟩
  answer := by rw [serve_fetch h.topics.handed]
  broker := by rw [serve_fetch h.topics.handed]

theorem serves_commit (hf : Lawful format) (h : Inv ipc format server) {g t : String} {o : Int}
    (hfit : Fits ipc server (.commit g t o)) :
    Serves ipc format (.ok none)
      { server with offset_manager := (server.offset_manager.set_offset format.toOffsetJson g t o).2 }
      ((of server).serve ipc (.commit g t o)) where
  inv := ⟨h.topics, h.offsets.set_offset hf hfit.1 hfit.2⟩
  answer := rfl
  broker := by rw [serve_commit ipc server format.toOffsetJson]

theorem serves_create (hipc : ipc.Lawful) (h : Inv ipc format server) (t : String) (schema : Option σ) :
    Serves ipc format (.ok none) { server with topic_manager := (server.topic_manager.create t schema).2 }
      ((of server).serve ipc (.create t schema)) where
  inv := ⟨h.topics.create hipc t schema, h.offsets⟩
  answer := by rw [serve_create ipc server]
  broker := by rw [serve_create ipc server]

/-- A message on the Kafka port. -/
theorem serves_kafka (hipc : ipc.Lawful) (hf : Lawful format) (h : Inv ipc format server) (request : KafkaRequest)
    (hfit : Fits ipc server request.op) :
    Serves ipc format (server.handle_kafka_request ipc format.toOffsetJson request).1
      (server.handle_kafka_request ipc format.toOffsetJson request).2 ((of server).serve ipc request.op) := by
  rw [handle_eq_perform]
  cases hop : (request.op : Op σ) with
  | produce t record => exact serves_produce hipc h (hop ▸ hfit)
  | fetch t o => exact serves_fetch h t o
  | commit g t o => exact serves_commit hf h (hop ▸ hfit)
  | create t schema => exact serves_create hipc h t schema
  | offset g t | refuse e | ignore => exact ⟨h, rfl, rfl⟩

/-- A message on the other port. -/
theorem serves_herbert (hipc : ipc.Lawful) (h : Inv ipc format server) (request : HerbertRequest σ) :
    Serves ipc format (.ok none) (server.handle_herbert_connection request) ((of server).serve ipc request.op) := by
  obtain ⟨t, schema⟩ := request
  exact serves_create hipc h t schema

omit [DecidableEq σ] in
/-- A new process comes up. -/
theorem serves_restart (hf : Lawful format) (h : Inv ipc format server) {config : Config}
    (hn : config.num_uncommitted_messages ≤ 1) :
    ∃ server', Server.run ipc format config server.topic_manager.wal.file.inner server.offset_manager.file = some server' ∧
      Serves ipc format (.ok none) server' (.ok none, (of server).restart) := by
  obtain ⟨tm, htm, hflushed, hqueue, htopics⟩ := h.topics.restart hn
  obtain ⟨result, om, hom, hresult, hstored, hoffsets⟩ := h.offsets.recover hf
  refine ⟨⟨tm, om⟩, ?_, ⟨hflushed, hstored⟩, rfl, ?_⟩
  · rw [Server.run, htm, hom]
    rcases hresult with rfl | rfl <;> rfl
  · simp only [of, restart, hqueue, htopics, OffsetManager.get_offset, hoffsets, Option.map_map]
    rfl

theorem serves_step (hipc : ipc.Lawful) (hf : Lawful format) (h : Inv ipc format server) {event : Event σ}
    (ha : Admissible ipc server event) :
    ∃ server', Server.step ipc format server event = some server' ∧ Inv ipc format server' ∧
      Server.answer ipc format server event = (of server).answer ipc event ∧
      Broker.step ipc (of server) event = some (of server') := by
  cases event with
  | kafka_request request =>
    obtain ⟨hinv, hanswer, hbroker⟩ := serves_kafka hipc hf h request ha
    exact ⟨_, rfl, hinv, hanswer, congrArg some hbroker.symm⟩
  | herbert_request request =>
    have hserves : Serves ipc format _ _ _ := serves_herbert hipc h request
    exact ⟨_, rfl, hserves.inv, hserves.answer, congrArg some hserves.broker.symm⟩
  | restart config =>
    obtain ⟨server', hrun, hinv, hanswer, hbroker⟩ := serves_restart hf h ha
    exact ⟨server', hrun, hinv, hanswer, congrArg some hbroker.symm⟩

/-! ## Whole runs -/

omit [DecidableEq σ] in
theorem inv_new {config : Config} (hn : config.num_uncommitted_messages ≤ 1) :
    Inv ipc format (.new config : Server σ ρ) := ⟨flushed_new hn, stored_new⟩

theorem run_serves (hipc : ipc.Lawful) (hf : Lawful format) {config : Config}
    (hn : config.num_uncommitted_messages ≤ 1) {tr} (hr : Run (Server.step ipc format) (.new config) tr server)
    (ha : Always (Admissible ipc) tr) :
    Inv ipc format server ∧ Run (Broker.step ipc) .new (tr.map fun x => (of x.1, x.2)) (of server) := by
  refine hr.map of (Inv ipc format) (inv_new hn) (fun s event s' hi ha hs => ?_) ha
  obtain ⟨s'', hs'', hinv, -, hstep⟩ := serves_step hipc hf hi ha
  rw [hs] at hs''
  cases hs''
  exact ⟨hinv, hstep⟩

/-- A server that flushes every record refines the broker, over any number of kills.
No step of a run panics, a new process least of all; every answer is the one the
broker gives, and what the server is in the end is what the broker is. -/
theorem server_refines (hipc : ipc.Lawful) (hf : Lawful format) {config : Config}
    (hn : config.num_uncommitted_messages ≤ 1) {tr} {server : Server σ ρ}
    (hr : Run (Server.step ipc format) (.new config) tr server) (ha : Always (Admissible ipc) tr) :
    (∀ event, Admissible ipc server event → (Server.step ipc format server event).isSome) ∧
      (∀ x ∈ tr, Server.answer ipc format x.1 x.2 = (of x.1).answer ipc x.2) ∧
      Run (Broker.step ipc) .new (tr.map fun x => (of x.1, x.2)) (of server) := by
  obtain ⟨hinv, hrun⟩ := run_serves hipc hf hn hr ha
  refine ⟨fun event hadm => ?_, ?_, hrun⟩
  · obtain ⟨server', hs, -⟩ := serves_step hipc hf hinv hadm
    rw [hs]
    rfl
  · clear hinv hrun
    induction hr with
    | nil => simp
    | @snoc tr server event server' hr hs ih =>
      rw [always_snoc] at ha
      simp only [List.mem_append, List.mem_singleton, or_imp, forall_and, forall_eq]
      obtain ⟨hinv, -⟩ := run_serves hipc hf hn hr ha.1
      obtain ⟨-, -, -, hanswer, -⟩ := serves_step hipc hf hinv ha.2
      exact ⟨ih ha.1, hanswer⟩

/-- A batch and a raw record, each before a kill, and a commit. -/
def pocketEvents : List (Event UInt8) :=
  [.herbert_request (.CreateTopic "t" (some 7)),
    .kafka_request (.Produce (some (create_produce_request "t" [255, 255, 255, 255, 7, 3, 1, 1, 2, 0, 0, 0]))),
    .kafka_request (.OffsetCommit (some (create_offset_commit_request "g" "t" 1))), .restart ⟨0⟩,
    .kafka_request (.Produce (some (create_produce_request "u" [5]))), .restart ⟨1⟩]

theorem pocketEvents_admissible (server : Server UInt8 UInt8) : ∀ event ∈ pocketEvents, Admissible pocketIpc server event := by
  have hraw : Fits pocketIpc server (.produce "u" [5]) :=
    storesLoggable_of (by decide) fun b bs h => by cases h
  have hbatch : Fits pocketIpc server (.produce "t" [255, 255, 255, 255, 7, 3, 1, 1, 2, 0, 0, 0]) :=
    storesLoggable_of (by decide) fun b bs h => by cases h; decide
  have hcommit : Fits pocketIpc server (.commit "g" "t" 1) := ⟨by decide, by unfold IsI64; omega⟩
  simp only [pocketEvents, List.forall_mem_cons, List.not_mem_nil, false_implies, implies_true, and_true]
  exact ⟨trivial, hbatch, hcommit, Nat.zero_le 1, hraw, Nat.le_refl 1⟩

theorem server_refines_pocket :
    ∃ tr server, Run (Server.step pocketIpc flatJson) (.new ⟨1⟩) tr server ∧ tr.map (·.2) = pocketEvents ∧
      ∀ x ∈ tr, Server.answer pocketIpc flatJson x.1 x.2 = (of x.1).answer pocketIpc x.2 := by
  obtain ⟨server, he⟩ := Option.isSome_iff_exists.1
    (show (exec (Server.step pocketIpc flatJson) (.new ⟨1⟩) pocketEvents).isSome by decide +kernel)
  obtain ⟨tr, hr, hl⟩ := Run.nil.exec he
  rw [List.nil_append] at hr
  have ha : Always (Admissible pocketIpc) tr := by
    intro x hx
    exact pocketEvents_admissible x.1 x.2 (hl ▸ List.mem_map_of_mem hx)
  exact ⟨tr, server, hr, hl, (server_refines pocketIpc_framed.toLawful flatJson_lawful (Nat.le_refl 1) hr ha).2.1⟩

/-! ## What a run leaves -/

def Event.op : Event σ → Op σ
  | .kafka_request request => request.op
  | .herbert_request request => request.op
  | .restart _ => .ignore

variable (ipc) in
/-- The record that the topic gets, if any. -/
def adds (b : Broker σ ρ) (t : String) : Op σ → List (StoredRecord σ ρ)
  | .produce topic record => if topic = t then (accept ipc (b.schema topic) record).toOption.toList else []
  | _ => []

/-- The offset that the group commits for the topic, if any. -/
def commits (g t : String) : Op σ → Option Int
  | .commit group_id topic o => if (g, t) = (group_id, topic) then some o else none
  | _ => none

theorem log_served (b : Broker σ ρ) (t : String) (op : Op σ) : (b.serve ipc op).2.log t = b.log t ++ adds ipc b t op := by
  cases op with
  | produce topic record =>
    rw [serve, adds]
    cases accept ipc (b.schema topic) record with
    | error e => simp [Except.toOption]
    | ok r =>
      simp only [Except.toOption, Option.toList_some, Function.update_apply]
      by_cases ht : t = topic
      · simp [ht]
      · simp [ht, Ne.symm ht]
  | create topic schema =>
    simp only [serve, adds, List.append_nil]
    split <;> rfl
  | _ => simp [serve, adds]

theorem offset_served (b : Broker σ ρ) (g t : String) (op : Op σ) :
    (b.serve ipc op).2.offset g t = (commits g t op).getD (b.offset g t) := by
  cases op with
  | produce topic record | create topic schema =>
    simp only [serve, commits]
    split <;> rfl
  | commit group_id topic o =>
    rw [serve, commits]
    dsimp only
    split <;> rfl
  | _ => rfl

theorem log_step {b b' : Broker σ ρ} {event : Event σ} (hs : Broker.step ipc b event = some b') (t : String) :
    b'.log t = b.log t ++ adds ipc b t event.op := by
  cases event with
  | kafka_request request | herbert_request request => cases hs; exact log_served b t _
  | restart config => cases hs; exact (List.append_nil _).symm

theorem offset_step {b b' : Broker σ ρ} {event : Event σ} (hs : Broker.step ipc b event = some b') (g t : String) :
    b'.offset g t = (commits g t event.op).getD (b.offset g t) := by
  cases event with
  | kafka_request request | herbert_request request => cases hs; exact offset_served b g t _
  | restart config => cases hs; rfl

theorem contents {b : Broker σ ρ} {tr} (hr : Run (Broker.step ipc) .new tr b) (g t : String) :
    b.log t = tr.flatMap (fun x => adds ipc x.1 t x.2.op) ∧
      b.offset g t = (tr.filterMap fun x => commits g t x.2.op).getLast?.getD 0 := by
  induction hr with
  | nil => exact ⟨rfl, rfl⟩
  | @snoc tr b event b' hr hs ih =>
    rw [log_step hs, offset_step hs, ih.1, ih.2, List.flatMap_append, List.filterMap_append]
    refine ⟨by simp, ?_⟩
    cases hc : commits g t event.op <;> simp [hc]

/-- Over any number of kills the log of a topic is what the produce requests for it
stored, each once and in their order, and the offset of a group is the one it
committed last. -/
theorem server_contents (hipc : ipc.Lawful) (hf : Lawful format) {config : Config}
    (hn : config.num_uncommitted_messages ≤ 1) {tr} {server : Server σ ρ}
    (hr : Run (Server.step ipc format) (.new config) tr server) (ha : Always (Admissible ipc) tr) (g t : String) :
    server.topic_manager.backend.queue t = tr.flatMap (fun x => adds ipc (of x.1) t x.2.op) ∧
      server.offset_manager.get_offset g t = (tr.filterMap fun x => commits g t x.2.op).getLast?.getD 0 := by
  obtain ⟨hlog, hoffset⟩ := contents (run_serves hipc hf hn hr ha).2 g t
  rw [List.flatMap_map] at hlog
  rw [List.filterMap_map] at hoffset
  exact ⟨hlog, hoffset⟩

end

theorem server_contents_pocket :
    ∃ tr server, Run (Server.step pocketIpc flatJson) (.new ⟨1⟩) tr server ∧ tr.map (·.2) = pocketEvents ∧
      server.topic_manager.backend.queue "u" = tr.flatMap (fun x => adds pocketIpc (of x.1) "u" x.2.op) ∧
      server.offset_manager.get_offset "g" "t" = 1 := by
  obtain ⟨server, he⟩ := Option.isSome_iff_exists.1
    (show (exec (Server.step pocketIpc flatJson) (.new ⟨1⟩) pocketEvents).isSome by decide +kernel)
  obtain ⟨tr, hr, hl⟩ := Run.nil.exec he
  rw [List.nil_append] at hr
  have ha : Always (Admissible pocketIpc) tr := by
    intro x hx
    exact pocketEvents_admissible x.1 x.2 (hl ▸ List.mem_map_of_mem hx)
  have hcontents := server_contents pocketIpc_framed.toLawful flatJson_lawful (Nat.le_refl 1) hr ha "g"
  refine ⟨tr, server, hr, hl, (hcontents "u").1, (hcontents "t").2.trans ?_⟩
  have hcommits : tr.filterMap (fun x => commits "g" "t" x.2.op) = pocketEvents.filterMap fun event => commits "g" "t" event.op := by
    rw [← hl, List.filterMap_map]
    rfl
  rw [hcommits]
  rfl

end Broker
end herbert
