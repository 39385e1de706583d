import Herbert.ClientReads
import Herbert.Fetch
/-!
# Offsets of the continuous consumer

The server counts one entry for a raw record and one for each row of a batch.
`consume_continuos` counts the parts or the rows of the bytes it was sent.
`Counts` is the condition on the stored records under which the two agree, and
`commits_iff_counts` says that they agree under no other. The client reads the
records with one read, so the response has to arrive in one behind its length.

A topic holds raw records first, if any, and behind them batches of its schema
(`Produced`): once `create_topic` gave it a schema, it takes nothing else.
-/
open Lib Lib.Bytes Lib.FlatIndex herbert.InMemoryLog herbert.TopicManager herbert.Fetch herbert.Client
open herbert.Connection herbert.Framing

namespace herbert.Continuous

variable {σ ρ : Type} (ipc : ArrowIpc σ ρ) (json : OffsetJson)

/-! ## Runs of client calls -/

inductive Call (σ ρ : Type) where
  | produce (topic message : String)
  | produce_record_batch (topic : String) (record_batch : RecordBatch σ ρ)
  | create_topic (topic : String) (schema : Option σ)

section
variable [DecidableEq σ]

/-- The server after it handled what the call sends. -/
def Call.handle (server : Server σ ρ) : Call σ ρ → Server σ ρ
  | .produce topic message => (server.handle_kafka_request ipc json (Client.produce topic message)).2
  | .produce_record_batch topic record_batch =>
    match Client.produce_record_batch ipc topic record_batch with
    | .error _ => server
    | .ok request => (server.handle_kafka_request ipc json request).2
  | .create_topic topic schema => server.handle_herbert_connection (Client.create_topic topic schema)

def serve (server : Server σ ρ) (calls : List (Call σ ρ)) : Server σ ρ := calls.foldl (Call.handle ipc json) server

end

/-- One pass of the client's loop behind its Fetch, on what arrives. -/
def pass (kafka : KafkaCodec) (offset : Int) (stream : Stream UInt8) : Except HerbertError (Option Int) :=
  match (ClientReads.get_records kafka 1 stream).1 with
  | .error e => .error e
  | .ok records => consume_continuos ipc offset records

/-! ## The condition -/

/-- The number of entries in the topic's offset index from the offset on. -/
def entries_from (log : InMemoryLog σ ρ) (topic : String) (offset : Int) : Nat :=
  ((log.offset_queue topic).drop offset.toNat).length

/-- The records stored from the offset on. -/
def records_from (log : InMemoryLog σ ρ) (topic : String) (offset : Int) : List (StoredRecord σ ρ) :=
  match (log.offset_queue topic)[offset.toNat]? with
  | none => []
  | some record_offset => (log.queue topic).drop record_offset.batch_index

/-- Batches are counted by rows. A stream that was stored raw counts as its own
rows, whatever is behind it. Otherwise the records have to be raw, without zero
bytes, and more than a single empty one. -/
def Counts (left : Nat) : List (StoredRecord σ ρ) → Prop
  | .Raw w :: rest =>
    if continuation <+: w then ∃ b, ipc.read w = .ok [.ok b] ∧ b.num_rows = left
    else (∀ r ∈ .Raw w :: rest, ∃ m, r = .Raw m ∧ 0 ∉ m) ∧ ¬ (w = [] ∧ rest = [])
  | _ => True

/-! ## What topics hold -/

/-- Raw bytes are a message or a stream of one batch. -/
def Sent (w : Bytes) : Prop := (∃ message, w = utf8 message) ∨ ∃ b, ipc.write b.schema [b] = .ok w

/-- Raw records, then batches of the topic's schema. -/
def Produced (metadata : Option (TopicMetadata σ)) (rs : List (StoredRecord σ ρ)) : Prop :=
  ∃ (ws : List Bytes) (bs : List (RecordBatch σ ρ)), rs = ws.map .Raw ++ bs.map .Batch ∧ (∀ w ∈ ws, Sent ipc w) ∧
    ∀ b ∈ bs, ∃ name, metadata = some ⟨name, some b.schema⟩

variable {ipc}

/-- Messages are text, so what starts like a stream is one. -/
theorem Sent.stream {w : Bytes} (h : Sent ipc w) (hc : continuation <+: w) : ∃ b, ipc.write b.schema [b] = .ok w := by
  rcases h with ⟨message, rfl⟩ | h
  · exact absurd (hc.subset (by simp [continuation])) (ff_notMem_utf8 message)
  · exact h

theorem Sent.message (hipc : ipc.Framed) {w : Bytes} (h : Sent ipc w) (hc : ¬ continuation <+: w) :
    (0xFF : UInt8) ∉ w := by
  rcases h with ⟨message, rfl⟩ | ⟨b, hb⟩
  · exact ff_notMem_utf8 message
  · exact absurd (hipc.marked _ _ _ hb).1 hc

variable (ipc) in
theorem produced_nil (metadata : Option (TopicMetadata σ)) : Produced ipc metadata ([] : List (StoredRecord σ ρ)) :=
  ⟨[], [], rfl, by simp, by simp⟩

theorem Produced.drop {metadata : Option (TopicMetadata σ)} {rs : List (StoredRecord σ ρ)}
    (h : Produced ipc metadata rs) (n : Nat) : Produced ipc metadata (rs.drop n) := by
  obtain ⟨ws, bs, rfl, hws, hbs⟩ := h
  refine ⟨ws.drop n, bs.drop (n - ws.length), by simp [List.drop_append, List.map_drop], ?_, ?_⟩
  · exact fun w hw => hws w (List.mem_of_mem_drop hw)
  · exact fun b hb => hbs b (List.mem_of_mem_drop hb)

theorem Produced.take {metadata : Option (TopicMetadata σ)} {rs : List (StoredRecord σ ρ)}
    (h : Produced ipc metadata rs) (n : Nat) : Produced ipc metadata (rs.take n) := by
  obtain ⟨ws, bs, rfl, hws, hbs⟩ := h
  refine ⟨ws.take n, bs.take (n - ws.length), by simp [List.take_append, List.map_take], ?_, ?_⟩
  · exact fun w hw => hws w (List.mem_of_mem_take hw)
  · exact fun b hb => hbs b (List.mem_of_mem_take hb)

/-- All batches have one schema. -/
theorem schema_of_metadata {metadata : Option (TopicMetadata σ)} {bs : List (RecordBatch σ ρ)}
    (h : ∀ b ∈ bs, ∃ name, metadata = some ⟨name, some b.schema⟩) : ∀ b ∈ bs, ∀ b' ∈ bs, b'.schema = b.schema := by
  intro b hb b' hb'
  obtain ⟨name, hm⟩ := h b hb
  obtain ⟨name', hm'⟩ := h b' hb'
  rw [hm] at hm'
  simp only [Option.some.injEq, TopicMetadata.mk.injEq] at hm'
  exact hm'.2.symm

variable (ipc) in
/-- Every topic of the server holds what clients sent. -/
def Inv (server : Server σ ρ) : Prop :=
  ∃ h, Tracks server.topic_manager h ∧
    ∀ t, Produced ipc (server.topic_manager.topic_metadatas.lookup t) (h.ofTopic t)

variable (ipc) in
theorem inv_new (config : Config) : Inv ipc (Server.new config) :=
  ⟨[], tracks_new config [], fun _ => produced_nil ipc _⟩

/-- Metadata is only added for a topic that has none, and such a topic has no
batches. -/
theorem Inv.create {server : Server σ ρ} (hi : Inv ipc server) (t : String) (schema : Option σ) :
    Inv ipc (server.handle_herbert_connection (.CreateTopic t schema)) := by
  obtain ⟨h, ht, hp⟩ := hi
  refine ⟨h, ht.create t schema, ?_⟩
  intro t'
  show Produced ipc ((server.topic_manager.create t schema).2.topic_metadatas.lookup t') (h.ofTopic t')
  rw [lookup_create]
  split
  · rename_i hnew
    obtain ⟨rfl, hnone⟩ := hnew
    obtain ⟨ws, bs, heq, hws, hbs⟩ := hp t'
    have hnil : bs = [] := by
      rw [List.eq_nil_iff_forall_not_mem]
      intro b hb
      obtain ⟨name, hm⟩ := hbs b hb
      rw [hnone] at hm
      cases hm
    subst hnil
    exact ⟨ws, [], heq, hws, by simp⟩
  · exact hp t'

section
variable [DecidableEq σ]

/-- A record that was accepted goes to the end: raw only while the topic has no
schema, and then it has no batches. -/
theorem Produced.snoc {m : HashMap String (TopicMetadata σ)} {t : String} {record : Bytes} {r : StoredRecord σ ρ}
    {rs : List (StoredRecord σ ρ)} (h : Produced ipc (m.lookup t) rs) (hs : Sent ipc record)
    (hr : stored_record ipc m t record = .ok r) : Produced ipc (m.lookup t) (rs ++ [r]) := by
  obtain ⟨ws, bs, rfl, hws, hbs⟩ := h
  rcases stored_record_cases hr with rfl | ⟨b, _, rfl, -, name, hm⟩
  · have hnil : bs = [] := by
      rw [List.eq_nil_iff_forall_not_mem]
      intro b hb
      obtain ⟨name, hm⟩ := hbs b hb
      exact stored_record_raw hr name b.schema hm
    subst hnil
    refine ⟨ws ++ [record], [], by simp, ?_, by simp⟩
    intro w hw
    rcases List.mem_append.1 hw with hw | hw
    · exact hws w hw
    · rw [List.mem_singleton.1 hw]; exact hs
  · refine ⟨ws, bs ++ [b], by simp, hws, ?_⟩
    intro b' hb'
    rcases List.mem_append.1 hb' with hb' | hb'
    · exact hbs b' hb'
    · rw [List.mem_singleton.1 hb']; exact ⟨name, hm⟩

theorem Inv.produce (hipc : ipc.Lawful) {server : Server σ ρ} (hi : Inv ipc server) (t : String) {record : Bytes}
    (hs : Sent ipc record) :
    Inv ipc (server.handle_kafka_request ipc json (.Produce (some (create_produce_request t record)))).2 := by
  obtain ⟨h, ht, hp⟩ := hi
  rw [Server.handle_produce]
  cases hr : stored_record ipc server.topic_manager.topic_metadatas t record with
  | error e => rw [add_error _ hr]; exact ⟨h, ht, hp⟩
  | ok r =>
    obtain ⟨ht', -, hm⟩ := ht.add hr (WriteAheadLog.writable_of_lawful hipc r)
    refine ⟨h ++ [(t, r)], ht', ?_⟩
    intro t'
    dsimp only
    rw [hm, History.ofTopic_append, History.ofTopic_singleton]
    by_cases htt : t = t'
    · subst htt
      rw [if_pos rfl]
      exact (hp t).snoc hs hr
    · rw [if_neg htt, List.append_nil]
      exact hp t'

theorem Inv.handle (hipc : ipc.Lawful) {server : Server σ ρ} (hi : Inv ipc server) (call : Call σ ρ) :
    Inv ipc (call.handle ipc json server) := by
  cases call with
  | produce topic message => exact hi.produce json hipc topic (.inl ⟨message, rfl⟩)
  | produce_record_batch topic record_batch =>
    simp only [Call.handle, Client.produce_record_batch]
    split
    · exact hi
    · rename_i request h
      split at h
      · cases h
      · rename_i buffer hw
        cases h
        exact hi.produce json hipc topic (.inr ⟨record_batch, hw⟩)
  | create_topic topic schema => exact hi.create topic schema

theorem inv_serve (hipc : ipc.Lawful) {server : Server σ ρ} (hi : Inv ipc server) (calls : List (Call σ ρ)) :
    Inv ipc (serve ipc json server calls) := by
  induction calls generalizing server with
  | nil => exact hi
  | cons call calls ih => exact ih (hi.handle json hipc call)

end

/-! ## What the client makes of the bytes -/

/-- A stream is read to its end-of-stream marker, and its rows are counted. -/
theorem consume_stream (hipc : ipc.Framed) {s : σ} (bs : List (RecordBatch σ ρ)) (hs : ∀ b ∈ bs, b.schema = s)
    {w : Bytes} (hw : ipc.write s bs = .ok w) (o : Int) (tail : Bytes) :
    consume_continuos ipc o (w ++ tail) = .ok (some (o + (bs.map (·.num_rows)).sum)) := by
  obtain ⟨hmark, hlen⟩ := hipc.marked s bs w hw
  have hne : ¬ (w ++ tail).isEmpty := by
    rw [List.isEmpty_iff]
    intro h
    have hnil := congrArg List.length h
    rw [List.length_append, List.length_nil] at hnil
    omega
  have hmagic : has_magic (w ++ tail) := by
    have htake : (w ++ tail).take 4 = continuation :=
      (List.prefix_iff_eq_take.1 (hmark.trans (List.prefix_append w tail))).symm
    simp [has_magic, htake]
  rw [consume_continuos, if_neg hne, if_neg (by simp; omega), if_pos hmagic, hipc.stops s bs w tail hs hw]
  simp only [read_batches_ok]

/-- Bytes that do not start like a stream are taken for text. -/
theorem consume_text (hipc : ipc.Framed) {o : Int} {records : Bytes} {commit : Option Int}
    (hc : ¬ continuation <+: records) (h : consume_continuos ipc o records = .ok commit) :
    (records = [] ∧ commit = none) ∨
      (records ≠ [] ∧ commit = some (o + (split records).length) ∧ (0xFF : UInt8) ∉ records) := by
  unfold consume_continuos at h
  split at h
  · rename_i hnil
    cases h
    exact .inl ⟨List.isEmpty_iff.1 hnil, rfl⟩
  rename_i hne
  have hne : records ≠ [] := fun hnil => hne (List.isEmpty_iff.2 hnil)
  split at h
  · exact .inr ⟨hne, count_parts_ok h⟩
  split at h
  · rename_i hmagic
    -- the magic of a file, which the stream reader refuses
    simp only [has_magic, decide_eq_true_eq] at hmagic
    rcases hmagic with hfile | hstream
    · obtain ⟨e, he⟩ := hipc.no_file records (hfile ▸ List.take_prefix 6 records)
      rw [he] at h
      cases h
    · exact absurd (hstream ▸ List.take_prefix 4 records) hc
  · exact .inr ⟨hne, count_parts_ok h⟩

/-! ## Pass by pass -/

/-- Rows from the offset on: those left of the first batch, and all of the rest. -/
theorem rows_left {b : RecordBatch σ ρ} {r : Nat} (hr : r < b.num_rows) (bs : List (RecordBatch σ ρ)) :
    ((b.slice r (b.num_rows - r) :: bs).map (·.num_rows)).sum =
      entryCount ((b :: bs).map StoredRecord.Batch) - r := by
  have hslice : (b.slice r (b.num_rows - r)).num_rows = b.num_rows - r := by
    simp [RecordBatch.slice, RecordBatch.num_rows]
  have hrest : entryCount (bs.map StoredRecord.Batch) = (bs.map (·.num_rows)).sum := by
    rw [entryCount, total, List.map_map]; rfl
  rw [List.map_cons, List.sum_cons, hslice, List.map_cons, entryCount, total_cons]
  simp only [entryCount] at hrest
  rw [hrest]
  simp only [StoredRecord.entries]
  omega

/-- Bytes that open with a message do not start like a stream. -/
theorem text_start {w buffer : Bytes} {rest : List (StoredRecord σ ρ)} (hff : (0xFF : UInt8) ∉ w)
    (hnil : rest = [] → buffer = []) : ¬ continuation <+: rawBytes (.Raw w :: rest) ++ buffer := by
  intro hp
  cases w with
  | cons x w =>
    simp only [rawBytes, continuation, List.cons_append, List.cons_prefix_cons] at hp
    exact hff (by simp [hp.1])
  | nil =>
    cases rest with
    | nil => simp [rawBytes, hnil rfl, continuation] at hp
    | cons r rest => simp [rawBytes, continuation] at hp

/-- The messages hold no zero bytes exactly if they have no separators to add. -/
theorem zero_free_iff (ms : List Bytes) : (ms.map (·.count 0)).sum = 0 ↔ ∀ m ∈ ms, (0 : UInt8) ∉ m := by
  simp [List.sum_eq_zero_iff_forall_eq_nat, List.count_eq_zero]

/-- Text is counted right exactly if it is raw, has no zero bytes, and is not a
single empty message. -/
theorem text_iff (hipc : ipc.Framed) {w : Bytes} {ws : List Bytes} {bs : List (RecordBatch σ ρ)} {buffer : Bytes}
    (hff : (0xFF : UInt8) ∉ w) (hnil : bs = [] → buffer = []) (hcons : bs ≠ [] → continuation <+: buffer) {o : Int}
    {commit : Option Int}
    (h : consume_continuos ipc o (rawBytes ((w :: ws).map .Raw ++ bs.map .Batch) ++ buffer) = .ok commit) :
    commit = some (o + (entryCount ((w :: ws).map StoredRecord.Raw ++ bs.map StoredRecord.Batch) : Nat)) ↔
      (∀ r ∈ (w :: ws).map StoredRecord.Raw ++ bs.map StoredRecord.Batch, ∃ m, r = .Raw m ∧ 0 ∉ m) ∧
        ¬ (w = [] ∧ ws.map StoredRecord.Raw ++ bs.map StoredRecord.Batch = []) := by
  have hstart : ¬ continuation <+: rawBytes ((w :: ws).map .Raw ++ bs.map .Batch) ++ buffer :=
    text_start hff fun hrest => hnil (by simpa using (List.append_eq_nil_iff.1 hrest).2)
  rcases consume_text hipc hstart h with ⟨hempty, rfl⟩ | ⟨hne, rfl, hnoff⟩
  · constructor
    · intro hcommit
      cases hcommit
    · rintro ⟨-, hlone⟩
      refine absurd ?_ hlone
      simp only [List.map_cons, List.cons_append, rawBytes, List.append_eq_nil_iff, List.append_assoc] at hempty
      refine ⟨hempty.1, ?_⟩
      by_contra hrest
      rw [if_neg (by simpa using hrest)] at hempty
      cases hempty.2.1
  · have hbs : bs = [] := by
      by_contra hbs
      exact hnoff (List.mem_append_right _ ((hcons hbs).subset (by simp [continuation])))
    subst hbs
    rw [hnil rfl, List.append_nil, List.map_nil, List.append_nil, rawBytes_raw] at hne
    rw [hnil rfl, List.append_nil, List.map_nil, List.append_nil, List.append_nil, rawBytes_raw,
      length_split_join (List.cons_ne_nil w ws), entryCount_raw]
    have hlone : ¬ (w = [] ∧ ws.map (StoredRecord.Raw (σ := σ) (ρ := ρ)) = []) := by
      rintro ⟨rfl, hws⟩
      rw [List.map_eq_nil_iff] at hws
      subst hws
      exact hne rfl
    have hraw : (∀ r ∈ (w :: ws).map (StoredRecord.Raw (σ := σ) (ρ := ρ)), ∃ m, r = .Raw m ∧ 0 ∉ m) ↔
        ∀ m ∈ w :: ws, (0 : UInt8) ∉ m := by
      simp only [List.mem_map, forall_exists_index, and_imp, forall_apply_eq_imp_iff₂, StoredRecord.Raw.injEq,
        exists_eq_left']
    rw [hraw, ← zero_free_iff, Option.some.injEq]
    constructor
    · intro hcommit
      exact ⟨by omega, hlone⟩
    · rintro ⟨hz, -⟩
      omega

/-- Batches from row `r` of the first one on are counted right. -/
theorem consume_batches (hipc : ipc.Framed) {b : RecordBatch σ ρ} {bs : List (RecordBatch σ ρ)}
    (hs : ∀ b' ∈ bs, b'.schema = b.schema) {r : Nat} (hr : r < b.num_rows) {buffer : Bytes}
    (hw : ipc.write b.schema (b.slice r (b.num_rows - r) :: bs) = .ok buffer) (o : Int) :
    consume_continuos ipc o buffer =
      .ok (some (o + (entryCount ((b :: bs).map StoredRecord.Batch) - r : Nat))) := by
  have hschema : ∀ b' ∈ b.slice r (b.num_rows - r) :: bs, b'.schema = b.schema := by
    intro b' hb'
    rcases List.mem_cons.1 hb' with rfl | hb'
    · rfl
    · exact hs b' hb'
  have hcommit := consume_stream hipc _ hschema hw o []
  rwa [List.append_nil, rows_left hr] at hcommit

/-- Of a stream stored raw the client sees the first batch, and nothing behind it. -/
theorem stream_iff (hipc : ipc.Framed) {w : Bytes} (hw : Sent ipc w) (hc : continuation <+: w) {o : Int}
    {tail : Bytes} {commit : Option Int} (h : consume_continuos ipc o (w ++ tail) = .ok commit) (left : Nat)
    (rest : List (StoredRecord σ ρ)) : commit = some (o + left) ↔ Counts ipc left (.Raw w :: rest) := by
  obtain ⟨b, hb⟩ := hw.stream hc
  have hread : ipc.read w = .ok [.ok b] := by
    obtain ⟨w', hw', hread⟩ := hipc.read_write b.schema [b] (by simp)
    rw [hb] at hw'
    cases hw'
    exact hread
  rw [consume_stream hipc (s := b.schema) [b] (by simp) hb o tail] at h
  cases h
  simp only [Counts, if_pos hc, hread, List.map_cons, List.map_nil, List.sum_cons, List.sum_nil, Nat.add_zero,
    Option.some.injEq]
  constructor
  · intro hcommit
    exact ⟨b, rfl, by omega⟩
  · rintro ⟨b', hb', hrows⟩
    cases hb'
    rw [hrows]

/-- On what clients send, a pass commits the right offset exactly under
`Counts`. -/
theorem consume_iff_counts (hipc : ipc.Framed) {metadata : Option (TopicMetadata σ)}
    {rs : List (StoredRecord σ ρ)} (ro : RecordOffset) {x : StoredRecord σ ρ}
    (hp : Produced ipc metadata (rs.drop ro.batch_index)) (hx : rs[ro.batch_index]? = some x)
    (hr : ro.row_offset < x.entries) {o : Int} {records : Bytes} {commit : Option Int}
    (hf : fetch_records ipc rs ro = .ok records) (hc : consume_continuos ipc o records = .ok commit) :
    commit = some (o + (entryCount (rs.drop ro.batch_index) - ro.row_offset : Nat)) ↔
      Counts ipc (entryCount (rs.drop ro.batch_index) - ro.row_offset) (rs.drop ro.batch_index) := by
  obtain ⟨ws, bs, hd, hws, hbs⟩ := hp
  have hschema := schema_of_metadata hbs
  obtain ⟨buffer, hfetch, hnil, hwrite⟩ := fetch_in_order hipc.toLawful hschema ro hd
  rw [hfetch] at hf
  cases hf
  have hhead : (ws.map StoredRecord.Raw ++ bs.map StoredRecord.Batch)[0]? = some x := by
    rw [← hd, List.getElem?_drop]
    exact hx
  rw [hd]
  cases ws with
  | nil =>
    cases bs with
    | nil => cases hhead
    | cons b rest =>
      obtain rfl : .Batch b = x := Option.some.inj hhead
      rw [List.map_nil, List.nil_append] at hc ⊢
      rw [rawBytes_batch, List.nil_append,
        consume_batches hipc (fun b' hb' => hschema b (by simp) b' (by simp [hb'])) hr (hwrite b rest rfl) o] at hc
      cases hc
      exact ⟨fun _ => trivial, fun _ => rfl⟩
  | cons w ws =>
    obtain rfl : .Raw w = x := Option.some.inj hhead
    have hw : Sent ipc w := hws w (by simp)
    rw [Nat.lt_one_iff.1 hr, Nat.sub_zero]
    by_cases hcont : continuation <+: w
    · rw [List.map_cons, List.cons_append, rawBytes, List.append_assoc, List.append_assoc] at hc
      exact stream_iff hipc hw hcont hc _ _
    · have hbuf : bs ≠ [] → continuation <+: buffer := by
        intro hne
        obtain ⟨b, rest, rfl⟩ := List.exists_cons_of_ne_nil hne
        exact (hipc.marked _ _ _ (hwrite b rest rfl)).1
      have htext := text_iff hipc (hw.message hipc hcont) hnil hbuf hc
      simp only [Counts, List.map_cons, List.cons_append, if_neg hcont] at htext ⊢
      exact htext

section
variable [DecidableEq σ]

/-- Where the response to its Fetch arrives in one read behind its length, a pass
that succeeds commits its offset plus the number of entries from there on if and
only if `Counts` holds of the records stored from there on. -/
theorem commits_iff_counts {kafka : KafkaCodec} (hk : kafka.Lawful) (hipc : ipc.Framed) (config : Config)
    (calls : List (Call σ ρ)) {server : Server σ ρ} (hserver : server = serve ipc json (.new config) calls)
    (topic : String) (max_messages : Int) {offset : Int} (h0 : 0 ≤ offset) (h1 : offset < 2 ^ 63)
    (hlt : offset.toNat < (server.topic_manager.backend.offset_queue topic).length) (q : ReadRequest kafka)
    (hq : q.request = .Fetch (some (create_fetch_request topic max_messages offset))) (hv : q.api_version = 1)
    {sent next : Bytes} (hsent : (handle_message kafka ipc json server q.message).1 = .ok sent) {s : Stream UInt8}
    (hs : s.content = sent ++ next) (hone : (s.drop 4).OneRead (ofBe (sent.take 4)) (sent.drop 4))
    {commit : Option Int} (hc : pass ipc kafka offset s = .ok commit) :
    commit = some (offset + entries_from server.topic_manager.backend topic offset) ↔
      Counts ipc (entries_from server.topic_manager.backend topic offset)
        (records_from server.topic_manager.backend topic offset) := by
  obtain ⟨h, htracks, hp⟩ : Inv ipc server := hserver ▸ inv_serve json hipc.toLawful (inv_new ipc config) calls
  have hqueue := List.prefix_iff_eq_take.1 (htracks.queue_isPrefix topic)
  obtain ⟨visible, -, hvis⟩ := htracks
  have hindex : server.topic_manager.backend.offset_queue topic =
      offsetIndex (server.topic_manager.backend.queue topic) := by rw [hvis.index, hvis.queue]
  have hprod : Produced ipc (server.topic_manager.topic_metadatas.lookup topic)
      (server.topic_manager.backend.queue topic) := by
    rw [hqueue]
    exact (hp topic).take _
  have hfst : (server.topic_manager.fetch ipc topic offset).1 =
      readFrom ipc (server.topic_manager.backend.queue topic) offset := by
    rw [hvis.queue, ← fetch_holds ipc hvis topic offset]
    rfl
  obtain ⟨rs, hrs⟩ : ∃ rs, server.topic_manager.backend.queue topic = rs := ⟨_, rfl⟩
  rw [hrs] at hindex hprod hfst
  rw [hindex] at hlt
  obtain ⟨j, x, r, hj, hr, hsum, hget, hread⟩ :=
    readFrom_inside ipc rs h0 h1 (by rw [offsetIndex, length_flat] at hlt; unfold entryCount; omega)
  have hentries : entries_from server.topic_manager.backend topic offset = entryCount (rs.drop j) - r := by
    rw [entries_from, hindex, List.length_drop, offsetIndex, length_flat]
    exact (total_drop hsum).symm
  have hrecords : records_from server.topic_manager.backend topic offset = rs.drop j := by
    rw [records_from, hindex, hget, hrs]
  obtain ⟨ws, bs, hd, -, hbs⟩ := hprod.drop j
  obtain ⟨buffer, hfetch, -⟩ := fetch_in_order hipc.toLawful (schema_of_metadata hbs) ⟨j, r⟩ hd
  rw [hread, hfetch] at hfst
  have hresponse := congrArg Prod.fst (Server.handle_fetch ipc json hfst max_messages)
  rw [← hq] at hresponse
  have hrecords' := ((ClientReads.records_iff ipc json hk hsent hs hresponse rfl).2 hone).1
  rw [pass, ← hv, hrecords'] at hc
  rw [hentries, hrecords]
  exact consume_iff_counts hipc ⟨j, r⟩ (hprod.drop j) hj hr hfetch hc

end

/-! ## Two runs -/

/-- A Fetch from offset 1 of topic `t`, at version 1. -/
def fetch_second : ReadRequest pocketKafka where
  message := [0, 1, 0, 1, 0, 0, 0, 0, 0, 0, 255, 255, 255, 255, 0, 0, 0, 0, 0, 0, 0, 0, 0, 0, 0, 1, 0, 1, 116, 0, 0, 0, 1,
    0, 0, 0, 0, 0, 0, 0, 0, 0, 0, 0, 1, 0, 0, 0, 0]
  api_version := 1
  header_version := 1
  header := ⟨1, 1, 0, some ""⟩
  buffer := [255, 255, 255, 255, 0, 0, 0, 0, 0, 0, 0, 0, 0, 0, 0, 1, 0, 1, 116, 0, 0, 0, 1, 0, 0, 0, 0, 0, 0, 0, 0, 0, 0,
    0, 1, 0, 0, 0, 0]
  request := .Fetch (some (create_fetch_request "t" 0x7FFFFFFF 1))
  header_read := by decide +kernel
  request_read := by decide +kernel
  answered := .inl ⟨_, rfl⟩
  length_lt := by simp

/-- The response with these records. -/
def records_sent (q : ReadRequest pocketKafka) (records : Bytes) : Bytes :=
  let payload := q.payload (.Fetch ⟨[⟨[⟨some records⟩]⟩]⟩)
  be 4 (5 + payload.length) ++ payload

/-- The rows 2 and 3 of one batch and 4 of the next one. -/
def rows_sent : Bytes := records_sent fetch_second (continuation ++ [7, 3, 1, 2, 1, 3, 2, 3, 1, 4, 2, 0, 0, 0])

/-- Two streams of three rows, stored raw. -/
def streams_sent : Bytes :=
  records_sent ClientReads.fetch_request (continuation ++ [7, 3, 1, 1, 1, 2, 1, 3, 2, 0, 0, 0] ++ [0] ++
    (continuation ++ [7, 3, 1, 4, 1, 5, 1, 6, 2, 0, 0, 0]))

/-- A topic with a schema is counted right from the middle of its batch. -/
theorem commits_iff_counts_batch :
    pass pocketIpc pocketKafka 1 ⟨[rows_sent.take 4, rows_sent.drop 4], by decide +kernel⟩ = .ok (some 4) := by
  let calls : List (Call UInt8 UInt8) := [.create_topic "t" (some 7), .produce_record_batch "t" ⟨7, [1, 2, 3]⟩,
    .produce_record_batch "t" ⟨7, [4]⟩]
  let server := serve pocketIpc plainJson (.new ⟨1⟩) calls
  obtain ⟨commit, hc⟩ : ∃ commit, pass pocketIpc pocketKafka 1
      ⟨[rows_sent.take 4, rows_sent.drop 4], by decide +kernel⟩ = .ok commit := ⟨some 4, by decide +kernel⟩
  have hsent : (handle_message pocketKafka pocketIpc plainJson server fetch_second.message).1 = .ok rows_sent := by
    decide +kernel
  have hcounts := (commits_iff_counts plainJson pocketKafka_lawful pocketIpc_framed ⟨1⟩ calls rfl "t" 0x7FFFFFFF
    (by decide) (by decide) (by decide +kernel) fetch_second rfl rfl hsent
    (show _ = rows_sent ++ [] by decide +kernel)
    ⟨_, _, rfl, by decide +kernel⟩ hc).2 trivial
  have hleft : entries_from server.topic_manager.backend "t" 1 = 3 := by decide +kernel
  rw [hc, hcounts, hleft]
  rfl

/-- Not every pass agrees: two batches of three rows, stored raw in a topic
without a schema, are two entries, and the client commits three after it read the
first. -/
theorem stream_miscounted :
    ¬ ∀ (calls : List (Call UInt8 UInt8)) (server : Server UInt8 UInt8),
      server = serve pocketIpc plainJson (.new ⟨1⟩) calls →
      ∀ (topic : String) (max_messages offset : Int), 0 ≤ offset →
        offset.toNat < (server.topic_manager.backend.offset_queue topic).length →
        ∀ q : ReadRequest pocketKafka, q.request = .Fetch (some (create_fetch_request topic max_messages offset)) →
          q.api_version = 1 → ∀ sent, (handle_message pocketKafka pocketIpc plainJson server q.message).1 = .ok sent →
          ∀ (s : Stream UInt8) commit, s.content = sent → pass pocketIpc pocketKafka offset s = .ok commit →
            commit = some (offset + entries_from server.topic_manager.backend topic offset) := by
  intro h
  have hthree := h [.produce_record_batch "t" ⟨7, [1, 2, 3]⟩, .produce_record_batch "t" ⟨7, [4, 5, 6]⟩] _ rfl
    "t" 0x7FFFFFFF 0 (by decide) (by decide) ClientReads.fetch_request rfl rfl streams_sent (by decide +kernel)
    ⟨[streams_sent.take 4, streams_sent.drop 4], by decide +kernel⟩ (some 3) (by decide +kernel) (by decide +kernel)
  exact absurd hthree (by decide +kernel)

end herbert.Continuous
