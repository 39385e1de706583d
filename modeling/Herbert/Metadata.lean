import Herbert.Fetch
import Herbert.Crash
import Herbert.Faults
/-!
# Topic metadata across restarts

Metadata is never logged. `recover` gives a topic the schema of the first batch
it reads for it (`lookup_restart`), and a topic without a batch gets none.

`Shaped` is what every reachable log looks like: raw records, then batches of
the one schema that the topic's metadata holds. From it follows which topics
come back after a restart as they were.
-/
open Lib Lib.Bytes Lib.Runs herbert.WriteAheadLog herbert.Recovery herbert.Crash herbert.TopicManager herbert.Fetch

namespace herbert.Metadata

variable {σ ρ : Type} {ipc : ArrowIpc σ ρ}

/-! ## What recover rebuilds -/

/-- The schema of the first batch among the records. -/
def first_schema (rs : List (StoredRecord σ ρ)) : Option σ := (batchesOf rs).head?.map (·.schema)

theorem first_schema_append (rs rs' : List (StoredRecord σ ρ)) :
    first_schema (rs ++ rs') = (first_schema rs).or (first_schema rs') := by
  rw [first_schema, first_schema, first_schema, batchesOf_append]
  cases batchesOf rs <;> simp

theorem lookup_installed_one (tm : TopicManager σ ρ (InMemoryLog σ ρ)) (e : String × Option (StoredRecord σ ρ))
    (t : String) :
    (installed tm e).topic_metadatas.lookup t = (tm.topic_metadatas.lookup t).or
      ((first_schema ((records [e]).ofTopic t)).map fun s => ⟨t, some s⟩) := by
  obtain ⟨u, r⟩ := e
  match r with
  | none => simp [installed, install, records, first_schema, batchesOf]
  | some (.Raw buf) =>
    by_cases hu : u = t <;>
      simp [installed, install, store, records, first_schema, batchesOf, History.ofTopic_singleton, hu]
  | some (.Batch b) =>
    cases hm : tm.topic_metadatas.lookup u with
    | some m =>
      by_cases hu : u = t
      · subst hu
        simp [installed, install, store, topic_exists, hm]
      · simp [installed, install, store, topic_exists, hm, records, first_schema, batchesOf,
          History.ofTopic_singleton, hu]
    | none =>
      by_cases hu : u = t
      · subst hu
        simp [installed, install, store, create, topic_exists, hm, records, first_schema, batchesOf,
          History.ofTopic_singleton]
      · simp [installed, install, store, create, topic_exists, hm, records, first_schema, batchesOf,
          History.ofTopic_singleton, hu, AList.lookup_insert_ne (Ne.symm hu)]

theorem lookup_installed (tm : TopicManager σ ρ (InMemoryLog σ ρ)) (es : List (String × Option (StoredRecord σ ρ)))
    (t : String) :
    (es.foldl installed tm).topic_metadatas.lookup t = (tm.topic_metadatas.lookup t).or
      ((first_schema ((records es).ofTopic t)).map fun s => ⟨t, some s⟩) := by
  induction es generalizing tm with
  | nil => simp [records, first_schema, batchesOf]
  | cons e es ih =>
    rw [List.foldl_cons, ih, lookup_installed_one, records_cons e es, History.ofTopic_append, first_schema_append,
      Option.or_assoc]
    cases first_schema ((records [e]).ofTopic t) <;> simp

/-- After a restart a topic exists if a batch of it was read, with that batch's
schema. -/
theorem lookup_restart (config : Config) (file : Bytes) (t : String) :
    (restart ipc config file).2.topic_metadatas.lookup t =
      (first_schema ((recovered ipc file).ofTopic t)).map fun s => ⟨t, some s⟩ := by
  rw [restart, recover, recover_loop_eq, lookup_installed]
  simp [TopicManager.new, WriteAheadLog.new, recovered]

/-! ## The shape of a log -/

/-- Raw records, then batches, and these have the schema of the metadata. -/
def Shaped (metadata : Option (TopicMetadata σ)) (rs : List (StoredRecord σ ρ)) : Prop :=
  ∃ (ws : List Bytes) (bs : List (RecordBatch σ ρ)), rs = ws.map .Raw ++ bs.map .Batch ∧
    ∀ b ∈ bs, metadata.bind (·.schema) = some b.schema

theorem shaped_nil (metadata : Option (TopicMetadata σ)) : Shaped metadata ([] : List (StoredRecord σ ρ)) :=
  ⟨[], [], rfl, by simp⟩

/-- A raw record goes behind raw records. -/
theorem Shaped.raw {metadata : Option (TopicMetadata σ)} {rs : List (StoredRecord σ ρ)} (h : Shaped metadata rs)
    (hn : metadata.bind (·.schema) = none) (w : Bytes) : Shaped metadata (rs ++ [.Raw w]) := by
  obtain ⟨ws, bs, rfl, hbs⟩ := h
  have hnil : bs = [] := by
    refine List.eq_nil_iff_forall_not_mem.2 fun b hb => ?_
    have := hbs b hb
    rw [hn] at this
    cases this
  subst hnil
  exact ⟨ws ++ [w], [], by simp, by simp⟩

/-- A batch of the topic's schema goes behind anything. -/
theorem Shaped.batch {metadata : Option (TopicMetadata σ)} {rs : List (StoredRecord σ ρ)} (h : Shaped metadata rs)
    {b : RecordBatch σ ρ} (hb : metadata.bind (·.schema) = some b.schema) : Shaped metadata (rs ++ [.Batch b]) := by
  obtain ⟨ws, bs, rfl, hbs⟩ := h
  refine ⟨ws, bs ++ [b], by simp, ?_⟩
  intro b' hb'
  rcases List.mem_append.1 hb' with hb' | hb'
  · exact hbs b' hb'
  · rw [List.mem_singleton.1 hb', hb]

/-- New metadata for a topic that had none. -/
theorem Shaped.create {rs : List (StoredRecord σ ρ)} (h : Shaped none rs) (metadata : Option (TopicMetadata σ)) :
    Shaped metadata rs := by
  obtain ⟨ws, bs, rfl, hbs⟩ := h
  cases bs with
  | nil => exact ⟨ws, [], rfl, by simp⟩
  | cons b bs => exact absurd (hbs b (by simp)) (by simp)

theorem batchesOf_shape (ws : List Bytes) (bs : List (RecordBatch σ ρ)) :
    batchesOf (ws.map .Raw ++ bs.map .Batch) = bs := by
  rw [batchesOf_append, batchesOf_raw, batchesOf_batch, List.nil_append]

theorem Shaped.drop {metadata : Option (TopicMetadata σ)} {rs : List (StoredRecord σ ρ)} (h : Shaped metadata rs)
    (i : Nat) : Shaped metadata (rs.drop i) := by
  obtain ⟨ws, bs, rfl, hbs⟩ := h
  refine ⟨ws.drop i, bs.drop (i - ws.length), ?_, fun b hb => hbs b (List.mem_of_mem_drop hb)⟩
  rw [List.drop_append, List.map_drop, List.map_drop, List.length_map]

/-- All batches have the schema of the first one. -/
theorem Shaped.first_schema_of_mem {metadata : Option (TopicMetadata σ)} {rs : List (StoredRecord σ ρ)}
    (h : Shaped metadata rs) {b : RecordBatch σ ρ} (hb : b ∈ batchesOf rs) :
    first_schema rs = some b.schema ∧ metadata.bind (·.schema) = some b.schema := by
  obtain ⟨ws, bs, rfl, hbs⟩ := h
  rw [batchesOf_shape] at hb
  have hmeta := hbs b hb
  refine ⟨?_, hmeta⟩
  rw [first_schema, batchesOf_shape]
  cases bs with
  | nil => cases hb
  | cons b' bs =>
    have := hbs b' (by simp)
    rw [hmeta] at this
    simpa using this.symm

/-- The first records of a log that has the shape. -/
theorem Shaped.of_isPrefix {metadata : Option (TopicMetadata σ)} {rs rs' : List (StoredRecord σ ρ)}
    (h : Shaped metadata rs) (hp : rs' <+: rs) : Shaped metadata rs' := by
  obtain ⟨ws, bs, rfl, hbs⟩ := h
  rcases prefix_append_cases hp with hp | ⟨q, rfl, hq⟩
  · obtain ⟨ws', -, rfl⟩ := List.prefix_map_iff.1 hp
    exact ⟨ws', [], by simp, by simp⟩
  · obtain ⟨bs', hbs', rfl⟩ := List.prefix_map_iff.1 hq
    exact ⟨ws, bs', rfl, fun b hb => hbs b (hbs'.subset hb)⟩

variable (ipc) in
/-- A fetch emits the records from the offset on in the order of the log: the raw
ones, and behind them one stream of the batches, the first of them without the
rows before the offset. -/
def InOrder (log : InMemoryLog σ ρ) (t : String) (o : Int) : Prop :=
  ∃ (ro : RecordOffset) (ws : List Bytes) (bs : List (RecordBatch σ ρ)) (buffer : Bytes),
    (log.offset_queue t)[o.toNat]? = some ro ∧ (log.queue t).drop ro.batch_index = ws.map .Raw ++ bs.map .Batch ∧
    (log.fetch ipc t o).1 = .ok (rawBytes ((log.queue t).drop ro.batch_index) ++ buffer) ∧ (bs = [] → buffer = []) ∧
    ∀ b rest, bs = b :: rest →
      ipc.read buffer = .ok ((b.slice ro.row_offset (b.num_rows - ro.row_offset) :: rest).map .ok)

theorem Shaped.schema_eq {metadata : Option (TopicMetadata σ)} {bs : List (RecordBatch σ ρ)}
    (h : ∀ b ∈ bs, metadata.bind (·.schema) = some b.schema) : ∀ b ∈ bs, ∀ b' ∈ bs, b'.schema = b.schema := by
  intro b hb b' hb'
  exact Option.some.inj ((h b' hb').symm.trans (h b hb))

/-- So a log of the shape is fetched in its order, from wherever the fetch starts. -/
theorem Shaped.inOrder (hipc : ipc.Lawful) {metadata : Option (TopicMetadata σ)} {log : InMemoryLog σ ρ}
    {h : History σ ρ} (hl : Holds log h) {t : String} (hs : Shaped metadata (log.queue t)) {o : Int} (h0 : 0 ≤ o)
    (h1 : o < 2 ^ 63) (hlt : o < entryCount (log.queue t)) : InOrder ipc log t o := by
  obtain ⟨j, x, r, -, -, -, hindex, hread⟩ := readFrom_inside ipc (log.queue t) h0 h1 hlt
  obtain ⟨ws, bs, hd, hbs⟩ := hs.drop j
  have hschema := Shaped.schema_eq hbs
  obtain ⟨buffer, hfetch, hnil, hwrite⟩ := fetch_in_order hipc hschema ⟨j, r⟩ hd
  refine ⟨⟨j, r⟩, ws, bs, buffer, ?_, hd, ?_, hnil, ?_⟩
  · rw [hl.index, ← hl.queue, hindex]
  · rw [fetch_holds ipc hl, ← hl.queue, hread, hfetch, hd]
  · rintro b rest rfl
    have hall : ∀ b' ∈ b.slice r (b.num_rows - r) :: rest, b'.schema = b.schema := by
      intro b' hb'
      rcases List.mem_cons.1 hb' with rfl | hb'
      · rfl
      · exact hschema b (by simp) b' (by simp [hb'])
    obtain ⟨w, hw, hrd⟩ := hipc.read_write b.schema _ hall
    rw [hwrite b rest rfl] at hw
    cases hw
    exact hrd

/-- The shape is also that of the metadata rebuilt from the records. -/
theorem Shaped.rebuilt {metadata : Option (TopicMetadata σ)} {rs : List (StoredRecord σ ρ)}
    (h : Shaped metadata rs) (t : String) : Shaped ((first_schema rs).map fun s => ⟨t, some s⟩) rs := by
  have hfirst : ∀ b ∈ batchesOf rs, first_schema rs = some b.schema := fun b hb => (h.first_schema_of_mem hb).1
  obtain ⟨ws, bs, rfl, -⟩ := h
  rw [batchesOf_shape] at hfirst
  refine ⟨ws, bs, rfl, fun b hb => ?_⟩
  rw [hfirst b hb]
  rfl

/-! ## Runs -/

/-- A call or a kill, or an orderly end: the `BufWriter` writes what is pending
when it is dropped. -/
inductive Event (σ : Type) where
  | call (ev : Crash.Event σ)
  | close (config : Config)

/-- The process with its `BufWriter` dropped. -/
def dropped (p : Process σ ρ) : Process σ ρ :=
  { p with tm := { p.tm with wal := { p.tm.wal with file := p.tm.wal.file.flush } } }

variable (ipc) in
/-- The log of every topic has the shape, and metadata is filed under its name. -/
structure Inv (p : Process σ ρ) : Prop where
  crash : Crash.Inv ipc p
  shaped : ∀ t, Shaped (p.tm.topic_metadatas.lookup t) (p.accepted.ofTopic t)
  named : ∀ t metadata, p.tm.topic_metadatas.lookup t = some metadata → metadata.name = t

theorem inv_start (config : Config) : Inv ipc (start config : Process σ ρ) where
  crash := Crash.inv_start config
  shaped t := shaped_nil _
  named t metadata h := by
    simp [start, TopicManager.new] at h

theorem Inv.queue_buffer {p : Process σ ρ} (h : Inv ipc p) (t : String) :
    p.tm.backend.queue t ++ History.ofTopic t p.tm.wal.buffer = p.accepted.ofTopic t := by
  obtain ⟨visible, -, hacc, hvis, -⟩ := h.crash
  rw [hacc, hvis.queue, History.ofTopic_append]

theorem inv_dropped {p : Process σ ρ} (h : Inv ipc p) : Inv ipc (dropped p) where
  crash := by
    obtain ⟨visible, k, hacc, hvis, hfile, -, hclean⟩ := h.crash
    exact ⟨visible, p.accepted.length, hacc, hvis, hfile.flush, by simp [hacc], hclean⟩
  shaped := h.shaped
  named := h.named

theorem inv_create {p : Process σ ρ} (h : Inv ipc p) (u : String) (schema : Option σ)
    (hc : Crash.Inv ipc { p with tm := (p.tm.create u schema).2 }) :
    Inv ipc { p with tm := (p.tm.create u schema).2 } where
  crash := hc
  shaped t := by
    show Shaped ((p.tm.create u schema).2.topic_metadatas.lookup t) (p.accepted.ofTopic t)
    rw [lookup_create]
    split
    · rename_i hnew
      obtain ⟨rfl, hnone⟩ := hnew
      have := h.shaped t
      rw [hnone] at this
      exact this.create _
    · exact h.shaped t
  named t metadata hm := by
    rw [show (p.tm.create u schema).2.topic_metadatas.lookup t = _ from lookup_create p.tm u schema t] at hm
    split at hm
    · rename_i hnew
      cases hm
      exact hnew.1.symm
    · exact h.named t metadata hm

theorem inv_kill {p : Process σ ρ} (h : Inv ipc p) (config : Config) :
    Inv ipc ⟨(restart ipc config p.tm.wal.file.inner).2, recovered ipc p.tm.wal.file.inner⟩ := by
  obtain ⟨visible, kept, hacc, hkept, -, hrec, hinner, hclean⟩ := h.crash.recovered
  refine ⟨inv_restart config hrec hinner hclean, ?_, ?_⟩
  · intro t
    show Shaped ((restart ipc config p.tm.wal.file.inner).2.topic_metadatas.lookup t) _
    rw [lookup_restart]
    have hp : recovered ipc p.tm.wal.file.inner <+: p.accepted := by
      rw [hrec, hacc]
      exact (List.prefix_append_right_inj _).2 hkept
    exact ((h.shaped t).of_isPrefix (History.ofTopic_isPrefix t hp)).rebuilt t
  · intro t metadata hm
    rw [lookup_restart, Option.map_eq_some_iff] at hm
    obtain ⟨s, -, rfl⟩ := hm
    rfl

section
variable [DecidableEq σ]

variable (ipc) in
def step (p : Process σ ρ) : Event σ → Option (Process σ ρ)
  | .call ev => Crash.step ipc p ev
  | .close config => Crash.step ipc (dropped p) (.kill config)

variable (ipc) in
/-- What an `add` stores can be logged. -/
def Fits (p : Process σ ρ) : Event σ → Prop
  | .call (.add topic record) => StoresLoggable ipc p.tm.topic_metadatas topic record
  | _ => True

/-- What `add` accepts keeps the shape: raw bytes only without a schema, batches
only of the topic's schema. -/
theorem Shaped.stored {m : HashMap String (TopicMetadata σ)} {t : String} {record : Bytes} {r : StoredRecord σ ρ}
    {rs : List (StoredRecord σ ρ)} (h : Shaped (m.lookup t) rs) (hr : stored_record ipc m t record = .ok r) :
    Shaped (m.lookup t) (rs ++ [r]) := by
  cases r with
  | Raw w =>
    refine h.raw ?_ w
    cases hm : m.lookup t with
    | none => rfl
    | some metadata =>
      obtain ⟨name, schema⟩ := metadata
      cases schema with
      | none => rfl
      | some s => exact absurd hm (stored_record_raw hr name s)
  | Batch b =>
    rcases stored_record_cases hr with hraw | ⟨b', bs, hb, -, name, hm⟩
    · cases hraw
    · cases hb
      exact h.batch (by rw [hm]; rfl)

theorem inv_add {p : Process σ ρ} (hipc : ipc.Lawful) (h : Inv ipc p) (u : String) (record : Bytes)
    (hc : Crash.Inv ipc ⟨(p.tm.add ipc u record).2, p.accepted ++ acceptedBy ipc p.tm u record⟩) :
    Inv ipc ⟨(p.tm.add ipc u record).2, p.accepted ++ acceptedBy ipc p.tm u record⟩ where
  crash := hc
  shaped t := by
    show Shaped ((p.tm.add ipc u record).2.topic_metadatas.lookup t) (History.ofTopic t (p.accepted ++ _))
    rw [topic_metadatas_add, History.ofTopic_append]
    cases hr : stored_record ipc p.tm.topic_metadatas u record with
    | error e => simpa [acceptedBy, hr] using h.shaped t
    | ok r =>
      have hadd := add_log p.tm hr (writable_of_lawful hipc r)
      rw [show acceptedBy ipc p.tm u record = [(u, r)] by simp [acceptedBy, hadd, hr], History.ofTopic_singleton]
      dsimp only
      split
      · rename_i hu
        subst hu
        exact (h.shaped u).stored hr
      · simpa using h.shaped t
  named t metadata hm := by
    rw [topic_metadatas_add] at hm
    exact h.named t metadata hm

theorem inv_step (hipc : ipc.Lawful) {p p' : Process σ ρ} {ev : Event σ} (h : Inv ipc p) (hf : Fits ipc p ev)
    (hs : step ipc p ev = some p') : Inv ipc p' := by
  match ev with
  | .call (.create u schema) =>
    have hc := Crash.inv_step hipc h.crash (show Admissible ipc p (.create u schema) from trivial) hs
    cases hs
    exact inv_create h u schema hc
  | .call (.add u record) =>
    have hc := Crash.inv_step hipc h.crash (show Admissible ipc p (.add u record) from fun r hr => (hf r hr).delimited) hs
    cases hs
    exact inv_add hipc h u record hc
  | .call (.kill config) =>
    cases hs
    exact inv_kill h config
  | .close config =>
    cases hs
    exact inv_kill (inv_dropped h) config

theorem inv_run (hipc : ipc.Lawful) {config : Config} {tr p} (hr : Run (step ipc) (start config) tr p)
    (hf : Always (Fits ipc) tr) : Inv ipc p :=
  hr.inv_while (Inv ipc) (inv_start config) (fun _ _ _ => inv_step hipc) hf

/-! ## The shape of every log -/

/-- In every reachable state the records of a topic, visible or buffered, are raw
records, then batches of one schema, the one in the topic's metadata. So a fetch
emits them in their order, from wherever it starts. -/
theorem log_shape (hipc : ipc.Lawful) {config : Config} {tr} {p : Process σ ρ}
    (hr : Run (step ipc) (start config) tr p) (hf : Always (Fits ipc) tr) (t : String) :
    Shaped (p.tm.topic_metadatas.lookup t) (p.tm.backend.queue t ++ History.ofTopic t p.tm.wal.buffer) ∧
      ∀ o : Int, 0 ≤ o → o < 2 ^ 63 → o < entryCount (p.tm.backend.queue t) → InOrder ipc p.tm.backend t o := by
  have hi := inv_run hipc hr hf
  have hs : Shaped (p.tm.topic_metadatas.lookup t) (p.tm.backend.queue t ++ History.ofTopic t p.tm.wal.buffer) := by
    rw [hi.queue_buffer]
    exact hi.shaped t
  obtain ⟨visible, -, -, hvis, -⟩ := hi.crash
  exact ⟨hs, fun o h0 h1 hlt => (hs.of_isPrefix (List.prefix_append _ _)).inOrder hipc hvis h0 h1 hlt⟩

/-- A raw record before the topic is created, batches after it, and a kill that
loses the last one. -/
theorem log_shape_pocket :
    ∃ p : Process UInt8 UInt8,
      exec (step pocketIpc) (start ⟨2⟩) [.call (.add "t" [5]), .call (.create "t" (some 7)),
        .call (.add "t" [255, 255, 255, 255, 7, 3, 1, 1, 2, 0, 0, 0]),
        .call (.add "t" [255, 255, 255, 255, 7, 3, 1, 2, 2, 0, 0, 0]), .call (.kill ⟨1⟩)] = some p ∧
      p.tm.backend.queue "t" = [.Raw [5], .Batch ⟨7, [1]⟩] ∧
      Shaped (p.tm.topic_metadatas.lookup "t") (p.tm.backend.queue "t" ++ History.ofTopic "t" p.tm.wal.buffer) := by
  obtain ⟨p, hp⟩ := Option.isSome_iff_exists.1 (show (exec (step pocketIpc) (start ⟨2⟩) [.call (.add "t" [5]),
    .call (.create "t" (some 7)), .call (.add "t" [255, 255, 255, 255, 7, 3, 1, 1, 2, 0, 0, 0]),
    .call (.add "t" [255, 255, 255, 255, 7, 3, 1, 2, 2, 0, 0, 0]), .call (.kill ⟨1⟩)]).isSome by decide +kernel)
  have hq : (exec (step pocketIpc) (start ⟨2⟩) [.call (.add "t" [5]), .call (.create "t" (some 7)),
      .call (.add "t" [255, 255, 255, 255, 7, 3, 1, 1, 2, 0, 0, 0]),
      .call (.add "t" [255, 255, 255, 255, 7, 3, 1, 2, 2, 0, 0, 0]), .call (.kill ⟨1⟩)]).map
      (·.tm.backend.queue "t") = some [.Raw [5], .Batch ⟨7, [1]⟩] := by decide +kernel
  rw [hp] at hq
  obtain ⟨tr, hr, hl⟩ := Run.nil.exec hp
  have hf : Always (Fits pocketIpc) tr := by
    rintro ⟨q, ev⟩ hx
    have hev := List.mem_map_of_mem (f := (·.2)) hx
    rw [hl] at hev
    simp only [List.mem_cons, List.not_mem_nil, or_false] at hev
    rcases hev with rfl | rfl | rfl | rfl | rfl
    · exact storesLoggable_of (by decide) fun b bs h => by cases h
    · trivial
    · exact storesLoggable_of (by decide) fun b bs h => by cases h; decide
    · exact storesLoggable_of (by decide) fun b bs h => by cases h; decide
    · trivial
  exact ⟨p, hp, Option.some.inj hq, (log_shape pocketIpc_framed.toLawful hr hf "t").1⟩

/-- A raw frame up to the payload. -/
def header (t : String) (n : Nat) : Bytes := utf8 t ++ 10 :: 0 :: le32 n

omit [DecidableEq σ] in
theorem frame_raw (ipc : ArrowIpc σ ρ) (t : String) (bytes : Bytes) :
    frame ipc (t, .Raw bytes) = header t bytes.length ++ bytes := by
  simp [frame, header, payload, indicator]

omit [DecidableEq σ] in
/-- What a file took of a frame, with the bytes behind it in the place of the rest. -/
theorem cut_frame (ipc : ArrowIpc σ ρ) (t : String) {bytes behind : Bytes} {k : Nat}
    (hk : k + behind.length = (frame ipc (t, .Raw bytes)).length) (hle : behind.length ≤ bytes.length) :
    ∃ bytes', (frame ipc (t, .Raw bytes)).take k ++ behind = frame ipc (t, .Raw bytes') ∧
      bytes'.length = bytes.length := by
  rw [frame_raw, List.length_append] at hk
  have hlen : (bytes.take (bytes.length - behind.length) ++ behind).length = bytes.length := by
    rw [List.length_append, List.length_take]
    omega
  refine ⟨_, ?_, hlen⟩
  rw [frame_raw, frame_raw, hlen, show k = (header t bytes.length).length + (bytes.length - behind.length) by omega,
    List.take_length_add_append, List.append_assoc]

/-- The file takes `n` bytes of a frame with a payload as long. The header of the
next frame comes in the place of the rest, and that frame's payload is read as
frames. -/
theorem read_behind_cut {n : Nat} (hn : 8192 ≤ n) (hn' : n < 2 ^ 32) {t : String} (ht : 10 ∉ utf8 t) {zs : Bytes}
    (hzs : zs.length = n) {es : History σ ρ} (hes : ∀ e ∈ es, Clean ipc e)
    (hsmall : (frame ipc (t, .Raw (es.flatMap (frame ipc)))).length ≤ n) :
    let fresh : Faults.TopicManager σ ρ (InMemoryLog σ ρ) := ⟨.new, ∅, .new ⟨1⟩ [] [.took (n - 1)]⟩
    let first := fresh.add ipc t zs
    let second := first.2.add ipc t (es.flatMap (frame ipc))
    let next := restart ipc ⟨1⟩ second.2.wal.file.inner.bytes
    first.1 = .ok () ∧ second.1 = .ok () ∧ next.1 = .ok () ∧
      ∃ w, next.2.backend.queue t = .Raw w :: History.ofTopic t es := by
  intro fresh first second next
  have hnew : ∀ w, stored_record ipc (∅ : HashMap String (TopicMetadata σ)) t w = .ok (.Raw w) := fun w =>
    stored_record_no_schema fun _ _ => by simp
  have hlen : (frame ipc (t, .Raw zs)).length = n + (header t 0).length := by
    rw [length_frame, payload, hzs, header]
    simp only [List.length_append, List.length_cons, length_le32]
    omega
  have hwrite : fresh.wal.file.write (frame ipc (t, .Raw zs)) =
      (.ok n, ⟨⟨(frame ipc (t, .Raw zs)).take n, []⟩, [], 8192⟩) := by
    rw [Lib.Faulty.BufWriter.write_large rfl (by rw [hlen]; exact hn.trans (Nat.le_add_right _ _))]
    simp only [fresh, Faults.WriteAheadLog.new, Lib.Faulty.File.write, List.nil_append,
      show n - 1 + 1 = n by omega, hlen, Nat.min_eq_left (Nat.le_add_right n _)]
  let wal : Faults.WriteAheadLog σ ρ := ⟨⟨⟨(frame ipc (t, .Raw zs)).take n, []⟩, [], 8192⟩, [], ⟨1⟩⟩
  have hfirst : first = (.ok (), ⟨InMemoryLog.new.addAll [(t, .Raw zs)], ∅, wal⟩) := by
    have hadd : fresh.wal.add ipc t (.Raw zs) = (.ok (), { wal with buffer := [(t, .Raw zs)] }) :=
      Faults.WriteAheadLog.add_written (serialize_writable ipc (r := .Raw zs) trivial t) hwrite
    show fresh.add ipc t zs = _
    rw [Faults.TopicManager.add_logged (hnew zs) hadd, if_pos (by rfl),
      Faults.WriteAheadLog.flush_written (Lib.Faulty.BufWriter.flush_nil rfl), drain_log]
  have hsteady : wal.Steady n := ⟨Lib.Faulty.BufWriter.steady_of_nil rfl, Nat.zero_le _, hn⟩
  have hfit : ∀ r, stored_record ipc first.2.topic_metadatas t (es.flatMap (frame ipc)) = .ok r →
      (frame ipc (t, r)).length ≤ n := by
    intro r hr
    rw [hfirst, hnew] at hr
    cases hr
    exact hsmall
  have hsecond := Faults.TopicManager.add_steady ipc (show first.2.wal.Steady n by rw [hfirst]; exact hsteady) hfit
  have hplain := add_full first.2.settled
    (show stored_record ipc first.2.settled.topic_metadatas t (es.flatMap (frame ipc)) = .ok (.Raw _) by
      rw [hfirst]; exact hnew _)
    trivial (by rw [hfirst]; exact Nat.le_refl _)
  rw [hplain] at hsecond
  obtain ⟨hok, hsettled, -⟩ := hsecond
  have hbytes : second.2.wal.file.inner.bytes =
      (frame ipc (t, .Raw zs)).take n ++ frame ipc (t, .Raw (es.flatMap (frame ipc))) := by
    show second.2.settled.wal.file.inner = _
    rw [hsettled, hfirst]
    show (Lib.BufWriter.write ⟨(frame ipc (t, .Raw zs)).take n, [], 8192⟩ _).contents = _
    rw [Lib.BufWriter.contents_write, Lib.BufWriter.contents, List.append_nil]
  have hhead : ∀ k, (header t k).length = (header t 0).length := fun k => by simp [header]
  have hbehind : (header t (es.flatMap (frame ipc)).length).length ≤ zs.length := by
    rw [frame_raw, List.length_append] at hsmall
    omega
  obtain ⟨w, hw, hwlen⟩ := cut_frame ipc t (k := n) (by rw [hlen, hhead]) hbehind
  have hclean : ∀ e ∈ (t, .Raw w) :: es, Clean ipc e := by
    rw [List.forall_mem_cons]
    exact ⟨⟨ht, by rw [payload, hwlen, hzs]; exact hn', trivial⟩, hes⟩
  obtain ⟨hrestart, hholds⟩ := restart_frames ⟨1⟩ hclean
  rw [List.flatMap_cons, ← hw, List.append_assoc, ← frame_raw, ← hbytes] at hrestart hholds
  refine ⟨by rw [hfirst], hok, hrestart, w, ?_⟩
  rw [hholds.queue, History.ofTopic_cons, History.ofTopic_singleton, if_pos rfl, List.singleton_append]

/-- Not every log has the shape: after a cut frame, the bytes of another record are
read back as a batch and a raw record. -/
theorem raw_behind_batch :
    let fresh : Faults.TopicManager UInt8 UInt8 (InMemoryLog UInt8 UInt8) :=
      ⟨.new, ∅, .new ⟨1⟩ [] [.took (max_write - 1)]⟩
    let es : History UInt8 UInt8 := [("t", .Batch ⟨7, [1]⟩), ("t", .Raw [5])]
    let first := fresh.add pocketIpc "t" (List.replicate max_write 0)
    let second := first.2.add pocketIpc "t" (es.flatMap (frame pocketIpc))
    let next := restart pocketIpc ⟨1⟩ second.2.wal.file.inner.bytes
    first.1 = .ok () ∧ second.1 = .ok () ∧ next.1 = .ok () ∧
      ¬ Shaped (next.2.topic_metadatas.lookup "t")
        (next.2.backend.queue "t" ++ History.ofTopic "t" next.2.wal.buffer) := by
  obtain ⟨zs, hzs, hlen⟩ : ∃ zs : Bytes, List.replicate max_write 0 = zs ∧ zs.length = max_write :=
    ⟨_, rfl, List.length_replicate⟩
  rw [hzs]
  intro fresh es first second next
  have hes : ∀ e ∈ es, Clean pocketIpc e := by
    intro e he
    simp only [es, List.mem_cons, List.not_mem_nil, or_false] at he
    rcases he with rfl | rfl <;> exact ⟨by decide, by decide, readable_of_lawful pocketIpc_framed.toLawful _⟩
  obtain ⟨h₁, h₂, h₃, w, hq⟩ := read_behind_cut (by decide) (by decide) (t := "t") (by decide) hlen hes (by decide)
  refine ⟨h₁, h₂, h₃, fun hs => ?_⟩
  obtain ⟨ws, bs, hrs, -⟩ := hs.of_isPrefix (List.prefix_append _ _)
  rw [show next.2.backend.queue "t" = _ from hq] at hrs
  rcases ws with _ | ⟨w₀, _ | ⟨w₁, ws⟩⟩ <;> rcases bs with _ | ⟨b₀, _ | ⟨b₁, bs⟩⟩ <;>
    simp [es, History.ofTopic] at hrs

end

/-! ## Which topics come back -/

/-- The restarts keep `num_uncommitted_messages = 1`. -/
def Eager : Event σ → Prop
  | .call (.kill config) | .close config => config.num_uncommitted_messages = 1
  | _ => True

/-- Every record accepted was flushed at once. -/
def Drained (p : Process σ ρ) : Prop :=
  p.tm.wal.config.num_uncommitted_messages = 1 ∧ p.tm.wal.buffer = []

/-- The file holds the frames of all accepted records. -/
theorem Inv.file_drained {p : Process σ ρ} (h : Inv ipc p) (hd : Drained p) {file : Bytes}
    (hfile : file = p.tm.wal.file.inner ∨ file = p.tm.wal.file.contents) :
    file = p.accepted.flatMap (frame ipc) ∧ ∀ e ∈ p.accepted, Clean ipc e := by
  obtain ⟨visible, k, hacc, -, hholds, hle, hclean⟩ := h.crash
  rw [hd.2, List.append_nil] at hacc
  refine ⟨?_, hclean⟩
  rcases hfile with rfl | rfl
  · rw [hholds.2.1, List.take_of_length_le (by rw [hacc]; exact hle)]
  · exact hholds.contents

theorem mem_batchesOf {rs : List (StoredRecord σ ρ)} {b : RecordBatch σ ρ} : b ∈ batchesOf rs ↔ .Batch b ∈ rs := by
  induction rs with
  | nil => simp [batchesOf]
  | cons r rs ih => cases r <;> simp [batchesOf, ih]

/-- What is rebuilt is what was there, unless a topic had no schema or no batch. -/
theorem Shaped.rebuilt_eq_iff {metadata : Option (TopicMetadata σ)} {rs : List (StoredRecord σ ρ)} {t : String}
    (h : Shaped metadata rs) (hname : ∀ m, metadata = some m → m.name = t) :
    (first_schema rs).map (fun s => ⟨t, some s⟩) = metadata ↔
      ∀ m, metadata = some m → m.schema.isSome ∧ ∃ b, .Batch b ∈ rs := by
  cases hb : batchesOf rs with
  | nil =>
    have hno : ¬ ∃ b, .Batch b ∈ rs := by
      rintro ⟨b, hmem⟩
      rw [← mem_batchesOf, hb] at hmem
      cases hmem
    cases metadata <;> simp [first_schema, hb, hno]
  | cons b bs =>
    have hmem : b ∈ batchesOf rs := by simp [hb]
    obtain ⟨hfirst, hschema⟩ := h.first_schema_of_mem hmem
    rw [Option.bind_eq_some_iff] at hschema
    obtain ⟨⟨name, schema⟩, rfl, rfl⟩ := hschema
    rw [hfirst]
    have hname := hname _ rfl
    subst hname
    simp only [Option.map_some, true_iff]
    rintro m hm
    cases hm
    exact ⟨rfl, b, mem_batchesOf.1 hmem⟩

/-- The same topics exist, with the same metadata. -/
def SameTopics (tm tm' : TopicManager σ ρ (InMemoryLog σ ρ)) : Prop :=
  ∀ t, tm.topic_metadatas.lookup t = tm'.topic_metadatas.lookup t

inductive Call (σ : Type) where
  | create (topic : String) (schema : Option σ)
  | add (topic : String) (record : Bytes)

section
variable [DecidableEq σ]

variable (ipc) in
def answer (tm : TopicManager σ ρ (InMemoryLog σ ρ)) :
    Call σ → Except HerbertError Unit × TopicManager σ ρ (InMemoryLog σ ρ)
  | .create topic schema => tm.create topic schema
  | .add topic record => tm.add ipc topic record

variable (ipc) in
/-- The answers to calls made one after the other. -/
def answers (tm : TopicManager σ ρ (InMemoryLog σ ρ)) : List (Call σ) → List (Except HerbertError Unit)
  | [] => []
  | c :: cs => (answer ipc tm c).1 :: answers (answer ipc tm c).2 cs

/-- Whether a call is accepted depends on the metadata alone. -/
theorem answer_same (hipc : ipc.Lawful) {tm tm' : TopicManager σ ρ (InMemoryLog σ ρ)} (h : SameTopics tm tm')
    (c : Call σ) :
    (answer ipc tm c).1 = (answer ipc tm' c).1 ∧ SameTopics (answer ipc tm c).2 (answer ipc tm' c).2 := by
  cases c with
  | create u schema =>
    refine ⟨?_, fun t => ?_⟩
    · have hexists : tm.topic_exists u = tm'.topic_exists u := by rw [topic_exists, topic_exists, h u]
      simp only [answer, TopicManager.create, hexists]
      cases tm'.topic_exists u <;> rfl
    · simp only [answer, lookup_create, h u, h t]
  | add u record =>
    have hstored : stored_record ipc tm.topic_metadatas u record = stored_record ipc tm'.topic_metadatas u record := by
      rw [stored_record, stored_record, h u]
    refine ⟨?_, fun t => ?_⟩
    · simp only [answer]
      cases hr : stored_record ipc tm'.topic_metadatas u record with
      | error e => rw [add_error tm (hstored.trans hr), add_error tm' hr]
      | ok r =>
        have hw := writable_of_lawful hipc r
        rw [add_log tm (hstored.trans hr) hw, add_log tm' hr hw]
    · simp only [answer, topic_metadatas_add, h t]

theorem answers_same (hipc : ipc.Lawful) {tm tm' : TopicManager σ ρ (InMemoryLog σ ρ)} (h : SameTopics tm tm')
    (cs : List (Call σ)) : answers ipc tm cs = answers ipc tm' cs := by
  induction cs generalizing tm tm' with
  | nil => rfl
  | cons c cs ih =>
    obtain ⟨h₁, h₂⟩ := answer_same hipc h c
    rw [answers, answers, h₁, ih h₂]

theorem drained_step {p p' : Process σ ρ} {ev : Event σ} (h : Drained p) (he : Eager ev)
    (hs : step ipc p ev = some p') : Drained p' := by
  match ev with
  | .call (.create u schema) =>
    cases hs
    simpa [Drained, wal_create] using h
  | .call (.add u record) =>
    cases hs
    rcases add_cases ipc p.tm u record with ⟨e, hadd⟩ | ⟨r, hr, hw⟩
    · simpa [Drained, hadd] using h
    · rw [Drained, add_full p.tm hr hw (by simp [h.1])]
      exact ⟨h.1, rfl⟩
  | .call (.kill config) | .close config =>
    cases hs
    rw [Drained, restart_wal]
    exact ⟨he, rfl⟩

variable (ipc) in
/-- A restart on the file succeeds, brings back the topics as they were, and the
manager answers later calls as the old one would. -/
def Survives (config : Config) (p : Process σ ρ) (file : Bytes) : Prop :=
  (restart ipc config file).1 = .ok () ∧ SameTopics (restart ipc config file).2 p.tm ∧
    ∀ cs, answers ipc (restart ipc config file).2 cs = answers ipc p.tm cs

/-- The topics survive a restart if and only if each of them has a schema and a
batch in its log. `file` is what a kill leaves, or an orderly end. -/
theorem topics_survive_iff (hipc : ipc.Lawful) {tr} {p : Process σ ρ} (hr : Run (step ipc) (start ⟨1⟩) tr p)
    (hf : Always (Fits ipc) tr) (he : Always (fun _ ev => Eager ev) tr)
    {file : Bytes} (hfile : file = p.tm.wal.file.inner ∨ file = p.tm.wal.file.contents) (config : Config) :
    Survives ipc config p file ↔ ∀ t m, p.tm.topic_metadatas.lookup t = some m →
      m.schema.isSome ∧ ∃ b, .Batch b ∈ p.tm.backend.queue t := by
  have hi := inv_run hipc hr hf
  have hd : Drained p := hr.inv_while (C := fun _ ev => Eager ev) Drained ⟨rfl, rfl⟩
    (fun _ _ _ hd he => drained_step hd he) he
  obtain ⟨rfl, hclean⟩ := hi.file_drained hd hfile
  have hok := (restart_frames config hclean).1
  have hqueue : ∀ t, p.tm.backend.queue t = p.accepted.ofTopic t := by
    intro t
    have := hi.queue_buffer t
    rwa [hd.2, History.ofTopic_nil, List.append_nil] at this
  have hlookup : ∀ t, (restart ipc config (p.accepted.flatMap (frame ipc))).2.topic_metadatas.lookup t =
      (first_schema (p.tm.backend.queue t)).map fun s => ⟨t, some s⟩ := by
    intro t
    have hrec := recovered_frames hclean []
    rw [List.append_nil] at hrec
    rw [lookup_restart, hrec, hqueue t]
    simp [recovered, records]
  have hsame : SameTopics (restart ipc config (p.accepted.flatMap (frame ipc))).2 p.tm ↔
      ∀ t m, p.tm.topic_metadatas.lookup t = some m → m.schema.isSome ∧ ∃ b, .Batch b ∈ p.tm.backend.queue t := by
    refine forall_congr' fun t => ?_
    have hshape := hi.shaped t
    rw [← hqueue] at hshape
    rw [hlookup]
    exact hshape.rebuilt_eq_iff (hi.named t)
  rw [← hsame]
  exact ⟨fun h => h.2.1, fun h => ⟨hok, h, answers_same hipc h⟩⟩

/-- A topic with a schema and a batch comes back. -/
theorem topics_survive_iff_one :
    ∃ p : Process UInt8 UInt8,
      exec (step pocketIpc) (start ⟨1⟩) [.call (.create "t" (some 7)),
        .call (.add "t" [255, 255, 255, 255, 7, 3, 1, 1, 2, 0, 0, 0])] = some p ∧
      Survives pocketIpc ⟨1⟩ p p.tm.wal.file.inner := by
  obtain ⟨p, hp⟩ := Option.isSome_iff_exists.1 (show (exec (step pocketIpc) (start ⟨1⟩)
    [.call (.create "t" (some 7)), .call (.add "t" [255, 255, 255, 255, 7, 3, 1, 1, 2, 0, 0, 0])]).isSome from rfl)
  have hmeta : (exec (step pocketIpc) (start ⟨1⟩)
      [.call (.create "t" (some 7)), .call (.add "t" [255, 255, 255, 255, 7, 3, 1, 1, 2, 0, 0, 0])]).map
      (·.tm.topic_metadatas) = some ((∅ : HashMap String (TopicMetadata UInt8)).insert "t" ⟨"t", some 7⟩) := rfl
  have hqueue : (exec (step pocketIpc) (start ⟨1⟩)
      [.call (.create "t" (some 7)), .call (.add "t" [255, 255, 255, 255, 7, 3, 1, 1, 2, 0, 0, 0])]).map
      (·.tm.backend.queue "t") = some [.Batch ⟨7, [1]⟩] := by decide +kernel
  rw [hp] at hmeta hqueue
  replace hmeta : p.tm.topic_metadatas = _ := Option.some.inj hmeta
  replace hqueue : p.tm.backend.queue "t" = _ := Option.some.inj hqueue
  obtain ⟨tr, hr, hl⟩ := Run.nil.exec hp
  have hev : ∀ x ∈ tr, Fits pocketIpc x.1 x.2 ∧ Eager x.2 := by
    rintro ⟨q, ev⟩ hx
    have hev := List.mem_map_of_mem (f := (·.2)) hx
    rw [hl] at hev
    simp only [List.mem_cons, List.not_mem_nil, or_false] at hev
    rcases hev with rfl | rfl
    · exact ⟨trivial, trivial⟩
    · exact ⟨storesLoggable_of (by decide) fun b bs h => by cases h; decide, trivial⟩
  refine ⟨p, hp, (topics_survive_iff pocketIpc_framed.toLawful hr (fun x hx => (hev x hx).1)
    (fun x hx => (hev x hx).2) (.inl rfl) ⟨1⟩).2 ?_⟩
  intro t m hm
  rw [hmeta] at hm
  by_cases ht : t = "t"
  · subst ht
    cases hm
    exact ⟨rfl, ⟨7, [1]⟩, by rw [hqueue]; simp⟩
  · rw [AList.lookup_insert_ne ht] at hm
    cases hm

/-- Not every topic survives: one created without a schema is unknown after a
restart. -/
theorem schemaless_forgotten :
    ¬ ∀ tr (p : Process UInt8 UInt8), Run (step pocketIpc) (start ⟨1⟩) tr p → Always (Fits pocketIpc) tr →
      SameTopics (restart pocketIpc ⟨1⟩ p.tm.wal.file.inner).2 p.tm := by
  intro hall
  have hsame := hall _ _ (Run.nil.snoc (l := .call (.create "t" none)) rfl) (by simp [Always, Fits]) "t"
  rw [lookup_restart, show recovered pocketIpc _ = [] from by simp [start, TopicManager.new, WriteAheadLog.new,
    TopicManager.create, topic_exists, recovered, records]] at hsame
  cases hsame

end

end herbert.Metadata
