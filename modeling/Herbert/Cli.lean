import Herbert.Client
import Herbert.Lib.Chunks
/-!
# The command line

`produce-record-batch` loads a schema and a JSON-lines file, and hands one record
batch to `produce_record_batch`. The reader of `arrow_json` is an iterator over
batches of at most `batch_size` rows, and the command takes its first item only:
a file of more rows is cut off there without an error (`hands_first_rows`,
`sends_every_row_iff`).
-/
open Lib Lib.Bytes

namespace herbert.Cli

variable {σ ρ : Type}

/-! ## What it takes from its dependencies -/

/-- `serde_json` for schemas, and the reader of `arrow_json`. -/
structure ArrowJson (σ ρ : Type) where
  /-- `serde_json::from_str::<Schema>`, or the text of its error. -/
  from_str : String → Except String σ
  /-- `ReaderBuilder::new(schema).build(file)`, then the items its iterator yields. -/
  read : σ → Bytes → Except ArrowError (List (Except ArrowError (RecordBatch σ ρ)))
  /-- The row of a line, if the line fits the schema. -/
  row : σ → Bytes → Option ρ

/-- The lines of a JSON-lines file. Empty ones do not count. -/
def lines (file : Bytes) : List Bytes := (file.splitOn 10).filter (!·.isEmpty)

/-- All lines of the file fit the schema, and these are its rows. -/
def ArrowJson.HasRows (json : ArrowJson σ ρ) (schema : σ) (file : Bytes) (rows : List ρ) : Prop :=
  List.Forall₂ (fun line row => json.row schema line = some row) (lines file) rows

/-- The default batch size of `ReaderBuilder`. -/
def batch_size : Nat := 1024

/-- The reader yields the rows of a file in consecutive batches of at most
`batch_size` rows. -/
structure ArrowJson.Batched (json : ArrowJson σ ρ) : Prop where
  read_rows : ∀ (schema : σ) (file : Bytes) (rows : List ρ), json.HasRows schema file rows →
    ∃ bs : List (RecordBatch σ ρ), json.read schema file = .ok (bs.map .ok) ∧ bs.flatMap (·.rows) = rows ∧
      ∀ b ∈ bs, b.schema = schema ∧ b.num_rows ≤ batch_size

/-- A batch ends when it has `batch_size` rows, or with the file. -/
structure ArrowJson.Full (json : ArrowJson σ ρ) : Prop extends json.Batched where
  full : ∀ (schema : σ) (file : Bytes) (rows : List ρ) (bs : List (RecordBatch σ ρ)),
    json.HasRows schema file rows → json.read schema file = .ok (bs.map .ok) →
    ∀ b ∈ bs.dropLast, b.num_rows = batch_size

/-- What can be read at a path. -/
abbrev Files := String → Except IoError Bytes

/-- `anyhow::Error` -/
inductive CliError where
  | Io (e : IoError)
  | Json (message : String)
  | Arrow (e : ArrowError)
  | Message (message : String)
deriving DecidableEq, Repr

/-- `{}` of an error. -/
def CliError.display : CliError → String
  | .Io .UnexpectedEof => "failed to fill whole buffer"
  | .Io (.Other message) | .Json message | .Arrow ⟨message⟩ | .Message message => message

/-! ## The command -/

def load_schema_from_json (json : ArrowJson σ ρ) (files : Files) (schema_path : String) : Except CliError σ :=
  match files schema_path with
  | .error e => .error (.Io e)
  | .ok file =>
    match fromUtf8 file with
    | none => .error (.Io (.Other "stream did not contain valid UTF-8"))
    | some data =>
      match json.from_str data with
      | .error message => .error (.Json message)
      | .ok schema => .ok schema

def load_record_batch_from_json (json : ArrowJson σ ρ) (files : Files) (data_path : String) (schema : σ) :
    Except CliError (RecordBatch σ ρ) :=
  match files data_path with
  | .error e => .error (.Io e)
  | .ok file =>
    match json.read schema file with
    | .error e => .error (.Arrow e)
    -- `json.next()`, once
    | .ok (.ok batch :: _) => .ok batch
    | .ok _ => .error (.Message "error loading records from json")

/-- What the command does. -/
structure Outcome (σ ρ : Type) where
  /-- The batches handed to `produce_record_batch`. -/
  handed : List (RecordBatch σ ρ)
  /-- What this sends. -/
  requests : List KafkaRequest
  /-- The lines it prints on `stderr`. -/
  stderr : List String

/-- The arm of `main` for `Command::ProduceRecordBatch`. -/
def main_produce_record_batch (ipc : ArrowIpc σ ρ) (json : ArrowJson σ ρ) (files : Files)
    (topic data_path schema_path : String) : Outcome σ ρ :=
  match load_schema_from_json json files schema_path with
  | .error e => ⟨[], [], ["Error loading schema from " ++ schema_path ++ ": " ++ e.display]⟩
  | .ok schema =>
    match load_record_batch_from_json json files data_path schema with
    | .ok record_batch =>
      -- `let _ =`: an error of the call is not reported
      match Client.produce_record_batch ipc topic record_batch with
      | .ok request => ⟨[record_batch], [request], []⟩
      | .error _ => ⟨[record_batch], [], []⟩
    | .error e => ⟨[], [], ["Error loading the data from " ++ data_path ++ ": " ++ e.display]⟩

/-! ## What it sends -/

/-- The batches that are handed over contain exactly the rows, in order, or the
command reports an error and sends nothing. -/
def Complete (outcome : Outcome σ ρ) (rows : List ρ) : Prop :=
  outcome.handed.flatMap (·.rows) = rows ∨
    (outcome.stderr ≠ [] ∧ outcome.handed = [] ∧ outcome.requests = [])

variable {ipc : ArrowIpc σ ρ} {json : ArrowJson σ ρ} {files : Files} {topic data_path schema_path : String}

/-- Either one batch goes out, or an error is reported. -/
theorem hands_or_reports (ipc : ArrowIpc σ ρ) (json : ArrowJson σ ρ) (files : Files)
    (topic data_path schema_path : String) :
    let outcome := main_produce_record_batch ipc json files topic data_path schema_path
    (outcome.handed.length = 1 ∧ outcome.stderr = []) ∨
      (outcome.handed = [] ∧ outcome.requests = [] ∧ outcome.stderr.length = 1) := by
  unfold main_produce_record_batch
  dsimp only
  split
  · exact .inr ⟨rfl, rfl, rfl⟩
  split
  · split <;> exact .inl ⟨rfl, rfl⟩
  · exact .inr ⟨rfl, rfl, rfl⟩

/-- The first batch of the reader is the one that is handed over. -/
theorem hands_first {schema : σ} {file : Bytes} {b : RecordBatch σ ρ} {bs : List (RecordBatch σ ρ)}
    (hs : load_schema_from_json json files schema_path = .ok schema) (hf : files data_path = .ok file)
    (hr : json.read schema file = .ok ((b :: bs).map .ok)) :
    (main_produce_record_batch ipc json files topic data_path schema_path).handed = [b] ∧
    (main_produce_record_batch ipc json files topic data_path schema_path).stderr = [] := by
  have hload : load_record_batch_from_json json files data_path schema = .ok b := by
    simp [load_record_batch_from_json, hf, hr]
  simp only [main_produce_record_batch, hs, hload]
  split <;> exact ⟨rfl, rfl⟩

/-- What it sends reads back as the batch that was handed over. -/
theorem requests_of_handed (hipc : ipc.Lawful) {b : RecordBatch σ ρ}
    (hb : b ∈ (main_produce_record_batch ipc json files topic data_path schema_path).handed) :
    ∃ w, ipc.read w = .ok [.ok b] ∧ (main_produce_record_batch ipc json files topic data_path schema_path).requests =
      [.Produce (some (create_produce_request topic w))] := by
  obtain ⟨w, hw, hread⟩ := hipc.read_write b.schema [b] (by simp)
  refine ⟨w, hread, ?_⟩
  have hrequest : Client.produce_record_batch ipc topic b = .ok (.Produce (some (create_produce_request topic w))) := by
    rw [Client.produce_record_batch, hw]
  revert hb
  unfold main_produce_record_batch
  split
  · simp
  split
  · rename_i record_batch _
    intro hb
    have heq : b = record_batch := by
      revert hb
      split <;> exact List.mem_singleton.1
    rw [← heq, hrequest]
  · simp

/-! ## When it sends all rows -/

/-- The reader puts all rows of the file in its first batch. -/
def OneBatch (json : ArrowJson σ ρ) (schema : σ) (file : Bytes) : Prop :=
  ∃ b bs, json.read schema file = .ok ((b :: bs).map .ok) ∧ ∀ b' ∈ bs, b'.num_rows = 0

/-- All rows are in the first batch if those behind it have none. -/
theorem oneBatch_of_read {schema : σ} {file : Bytes} {b : RecordBatch σ ρ} {bs : List (RecordBatch σ ρ)}
    (hr : json.read schema file = .ok ((b :: bs).map .ok)) :
    OneBatch json schema file ↔ bs.flatMap (·.rows) = [] := by
  rw [List.flatMap_eq_nil_iff]
  constructor
  · rintro ⟨c, cs, hr', hcs⟩
    rw [hr] at hr'
    obtain ⟨-, rfl⟩ := List.cons.inj (List.map_injective_iff.2 (fun _ _ => Except.ok.inj) (Except.ok.inj hr'))
    exact fun b' hb' => List.length_eq_zero_iff.1 (hcs b' hb')
  · exact fun h => ⟨b, bs, hr, fun b' hb' => List.length_eq_zero_iff.2 (h b' hb')⟩

section
variable {schema : σ} {file : Bytes} {rows : List ρ}

/-- A file with rows has a first batch. -/
theorem ArrowJson.Batched.first (hjson : json.Batched) (hrows : json.HasRows schema file rows)
    (hne : 1 ≤ (lines file).length) :
    ∃ b bs, json.read schema file = .ok ((b :: bs).map .ok) ∧ b.rows ++ bs.flatMap (·.rows) = rows ∧
      b.num_rows ≤ batch_size := by
  obtain ⟨bs, hr, hflat, hbs⟩ := hjson.read_rows _ _ _ hrows
  cases bs with
  | nil =>
    rw [hrows.length_eq, ← hflat] at hne
    cases hne
  | cons b bs => exact ⟨b, bs, hr, hflat, (hbs b List.mem_cons_self).2⟩

theorem complete_iff_oneBatch (hjson : json.Batched) (hs : load_schema_from_json json files schema_path = .ok schema)
    (hf : files data_path = .ok file) (hrows : json.HasRows schema file rows) (hne : 1 ≤ (lines file).length) :
    Complete (main_produce_record_batch ipc json files topic data_path schema_path) rows ↔
      OneBatch json schema file := by
  obtain ⟨b, bs, hr, hflat, -⟩ := hjson.first hrows hne
  obtain ⟨hhanded, hstderr⟩ := @hands_first _ _ ipc json files topic data_path schema_path _ _ _ _ hs hf hr
  rw [oneBatch_of_read hr, Complete, hhanded, hstderr, ← hflat]
  simp

/-- The first batch of a reader that fills its batches. -/
theorem ArrowJson.Full.first (hjson : json.Full) (hrows : json.HasRows schema file rows)
    (hne : 1 ≤ (lines file).length) :
    ∃ b bs, json.read schema file = .ok ((b :: bs).map .ok) ∧ b.rows = rows.take batch_size ∧
      bs.flatMap (·.rows) = rows.drop batch_size := by
  obtain ⟨b, bs, hr, hflat, hle⟩ := hjson.toBatched.first hrows hne
  refine ⟨b, bs, hr, ?_⟩
  subst hflat
  cases bs with
  | nil =>
    rw [List.flatMap_nil, List.append_nil]
    exact ⟨(List.take_of_length_le hle).symm, (List.drop_of_length_le hle).symm⟩
  | cons b' bs =>
    have hlen : b.rows.length = batch_size := hjson.full _ _ _ _ hrows hr b (by simp)
    exact ⟨(List.take_left' hlen).symm, (List.drop_left' hlen).symm⟩

/-- Such a reader needs one batch for up to `batch_size` lines. -/
theorem oneBatch_iff (hjson : json.Full) (hrows : json.HasRows schema file rows) (hne : 1 ≤ (lines file).length) :
    OneBatch json schema file ↔ (lines file).length ≤ batch_size := by
  obtain ⟨b, bs, hr, -, hrest⟩ := hjson.first hrows hne
  rw [oneBatch_of_read hr, hrest, List.drop_eq_nil_iff, hrows.length_eq]

/-- The command hands over the first `batch_size` rows of the file and reports
nothing. -/
theorem hands_first_rows (hjson : json.Full) (hs : load_schema_from_json json files schema_path = .ok schema)
    (hf : files data_path = .ok file) (hrows : json.HasRows schema file rows) (hne : 1 ≤ (lines file).length) :
    (main_produce_record_batch ipc json files topic data_path schema_path).handed.flatMap (·.rows) =
      rows.take batch_size ∧
    (main_produce_record_batch ipc json files topic data_path schema_path).stderr = [] := by
  obtain ⟨b, bs, hr, hb, -⟩ := hjson.first hrows hne
  obtain ⟨hhanded, hstderr⟩ := @hands_first _ _ ipc json files topic data_path schema_path _ _ _ _ hs hf hr
  rw [hhanded, hstderr, ← hb]
  simp

end

/-- Every row of the file is sent if and only if the reader puts all of them in
its first batch: for a reader that fills its batches, if there are at most 1024. -/
theorem sends_every_row_iff (ipc : ArrowIpc σ ρ) (json : ArrowJson σ ρ) (hjson : json.Batched) (files : Files)
    (topic data_path schema_path : String) (schema : σ) (file : Bytes) (rows : List ρ)
    (hs : load_schema_from_json json files schema_path = .ok schema) (hf : files data_path = .ok file)
    (hrows : json.HasRows schema file rows) (hne : 1 ≤ (lines file).length) :
    (Complete (main_produce_record_batch ipc json files topic data_path schema_path) rows ↔
      OneBatch json schema file) ∧
    (json.Full →
      (Complete (main_produce_record_batch ipc json files topic data_path schema_path) rows ↔
        (lines file).length ≤ batch_size)) := by
  have hone := @complete_iff_oneBatch _ _ ipc json files topic data_path schema_path _ _ _ hjson hs hf hrows hne
  exact ⟨hone, fun hfull => hone.trans (oneBatch_iff hfull hrows hne)⟩

/-! ## A small reader

A line of one byte is a row. The schema file is the text `0`. -/

def pocketJson : ArrowJson UInt8 UInt8 where
  from_str data := if data = "0" then .ok 0 else .error "unknown schema"
  read schema file :=
    if (lines file).all (·.length = 1) then
      .ok ((chunks batch_size (lines file).flatten).map fun rows => .ok ⟨schema, rows⟩)
    else .ok [.error ⟨"a line does not fit"⟩]
  row _ line := if line.length = 1 then line.head? else none

theorem pocketJson_row {schema b : UInt8} {line : Bytes} (h : pocketJson.row schema line = some b) : line = [b] := by
  simp only [pocketJson, Option.ite_none_right_eq_some] at h
  obtain ⟨hlen, hhead⟩ := h
  obtain ⟨c, rfl⟩ := List.length_eq_one_iff.1 hlen
  cases hhead
  rfl

theorem pocketJson_read {schema : UInt8} {file rows : Bytes} (h : pocketJson.HasRows schema file rows) :
    pocketJson.read schema file =
      .ok (((chunks batch_size rows).map fun c => (⟨schema, c⟩ : RecordBatch UInt8 UInt8)).map .ok) := by
  have hlines : lines file = rows.map fun b => [b] := by
    rw [← List.forall₂_eq_eq_eq, List.forall₂_map_right_iff]
    exact h.imp fun _ _ => pocketJson_row
  have hflat : (rows.map fun b => [b]).flatten = rows := by
    rw [← List.flatMap_def, List.flatMap_singleton']
  simp [pocketJson, hlines, hflat]

theorem pocketJson_full : pocketJson.Full where
  read_rows schema file rows h := by
    refine ⟨_, pocketJson_read h, ?_, ?_⟩
    · rw [List.flatMap_map, List.flatMap_id', flatten_chunks]
    · intro b hb
      obtain ⟨c, hc, rfl⟩ := List.mem_map.1 hb
      exact ⟨rfl, length_chunk_le (by decide) hc⟩
  full schema file rows bs h hr b hb := by
    rw [pocketJson_read h] at hr
    have hbs := List.map_injective_iff.2 (fun _ _ => Except.ok.inj) (Except.ok.inj hr)
    rw [← hbs, ← List.map_dropLast] at hb
    obtain ⟨c, hc, rfl⟩ := List.mem_map.1 hb
    exact length_chunk (by decide) hc

/-- A file of the rows, one on each line. -/
def pocketFile (rows : Bytes) : Bytes := [10].intercalate (rows.map fun b => [b])

theorem lines_pocketFile {rows : Bytes} (h : 10 ∉ rows) : lines (pocketFile rows) = rows.map fun b => [b] := by
  cases rows with
  | nil => rfl
  | cons b rows =>
    rw [lines, pocketFile, List.splitOn_intercalate 10 _ (by simp)]
    · simp
    · intro l hl
      obtain ⟨c, hc, rfl⟩ := List.mem_map.1 hl
      exact fun h10 => h (List.mem_singleton.1 h10 ▸ hc)

theorem pocketFile_hasRows {rows : Bytes} (h : 10 ∉ rows) (schema : UInt8) :
    pocketJson.HasRows schema (pocketFile rows) rows := by
  rw [ArrowJson.HasRows, lines_pocketFile h, List.forall₂_map_left_iff]
  exact List.forall₂_same.2 fun _ _ => rfl

/-- The schema and the rows on disk. -/
def pocketFiles (rows : Bytes) : Files := fun path =>
  if path = "schema.json" then .ok (utf8 "0") else .ok (pocketFile rows)

theorem pocketFiles_schema (rows : Bytes) :
    load_schema_from_json pocketJson (pocketFiles rows) "schema.json" = .ok 0 := by
  simp [load_schema_from_json, pocketFiles, fromUtf8_utf8, pocketJson]

/-- Two rows are few enough. -/
theorem sends_every_row_iff_two :
    Complete (main_produce_record_batch pocketIpc pocketJson (pocketFiles [1, 2]) "t" "data.jsonl" "schema.json") [1, 2] :=
  ((sends_every_row_iff pocketIpc pocketJson pocketJson_full.toBatched (pocketFiles [1, 2]) "t" "data.jsonl"
    "schema.json" 0 (pocketFile [1, 2]) [1, 2] (pocketFiles_schema _) rfl (pocketFile_hasRows (by decide) 0)
    (by decide)).2 pocketJson_full).2 (by decide)

/-- The last one of 1025 rows is lost, also with a reader that fills its batches,
and nothing is reported. -/
theorem last_row_lost :
    ¬ ∀ (json : ArrowJson UInt8 UInt8) (files : Files) (topic data_path schema_path : String) (schema : UInt8)
      (file rows : Bytes), json.Full → load_schema_from_json json files schema_path = .ok schema →
      files data_path = .ok file → json.HasRows schema file rows → 1 ≤ (lines file).length →
      Complete (main_produce_record_batch pocketIpc json files topic data_path schema_path) rows := by
  intro h
  have hnl : 10 ∉ List.replicate 1025 (1 : UInt8) := fun hm => absurd (List.eq_of_mem_replicate hm) (by decide)
  have hrows := pocketFile_hasRows hnl 0
  have hlen : (lines (pocketFile (List.replicate 1025 1))).length = 1025 := by
    rw [lines_pocketFile hnl, List.length_map, List.length_replicate]
  have hne : 1 ≤ (lines (pocketFile (List.replicate 1025 1))).length := by omega
  have hfile : pocketFiles (List.replicate 1025 1) "data.jsonl" = .ok (pocketFile (List.replicate 1025 1)) := rfl
  have hcomplete := h pocketJson (pocketFiles (List.replicate 1025 1)) "t" "data.jsonl" "schema.json" 0 _ _
    pocketJson_full (pocketFiles_schema _) hfile hrows hne
  rw [complete_iff_oneBatch pocketJson_full.toBatched (pocketFiles_schema _) hfile hrows hne,
    oneBatch_iff pocketJson_full hrows hne, hlen] at hcomplete
  exact absurd hcomplete (by decide)

end herbert.Cli
