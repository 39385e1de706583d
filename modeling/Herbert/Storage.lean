import Herbert.Arrow
import Herbert.Lib.FlatIndex
/-!
# The in-memory log

`InMemoryLog` keeps two maps: a queue of records for each topic, and for each
topic an index with one `RecordOffset` per raw record and per row of a batch.
`Holds log h` says what both contain after the records of the history `h` were
added. `add` keeps it, and `fetch` of an offset is then a function of the
topic's records alone.
-/
open Lib.FlatIndex

namespace herbert

variable {σ ρ : Type}

inductive StoredRecord (σ ρ : Type) where
  | Raw (bytes : Bytes)
  | Batch (batch : RecordBatch σ ρ)
deriving DecidableEq, Repr

/-- The trait of the backends. A call returns the backend it leaves. -/
class RecordStorage (β : Type) (σ ρ : outParam Type) where
  add : β → String → StoredRecord σ ρ → Except HerbertError Unit × β
  fetch : ArrowIpc σ ρ → β → String → Int → Except HerbertError Bytes × β

structure RecordOffset where
  batch_index : Nat
  row_offset : Nat
deriving DecidableEq, Repr

structure InMemoryLog (σ ρ : Type) where
  topics : HashMap String (List (StoredRecord σ ρ))
  offsets : HashMap String (List RecordOffset)

namespace InMemoryLog

def new : InMemoryLog σ ρ := ⟨∅, ∅⟩

/-- The topic's entry in `topics`; `entry(topic).or_insert(VecDeque::new())`. -/
def queue (log : InMemoryLog σ ρ) (topic : String) : List (StoredRecord σ ρ) :=
  (log.topics.lookup topic).getD []

/-- The topic's entry in `offsets`. -/
def offset_queue (log : InMemoryLog σ ρ) (topic : String) : List RecordOffset :=
  (log.offsets.lookup topic).getD []

/-- What `add` pushes to the offset queue. -/
def new_offsets (batch_index : Nat) : StoredRecord σ ρ → List RecordOffset
  | .Raw _ => [⟨batch_index, 0⟩]
  | .Batch record_batch => (List.range record_batch.num_rows).map fun row_offset => ⟨batch_index, row_offset⟩

/-- `add` up to and including the offsets. -/
def push_offsets (log : InMemoryLog σ ρ) (topic : String) (record : StoredRecord σ ρ) : InMemoryLog σ ρ :=
  { log with
    offsets := log.offsets.insert topic (log.offset_queue topic ++ new_offsets (log.queue topic).length record) }

/-- The end of `add`, `queue.push_back(record)`. -/
def push_record (log : InMemoryLog σ ρ) (topic : String) (record : StoredRecord σ ρ) : InMemoryLog σ ρ :=
  { log with topics := log.topics.insert topic (log.queue topic ++ [record]) }

/-- Only push after offsets have been set. -/
def add (log : InMemoryLog σ ρ) (topic : String) (record : StoredRecord σ ρ) : InMemoryLog σ ρ :=
  (log.push_offsets topic record).push_record topic record

/-- `fetch_offset as usize`, an `i64` on a 64-bit machine. -/
def asUsize (fetch_offset : Int) : Nat := (fetch_offset % 2 ^ 64).toNat

/-- `VecDeque::get`. A `VecDeque` holds at most `isize::MAX` elements, so there
is nothing at an index from `2 ^ 63` on. -/
def getOffset (offset_queue : List RecordOffset) (i : Nat) : Option RecordOffset :=
  if i < 2 ^ 63 then offset_queue[i]? else none

/-- The loop of `fetch` over the records from `batch_index` on. -/
def fetch_loop (row_offset : Nat) : List (StoredRecord σ ρ) → Bytes → List (RecordBatch σ ρ) →
    Bytes × List (RecordBatch σ ρ)
  | [], records, batches => (records, batches)
  | .Raw bytes :: iter, records, batches =>
    -- `iter.peek().is_some()` decides about the separator
    fetch_loop row_offset iter (records ++ bytes ++ if iter.isEmpty then [] else [0]) batches
  | .Batch batch :: iter, records, batches =>
    fetch_loop row_offset iter records
      (batches ++ [if batches.isEmpty then batch.slice row_offset (batch.num_rows - row_offset) else batch])

/-- `fetch` once the offset was found, on the topic's queue. -/
def fetch_records (ipc : ArrowIpc σ ρ) (queue : List (StoredRecord σ ρ)) (record_offset : RecordOffset) :
    Except HerbertError Bytes :=
  match fetch_loop record_offset.row_offset (queue.drop record_offset.batch_index) [] [] with
  | (records, []) => .ok records
  | (records, batch :: batches) =>
    match ipc.write batch.schema (batch :: batches) with
    | .ok buffer => .ok (records ++ buffer)
    | .error e => .error (.ArrowError e)

/-- Both maps get an entry for the topic if they had none, `topics` only when
the offset is found. -/
def fetch (ipc : ArrowIpc σ ρ) (log : InMemoryLog σ ρ) (topic : String) (fetch_offset : Int) :
    Except HerbertError Bytes × InMemoryLog σ ρ :=
  let log := { log with offsets := log.offsets.insert topic (log.offset_queue topic) }
  match getOffset (log.offset_queue topic) (asUsize fetch_offset) with
  | none => (.ok [], log)
  | some record_offset =>
    (fetch_records ipc (log.queue topic) record_offset,
      { log with topics := log.topics.insert topic (log.queue topic) })

instance : RecordStorage (InMemoryLog σ ρ) σ ρ where
  add log topic record := (.ok (), log.add topic record)
  fetch ipc log topic fetch_offset := log.fetch ipc topic fetch_offset

/-! ## Queues after each operation -/

@[simp] theorem queue_new (t : String) : (new : InMemoryLog σ ρ).queue t = [] := rfl

@[simp] theorem offset_queue_new (t : String) : (new : InMemoryLog σ ρ).offset_queue t = [] := rfl

theorem lookup_insert_getD {α : Type} (m : HashMap String (List α)) (t t' : String) (l : List α) :
    ((m.insert t l).lookup t').getD [] = if t' = t then l else (m.lookup t').getD [] := by
  by_cases h : t' = t
  · subst h; simp
  · simp [AList.lookup_insert_ne h, h]

@[simp] theorem queue_push_offsets (log : InMemoryLog σ ρ) (t t' : String) (r : StoredRecord σ ρ) :
    (log.push_offsets t r).queue t' = log.queue t' := rfl

theorem queue_push_record (log : InMemoryLog σ ρ) (t t' : String) (r : StoredRecord σ ρ) :
    (log.push_record t r).queue t' = if t' = t then log.queue t ++ [r] else log.queue t' :=
  lookup_insert_getD _ _ _ _

theorem offset_queue_push_offsets (log : InMemoryLog σ ρ) (t t' : String) (r : StoredRecord σ ρ) :
    (log.push_offsets t r).offset_queue t' =
      if t' = t then log.offset_queue t ++ new_offsets (log.queue t).length r else log.offset_queue t' :=
  lookup_insert_getD _ _ _ _

theorem queue_add (log : InMemoryLog σ ρ) (t t' : String) (r : StoredRecord σ ρ) :
    (log.add t r).queue t' = if t' = t then log.queue t ++ [r] else log.queue t' :=
  queue_push_record (log.push_offsets t r) t t' r

theorem offset_queue_add (log : InMemoryLog σ ρ) (t t' : String) (r : StoredRecord σ ρ) :
    (log.add t r).offset_queue t' =
      if t' = t then log.offset_queue t ++ new_offsets (log.queue t).length r else log.offset_queue t' :=
  offset_queue_push_offsets log t t' r

theorem lookup_insert_self {α : Type} (m : HashMap String (List α)) (t t' : String) :
    ((m.insert t ((m.lookup t).getD [])).lookup t').getD [] = (m.lookup t').getD [] := by
  rw [lookup_insert_getD]; split
  · rename_i h; rw [h]
  · rfl

/-- A fetch of an offset that does not exist. -/
theorem fetch_none (ipc : ArrowIpc σ ρ) {log : InMemoryLog σ ρ} {t : String} {o : Int}
    (h : getOffset (log.offset_queue t) (asUsize o) = none) :
    log.fetch ipc t o = (.ok [], { log with offsets := log.offsets.insert t (log.offset_queue t) }) := by
  have hq : ({ log with offsets := log.offsets.insert t (log.offset_queue t) } : InMemoryLog σ ρ).offset_queue t =
      log.offset_queue t := lookup_insert_self _ _ _
  unfold fetch
  dsimp only
  rw [hq, h]

/-- A fetch of an offset that exists. -/
theorem fetch_some (ipc : ArrowIpc σ ρ) {log : InMemoryLog σ ρ} {t : String} {o : Int} {ro : RecordOffset}
    (h : getOffset (log.offset_queue t) (asUsize o) = some ro) :
    log.fetch ipc t o = (fetch_records ipc (log.queue t) ro,
      { topics := log.topics.insert t (log.queue t), offsets := log.offsets.insert t (log.offset_queue t) }) := by
  have hq : ({ log with offsets := log.offsets.insert t (log.offset_queue t) } : InMemoryLog σ ρ).offset_queue t =
      log.offset_queue t := lookup_insert_self _ _ _
  unfold fetch
  dsimp only
  rw [hq, h]
  rfl

@[simp] theorem queue_fetch (ipc : ArrowIpc σ ρ) (log : InMemoryLog σ ρ) (t t' : String) (o : Int) :
    (log.fetch ipc t o).2.queue t' = log.queue t' := by
  cases h : getOffset (log.offset_queue t) (asUsize o) with
  | none => rw [fetch_none ipc h]; rfl
  | some ro => rw [fetch_some ipc h]; exact lookup_insert_self _ _ _

@[simp] theorem offset_queue_fetch (ipc : ArrowIpc σ ρ) (log : InMemoryLog σ ρ) (t t' : String) (o : Int) :
    (log.fetch ipc t o).2.offset_queue t' = log.offset_queue t' := by
  cases h : getOffset (log.offset_queue t) (asUsize o) with
  | none => rw [fetch_none ipc h]; exact lookup_insert_self _ _ _
  | some ro => rw [fetch_some ipc h]; exact lookup_insert_self _ _ _

/-- The bytes fetched are a function of the topic's two queues. -/
theorem fetch_fst (ipc : ArrowIpc σ ρ) (log : InMemoryLog σ ρ) (t : String) (o : Int) :
    (log.fetch ipc t o).1 = match getOffset (log.offset_queue t) (asUsize o) with
      | none => .ok []
      | some record_offset => fetch_records ipc (log.queue t) record_offset := by
  cases h : getOffset (log.offset_queue t) (asUsize o) with
  | none => rw [fetch_none ipc h]
  | some ro => rw [fetch_some ipc h]

end InMemoryLog

/-! ## Entries -/

/-- The number of offsets a record takes: one, or one for each row. -/
def StoredRecord.entries : StoredRecord σ ρ → Nat
  | .Raw _ => 1
  | .Batch batch => batch.num_rows

theorem new_offsets_eq (i : Nat) (r : StoredRecord σ ρ) :
    InMemoryLog.new_offsets i r = (List.range r.entries).map (RecordOffset.mk i) := by
  cases r <;> rfl

/-- The offset index of a queue: `(i, 0)` for a raw record at position `i`, and
`(i, 0), …, (i, rows - 1)` for a batch. -/
def offsetIndex (rs : List (StoredRecord σ ρ)) : List RecordOffset :=
  flat RecordOffset.mk StoredRecord.entries 0 rs

/-- The number of entries in the index of a queue. -/
def entryCount (rs : List (StoredRecord σ ρ)) : Nat := total StoredRecord.entries rs

theorem entryCount_append (rs rs' : List (StoredRecord σ ρ)) : entryCount (rs ++ rs') = entryCount rs + entryCount rs' :=
  total_append rs rs'

theorem length_offsetIndex (rs : List (StoredRecord σ ρ)) : (offsetIndex rs).length = entryCount rs := length_flat 0 rs

theorem offsetIndex_snoc (rs : List (StoredRecord σ ρ)) (r : StoredRecord σ ρ) :
    offsetIndex (rs ++ [r]) = offsetIndex rs ++ InMemoryLog.new_offsets rs.length r := by
  rw [offsetIndex, flat_append, new_offsets_eq, Nat.zero_add]
  simp [flat, offsetIndex]

/-- The index of a prefix is a prefix of the index. -/
theorem offsetIndex_isPrefix {rs rs' : List (StoredRecord σ ρ)} (h : rs <+: rs') :
    offsetIndex rs <+: offsetIndex rs' := by
  obtain ⟨tail, rfl⟩ := h
  rw [offsetIndex, offsetIndex, flat_append]
  exact List.prefix_append _ _

/-! ## The log of a history -/

/-- Every record added, with its topic, in order. -/
abbrev History (σ ρ : Type) := List (String × StoredRecord σ ρ)

/-- The records of one topic. -/
def History.ofTopic (t : String) (h : History σ ρ) : List (StoredRecord σ ρ) :=
  h.filterMap fun e => if e.1 = t then some e.2 else none

@[simp] theorem History.ofTopic_nil (t : String) : History.ofTopic t ([] : History σ ρ) = [] := rfl

@[simp] theorem History.ofTopic_append (t : String) (h h' : History σ ρ) :
    History.ofTopic t (h ++ h') = History.ofTopic t h ++ History.ofTopic t h' :=
  List.filterMap_append

theorem History.ofTopic_singleton (t : String) (e : String × StoredRecord σ ρ) :
    History.ofTopic t [e] = if e.1 = t then [e.2] else [] := by
  by_cases h : e.1 = t <;> simp [History.ofTopic, h]

theorem History.ofTopic_cons (t : String) (e : String × StoredRecord σ ρ) (h : History σ ρ) :
    History.ofTopic t (e :: h) = History.ofTopic t [e] ++ History.ofTopic t h :=
  History.ofTopic_append t [e] h

theorem History.ofTopic_isPrefix (t : String) {h h' : History σ ρ} (hp : h <+: h') :
    History.ofTopic t h <+: History.ofTopic t h' := by
  obtain ⟨tail, rfl⟩ := hp
  rw [History.ofTopic_append]
  exact List.prefix_append _ _

theorem History.eq_nil_of_ofTopic {h : History σ ρ} (hn : ∀ t, h.ofTopic t = []) : h = [] := by
  match h with
  | [] => rfl
  | e :: h =>
    have := hn e.1
    rw [History.ofTopic_cons, History.ofTopic_singleton, if_pos rfl] at this
    cases this

/-- For every topic the log holds the records of `h`, and their index. -/
structure Holds (log : InMemoryLog σ ρ) (h : History σ ρ) : Prop where
  queue : ∀ t, log.queue t = h.ofTopic t
  index : ∀ t, log.offset_queue t = offsetIndex (h.ofTopic t)

theorem holds_new : Holds (InMemoryLog.new : InMemoryLog σ ρ) [] := ⟨fun _ => rfl, fun _ => rfl⟩

theorem Holds.add {log : InMemoryLog σ ρ} {h : History σ ρ} (hl : Holds log h) (t : String)
    (r : StoredRecord σ ρ) : Holds (log.add t r) (h ++ [(t, r)]) where
  queue t' := by
    rw [InMemoryLog.queue_add, hl.queue, hl.queue, History.ofTopic_append, History.ofTopic_singleton]
    by_cases ht : t' = t
    · simp [ht]
    · simp [ht, Ne.symm ht]
  index t' := by
    rw [InMemoryLog.offset_queue_add, hl.queue, hl.index, hl.index, History.ofTopic_append,
      History.ofTopic_singleton]
    by_cases ht : t' = t
    · simp [ht, offsetIndex_snoc]
    · simp [ht, Ne.symm ht]

theorem Holds.fetch (ipc : ArrowIpc σ ρ) {log : InMemoryLog σ ρ} {h : History σ ρ} (hl : Holds log h)
    (t : String) (o : Int) : Holds (log.fetch ipc t o).2 h where
  queue t' := by rw [InMemoryLog.queue_fetch, hl.queue]
  index t' := by rw [InMemoryLog.offset_queue_fetch, hl.index]

/-- Adds every record of a history, in order. -/
def InMemoryLog.addAll (log : InMemoryLog σ ρ) (h : History σ ρ) : InMemoryLog σ ρ :=
  h.foldl (fun log e => log.add e.1 e.2) log

theorem InMemoryLog.queue_addAll (log : InMemoryLog σ ρ) (h : History σ ρ) (t : String) :
    (log.addAll h).queue t = log.queue t ++ h.ofTopic t := by
  induction h generalizing log with
  | nil => simp [InMemoryLog.addAll]
  | cons e h ih =>
    have := ih (log.add e.1 e.2)
    rw [InMemoryLog.addAll] at this ⊢
    rw [List.foldl_cons, this, InMemoryLog.queue_add, History.ofTopic_cons t e h, History.ofTopic_singleton]
    by_cases ht : e.1 = t
    · simp [ht]
    · simp [ht, Ne.symm ht]

theorem Holds.addAll {log : InMemoryLog σ ρ} {h : History σ ρ} (hl : Holds log h) (h' : History σ ρ) :
    Holds (log.addAll h') (h ++ h') := by
  induction h' generalizing log h with
  | nil => simpa [InMemoryLog.addAll] using hl
  | cons e h' ih =>
    have := ih (hl.add e.1 e.2)
    simpa [InMemoryLog.addAll] using this

end herbert
