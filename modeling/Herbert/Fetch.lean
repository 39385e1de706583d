import Herbert.Storage
/-!
# What a fetch returns

The log as its readers see it: an append-only list of records for each topic,
read from an entry on. `readFrom` is that view of one topic, and `fetch` after
any run of adds and fetches computes it (`fetch_run`). What it returns is then
worked out for the two kinds of topics: raw records joined by zero bytes, and
one IPC stream with the rows from the offset on.
-/
open Lib.FlatIndex herbert.InMemoryLog

namespace herbert.Fetch

variable {σ ρ : Type} (ipc : ArrowIpc σ ρ)

/-! ## The loop -/

/-- The raw bytes among the records, each with a zero byte behind it unless it
is the last record. -/
def rawBytes : List (StoredRecord σ ρ) → Bytes
  | [] => []
  | .Raw bytes :: rest => bytes ++ (if rest.isEmpty then [] else [0]) ++ rawBytes rest
  | .Batch _ :: rest => rawBytes rest

/-- The batches among the records. -/
def batchesOf : List (StoredRecord σ ρ) → List (RecordBatch σ ρ)
  | [] => []
  | .Raw _ :: rest => batchesOf rest
  | .Batch batch :: rest => batch :: batchesOf rest

/-- The first batch loses the rows before the offset. -/
def sliceFirst (row_offset : Nat) : List (RecordBatch σ ρ) → List (RecordBatch σ ρ)
  | [] => []
  | batch :: batches => batch.slice row_offset (batch.num_rows - row_offset) :: batches

theorem fetch_loop_eq (row_offset : Nat) (rs : List (StoredRecord σ ρ)) (records : Bytes)
    (batches : List (RecordBatch σ ρ)) :
    fetch_loop row_offset rs records batches =
      (records ++ rawBytes rs,
        batches ++ if batches.isEmpty then sliceFirst row_offset (batchesOf rs) else batchesOf rs) := by
  induction rs generalizing records batches with
  | nil => cases batches <;> simp [fetch_loop, rawBytes, batchesOf, sliceFirst]
  | cons r rs ih =>
    cases r with
    | Raw bytes => simp [fetch_loop, rawBytes, batchesOf, ih]
    | Batch batch => cases batches <;> simp [fetch_loop, rawBytes, batchesOf, sliceFirst, ih]

theorem fetch_records_eq (rs : List (StoredRecord σ ρ)) (ro : RecordOffset) :
    fetch_records ipc rs ro =
      match sliceFirst ro.row_offset (batchesOf (rs.drop ro.batch_index)) with
      | [] => .ok (rawBytes (rs.drop ro.batch_index))
      | batch :: batches =>
        match ipc.write batch.schema (batch :: batches) with
        | .ok buffer => .ok (rawBytes (rs.drop ro.batch_index) ++ buffer)
        | .error e => .error (.ArrowError e) := by
  simp only [fetch_records, fetch_loop_eq, List.nil_append, List.isEmpty_nil, if_true]
  split
  · rename_i records h
    simp only [Prod.mk.injEq] at h
    rw [h.2, h.1]
  · rename_i records batch batches h
    simp only [Prod.mk.injEq] at h
    rw [h.2]
    cases hw : ipc.write batch.schema (batch :: batches) with
    | ok buffer => simp only [hw, h.1]
    | error e => simp only [hw]

@[simp] theorem batchesOf_raw (bs : List Bytes) : batchesOf (bs.map (StoredRecord.Raw (σ := σ) (ρ := ρ))) = [] := by
  induction bs with
  | nil => rfl
  | cons b bs ih => simpa [batchesOf] using ih

@[simp] theorem batchesOf_batch (bs : List (RecordBatch σ ρ)) : batchesOf (bs.map .Batch) = bs := by
  induction bs with
  | nil => rfl
  | cons b bs ih => simpa [batchesOf] using ih

@[simp] theorem rawBytes_batch (bs : List (RecordBatch σ ρ)) : rawBytes (bs.map .Batch) = [] := by
  induction bs with
  | nil => rfl
  | cons b bs ih => simpa [rawBytes] using ih

theorem batchesOf_append (rs rs' : List (StoredRecord σ ρ)) : batchesOf (rs ++ rs') = batchesOf rs ++ batchesOf rs' := by
  induction rs with
  | nil => rfl
  | cons r rs ih => cases r <;> simp [batchesOf, ih]

/-- Raw records alone come out joined by single zero bytes. -/
@[simp] theorem rawBytes_raw (bs : List Bytes) :
    rawBytes (bs.map (StoredRecord.Raw (σ := σ) (ρ := ρ))) = [0].intercalate bs := by
  induction bs with
  | nil => rfl
  | cons b bs ih =>
    cases bs with
    | nil => simp [rawBytes]
    | cons b' bs =>
      rw [List.map_cons, rawBytes, ih, List.intercalate_cons_cons]
      simp

/-- The bytes fetched: the raw ones, then a stream of the batches if there are
any. -/
theorem fetch_in_order {ipc : ArrowIpc σ ρ} (hipc : ipc.Lawful) {ws : List Bytes} {bs : List (RecordBatch σ ρ)}
    (hs : ∀ b ∈ bs, ∀ b' ∈ bs, b'.schema = b.schema) {rs : List (StoredRecord σ ρ)} (ro : RecordOffset)
    (hd : rs.drop ro.batch_index = ws.map .Raw ++ bs.map .Batch) :
    ∃ buffer, fetch_records ipc rs ro = .ok (rawBytes (ws.map .Raw ++ bs.map .Batch) ++ buffer) ∧
      (bs = [] → buffer = []) ∧
      ∀ b rest, bs = b :: rest →
        ipc.write b.schema (b.slice ro.row_offset (b.num_rows - ro.row_offset) :: rest) = .ok buffer := by
  rw [fetch_records_eq, hd, batchesOf_append, batchesOf_raw, batchesOf_batch, List.nil_append]
  cases bs with
  | nil => exact ⟨[], by simp [sliceFirst], fun _ => rfl, fun b rest h => by cases h⟩
  | cons b rest =>
    obtain ⟨buffer, hw, -⟩ := hipc.read_write b.schema (b.slice ro.row_offset (b.num_rows - ro.row_offset) :: rest)
      (by
        intro b' hb'
        rcases List.mem_cons.1 hb' with rfl | hb'
        · rfl
        · exact hs b (by simp) b' (by simp [hb']))
    refine ⟨buffer, ?_, ?_, ?_⟩
    · simp only [sliceFirst, show (b.slice ro.row_offset (b.num_rows - ro.row_offset)).schema = b.schema from rfl, hw]
    · intro h
      cases h
    · intro b' rest' h
      cases h
      exact hw

/-! ## Offsets -/

theorem asUsize_nonneg {o : Int} (h0 : 0 ≤ o) (h1 : o < 2 ^ 63) : asUsize o = o.toNat := by
  unfold asUsize; omega

theorem asUsize_neg {o : Int} (h0 : o < 0) (h1 : -2 ^ 63 ≤ o) : 2 ^ 63 ≤ asUsize o := by
  unfold asUsize; omega

/-- Reading a topic's records from an entry on. -/
def readFrom (rs : List (StoredRecord σ ρ)) (o : Int) : Except HerbertError Bytes :=
  match getOffset (offsetIndex rs) (asUsize o) with
  | none => .ok []
  | some record_offset => fetch_records ipc rs record_offset

/-- `fetch` reads the topic's records, whatever else the log holds. -/
theorem fetch_holds {log : InMemoryLog σ ρ} {h : History σ ρ} (hl : Holds log h) (t : String) (o : Int) :
    (log.fetch ipc t o).1 = readFrom ipc (h.ofTopic t) o := by
  rw [fetch_fst, hl.queue, hl.index]; rfl

/-- Outside the entries there is nothing to read. -/
theorem readFrom_outside (rs : List (StoredRecord σ ρ)) {o : Int} (hmin : -2 ^ 63 ≤ o) (hmax : o < 2 ^ 63)
    (h : o < 0 ∨ entryCount rs ≤ o) : readFrom ipc rs o = .ok [] := by
  have hnone : getOffset (offsetIndex rs) (asUsize o) = none := by
    unfold getOffset
    split
    · rename_i hlt
      have h0 : 0 ≤ o := by
        by_contra hneg
        have := asUsize_neg (by omega) hmin
        omega
      apply flat_getElem?_none 0 rs
      rw [asUsize_nonneg h0 hmax]
      show entryCount rs ≤ o.toNat
      omega
    · rfl
  rw [readFrom, hnone]

/-- An offset below the entry count is a position inside a record, and reading
starts there. -/
theorem readFrom_inside (rs : List (StoredRecord σ ρ)) {o : Int} (h0 : 0 ≤ o) (h1 : o < 2 ^ 63)
    (h : o < entryCount rs) :
    ∃ j x r, rs[j]? = some x ∧ r < x.entries ∧ o.toNat = entryCount (rs.take j) + r ∧
      (offsetIndex rs)[o.toNat]? = some ⟨j, r⟩ ∧ readFrom ipc rs o = fetch_records ipc rs ⟨j, r⟩ := by
  have hlt : o.toNat < total StoredRecord.entries rs := by unfold entryCount at h; omega
  obtain ⟨j, x, r, hj, hr, hsum, hget⟩ := flat_getElem? RecordOffset.mk 0 rs hlt
  rw [Nat.zero_add] at hget
  have hsome : getOffset (offsetIndex rs) (asUsize o) = some ⟨j, r⟩ := by
    rw [asUsize_nonneg h0 h1, getOffset, if_pos (by omega), offsetIndex, hget]
  refine ⟨j, x, r, hj, hr, hsum, hget, ?_⟩
  rw [readFrom, hsome]

/-! ## Raw topics -/

theorem entryCount_raw (bs : List Bytes) :
    entryCount (bs.map (StoredRecord.Raw (σ := σ) (ρ := ρ))) = bs.length := by
  induction bs with
  | nil => rfl
  | cons b bs ih =>
    simp only [entryCount, List.map_cons, total_cons, StoredRecord.entries, List.length_cons] at ih ⊢
    omega

/-- A raw topic is read as its records from the offset on, joined by zero bytes. -/
theorem readFrom_raw (bs : List Bytes) {o : Int} (h0 : 0 ≤ o) (h1 : o < 2 ^ 63) (h : o < bs.length) :
    readFrom ipc (bs.map .Raw) o = .ok ([0].intercalate (bs.drop o.toNat)) := by
  obtain ⟨j, x, r, hj, hr, hsum, -, hread⟩ :=
    readFrom_inside ipc (bs.map .Raw) h0 h1 (by rw [entryCount_raw]; exact h)
  have hjlt : j < bs.length := by
    simpa using (List.getElem?_eq_some_iff.1 hj).1
  have hr0 : r = 0 := by
    rw [List.getElem?_map, Option.map_eq_some_iff] at hj
    obtain ⟨b, -, rfl⟩ := hj
    simpa [StoredRecord.entries] using hr
  rw [← List.map_take, entryCount_raw, List.length_take, Nat.min_eq_left (by omega), hr0] at hsum
  rw [hread, fetch_records_eq, ← List.map_drop, batchesOf_raw, rawBytes_raw]
  simp [sliceFirst, show j = o.toNat by omega]

/-! ## Schema topics -/

theorem entryCount_batch (bs : List (RecordBatch σ ρ)) :
    entryCount (bs.map StoredRecord.Batch) = (bs.flatMap (·.rows)).length := by
  induction bs with
  | nil => rfl
  | cons b bs ih =>
    simp only [entryCount, List.map_cons, total_cons, StoredRecord.entries, RecordBatch.num_rows,
      List.flatMap_cons, List.length_append] at ih ⊢
    omega

/-- Row `r` of batch `b` on, then the batches after it: the rows from `o` on. -/
theorem rows_from {bs : List (RecordBatch σ ρ)} {j r : Nat} {b : RecordBatch σ ρ} (hj : bs[j]? = some b)
    (hr : r ≤ b.num_rows) :
    (b.slice r (b.num_rows - r) :: bs.drop (j + 1)).flatMap (·.rows) =
      (bs.flatMap (·.rows)).drop (entryCount ((bs.take j).map StoredRecord.Batch) + r) := by
  obtain ⟨hlt, rfl⟩ := List.getElem?_eq_some_iff.1 hj
  have hsplit : bs.flatMap (·.rows) =
      (bs.take j).flatMap (·.rows) ++ (bs[j].rows ++ (bs.drop (j + 1)).flatMap (·.rows)) := by
    rw [← List.flatMap_cons, ← List.drop_eq_getElem_cons hlt, ← List.flatMap_append, List.take_append_drop]
  have hslice : (bs[j].slice r (bs[j].num_rows - r)).rows = bs[j].rows.drop r := by
    simp [RecordBatch.slice, RecordBatch.num_rows, List.take_of_length_le]
  rw [entryCount_batch, hsplit, List.drop_length_add_append,
    List.drop_append_of_le_length (by simpa [RecordBatch.num_rows] using hr), List.flatMap_cons, hslice]

/-- A topic of batches is read as one stream of the first batch's remaining rows
and the batches after it. -/
theorem readFrom_batch {ipc : ArrowIpc σ ρ} (hipc : ipc.Lawful) {bs : List (RecordBatch σ ρ)} {s : σ}
    (hs : ∀ b ∈ bs, b.schema = s) {o : Int} (h0 : 0 ≤ o) (h1 : o < 2 ^ 63)
    (h : o < (bs.flatMap (·.rows)).length) :
    ∃ j b r w, bs[j]? = some b ∧ r < b.num_rows ∧
      o.toNat = ((bs.take j).flatMap (·.rows)).length + r ∧
      readFrom ipc (bs.map .Batch) o = .ok w ∧ ipc.write s (b.slice r (b.num_rows - r) :: bs.drop (j + 1)) = .ok w ∧
      ipc.read w = .ok ((b.slice r (b.num_rows - r) :: bs.drop (j + 1)).map .ok) := by
  obtain ⟨j, x, r, hj, hr, hsum, -, hread⟩ :=
    readFrom_inside ipc (bs.map .Batch) h0 h1 (by rw [entryCount_batch]; exact h)
  rw [List.getElem?_map, Option.map_eq_some_iff] at hj
  obtain ⟨b, hj, rfl⟩ := hj
  obtain ⟨hlt, hbj⟩ := List.getElem?_eq_some_iff.1 hj
  have hdrop : bs.drop j = b :: bs.drop (j + 1) := by rw [← hbj]; exact List.drop_eq_getElem_cons hlt
  have hmem : b ∈ bs := List.mem_of_getElem? hj
  obtain ⟨w, hw, hrd⟩ := hipc.read_write s (b.slice r (b.num_rows - r) :: bs.drop (j + 1)) (by
    intro b' hb'
    rcases List.mem_cons.1 hb' with rfl | hb'
    · exact hs b hmem
    · exact hs b' (List.mem_of_mem_drop hb'))
  refine ⟨j, b, r, w, hj, hr, ?_, ?_, hw, hrd⟩
  · rw [hsum, ← List.map_take, entryCount_batch]
  · have hb : (b.slice r (b.num_rows - r)).schema = s := hs b hmem
    rw [hread, fetch_records_eq, ← List.map_drop, batchesOf_batch, rawBytes_batch, hdrop]
    simp [sliceFirst, hb, hw]

/-! ## Runs of adds and fetches -/

inductive LogOp (σ ρ : Type) where
  | add (topic : String) (record : StoredRecord σ ρ)
  | fetch (topic : String) (fetch_offset : Int64)

/-- The log after an operation. -/
def apply (log : InMemoryLog σ ρ) : LogOp σ ρ → InMemoryLog σ ρ
  | .add topic record => log.add topic record
  | .fetch topic fetch_offset => (log.fetch ipc topic fetch_offset.toInt).2

def applyAll (log : InMemoryLog σ ρ) (ops : List (LogOp σ ρ)) : InMemoryLog σ ρ := ops.foldl (apply ipc) log

/-- The records added, with their topics. -/
def added (ops : List (LogOp σ ρ)) : History σ ρ :=
  ops.filterMap fun
    | .add topic record => some (topic, record)
    | .fetch _ _ => none

/-- After any run the log holds what was added. -/
theorem holds_applyAll {log : InMemoryLog σ ρ} {h : History σ ρ} (hl : Holds log h) (ops : List (LogOp σ ρ)) :
    Holds (applyAll ipc log ops) (h ++ added ops) := by
  induction ops generalizing log h with
  | nil => simpa [applyAll, added] using hl
  | cons op ops ih =>
    cases op with
    | add t r =>
      have := ih (hl.add t r)
      simpa [applyAll, apply, added] using this
    | fetch t o => exact ih (hl.fetch ipc t o.toInt)

/-- A fetch after any run reads the records added to its topic. -/
theorem fetch_run (ops : List (LogOp σ ρ)) (t : String) (o : Int) :
    ((applyAll ipc new ops).fetch ipc t o).1 = readFrom ipc ((added ops).ofTopic t) o :=
  fetch_holds ipc (holds_applyAll ipc holds_new ops) t o

/-- The log refines an append-only log. A fetch depends only on the records
added to its topic; on a raw topic it returns the records from the offset on,
joined by single zero bytes; on a topic of batches of one schema it returns a
stream of exactly the rows from the offset on, with the boundaries of the later
batches kept; and outside the entries it returns nothing. -/
theorem log_refines {ipc : ArrowIpc σ ρ} (hipc : ipc.Lawful) (ops : List (LogOp σ ρ)) (t : String) (o : Int64) :
    (∀ ops', (added ops').ofTopic t = (added ops).ofTopic t →
      ((applyAll ipc new ops').fetch ipc t o.toInt).1 = ((applyAll ipc new ops).fetch ipc t o.toInt).1) ∧
    (∀ bs : List Bytes, (added ops).ofTopic t = bs.map .Raw → 0 ≤ o.toInt → o.toInt < bs.length →
      ((applyAll ipc new ops).fetch ipc t o.toInt).1 = .ok ([0].intercalate (bs.drop o.toInt.toNat))) ∧
    (∀ (bs : List (RecordBatch σ ρ)) (s : σ), (added ops).ofTopic t = bs.map .Batch →
      (∀ b ∈ bs, b.schema = s) → 0 ≤ o.toInt → o.toInt < (bs.flatMap (·.rows)).length →
      ∃ w out j b r, ((applyAll ipc new ops).fetch ipc t o.toInt).1 = .ok w ∧
        ipc.read w = .ok (out.map .ok) ∧
        out.flatMap (·.rows) = (bs.flatMap (·.rows)).drop o.toInt.toNat ∧
        bs[j]? = some b ∧ r < b.num_rows ∧ o.toInt.toNat = ((bs.take j).flatMap (·.rows)).length + r ∧
        out = b.slice r (b.num_rows - r) :: bs.drop (j + 1)) ∧
    (o.toInt < 0 ∨ entryCount ((added ops).ofTopic t) ≤ o.toInt →
      ((applyAll ipc new ops).fetch ipc t o.toInt).1 = .ok []) := by
  have hmin : -2 ^ 63 ≤ o.toInt := o.le_toInt
  have hmax : o.toInt < 2 ^ 63 := o.toInt_lt
  simp only [fetch_run]
  refine ⟨?_, ?_, ?_, ?_⟩
  · intro ops' h
    rw [h]
  · intro bs h h0 hlt
    rw [h]
    exact readFrom_raw ipc bs h0 hmax hlt
  · intro bs s h hs h0 hlt
    rw [h]
    obtain ⟨j, b, r, w, hj, hr, hsum, hread, -, hrd⟩ := readFrom_batch hipc hs h0 hmax hlt
    refine ⟨w, _, j, b, r, hread, hrd, ?_, hj, hr, hsum, rfl⟩
    rw [rows_from hj hr.le, entryCount_batch, hsum]
  · intro h
    exact readFrom_outside ipc _ hmin hmax h

/-- Two batches, read from the second row of the first one. -/
theorem log_refines_pocket :
    ((applyAll pocketIpc new [.add "t" (.Batch ⟨7, [1, 2]⟩), .fetch "t" 0, .add "u" (.Raw [9]),
        .add "t" (.Batch ⟨7, [3]⟩)]).fetch pocketIpc "t" (1 : Int64).toInt).1 = .ok
      [255, 255, 255, 255, 7, 3, 1, 2, 2, 3, 1, 3, 2, 0, 0, 0] ∧
    ∃ (w : Bytes) (out : List (RecordBatch UInt8 UInt8)),
      ((applyAll pocketIpc new [.add "t" (.Batch ⟨7, [1, 2]⟩), .fetch "t" 0, .add "u" (.Raw [9]),
        .add "t" (.Batch ⟨7, [3]⟩)]).fetch pocketIpc "t" (1 : Int64).toInt).1 = .ok w ∧
      pocketIpc.read w = .ok (out.map .ok) ∧ out.flatMap (·.rows) = [2, 3] := by
  refine ⟨by decide, ?_⟩
  obtain ⟨-, -, h, -⟩ := log_refines pocketIpc_framed.toLawful
    [.add "t" (.Batch ⟨7, [1, 2]⟩), .fetch "t" 0, .add "u" (.Raw [9]), .add "t" (.Batch ⟨7, [3]⟩)] "t" 1
  obtain ⟨w, out, -, -, -, hw, hr, hrows, -⟩ :=
    h [⟨7, [1, 2]⟩, ⟨7, [3]⟩] 7 (by decide) (by decide) (by decide) (by decide)
  exact ⟨w, out, hw, hr, hrows⟩

end herbert.Fetch
