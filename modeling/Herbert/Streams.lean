import Herbert.Metadata
/-!
# Streams of several batches

`parse_record_batch_from_bytes` takes the first batch of the stream it is given,
and so does `recover` with the stream of a frame. A stream of one batch comes
through both; of a longer one the rows of the first batch do
(`all_rows_iff`).
-/
open Lib Lib.Bytes Lib.Runs herbert.WriteAheadLog herbert.TopicManager herbert.Recovery herbert.Fetch herbert.Crash
  herbert.Metadata

namespace herbert.Streams

variable {σ ρ : Type}

/-- All rows of the batches among the records. -/
def rows_of (rs : List (StoredRecord σ ρ)) : List ρ := (batchesOf rs).flatMap (·.rows)

theorem rows_of_snoc (rs : List (StoredRecord σ ρ)) (b : RecordBatch σ ρ) :
    rows_of (rs ++ [.Batch b]) = rows_of rs ++ b.rows := by
  simp [rows_of, batchesOf_append, batchesOf]

section
variable [DecidableEq σ] {ipc : ArrowIpc σ ρ}

/-- A stream that is accepted by a topic with a schema is stored as its first
batch. -/
theorem stored_first {m : HashMap String (TopicMetadata σ)} {t name : String} {s : σ} {w : Bytes}
    {r : StoredRecord σ ρ} {b : RecordBatch σ ρ} {bs : List (RecordBatch σ ρ)} (hm : m.lookup t = some ⟨name, some s⟩)
    (hread : ipc.read w = .ok ((b :: bs).map .ok)) (hr : stored_record ipc m t w = .ok r) : r = .Batch b := by
  rcases stored_record_cases hr with rfl | ⟨b', bs', rfl, hread', -⟩
  · exact absurd hm (stored_record_raw hr name s)
  · rw [hread] at hread'
    cases hread'
    rfl

/-- A restart brings back the log of every topic. -/
theorem queue_restart {tr} {p : Process σ ρ} (hipc : ipc.Lawful) (hr : Run (Metadata.step ipc) (start ⟨1⟩) tr p)
    (hf : Always (Fits ipc) tr) (hd : Drained p) {file : Bytes}
    (hfile : file = p.tm.wal.file.inner ∨ file = p.tm.wal.file.contents) (config : Config) (t : String) :
    (Recovery.restart ipc config file).2.backend.queue t = p.tm.backend.queue t := by
  have hi := inv_run hipc hr hf
  obtain ⟨rfl, hclean⟩ := hi.file_drained hd hfile
  have hqueue := hi.queue_buffer t
  rw [hd.2, History.ofTopic_nil, List.append_nil] at hqueue
  rw [(restart_frames config hclean).2.queue, hqueue]

/-- The rows of an accepted stream are appended to the topic's log if and only
if its batches behind the first one have no rows; and in a run whose records
can all be logged the same rows are there after a restart. `file` is what a kill
leaves, or an orderly end. -/
theorem all_rows_iff (hipc : ipc.Lawful) {tr} {p : Process σ ρ} (hr : Run (Metadata.step ipc) (start ⟨1⟩) tr p)
    (he : Always (fun _ ev => Eager ev) tr) {t name : String} {s : σ} {w : Bytes} {bs : List (RecordBatch σ ρ)}
    (hm : p.tm.topic_metadatas.lookup t = some ⟨name, some s⟩) (hread : ipc.read w = .ok (bs.map .ok)) (hne : bs ≠ [])
    (hok : (p.tm.add ipc t w).1 = .ok ()) :
    let after := (p.tm.add ipc t w).2
    (rows_of (after.backend.queue t) = rows_of (p.tm.backend.queue t) ++ bs.flatMap (·.rows) ↔
      bs.tail.flatMap (·.rows) = []) ∧
    (Always (Fits ipc) (tr ++ [(p, .call (.add t w))]) → ∀ config file, file = after.wal.file.inner ∨ file = after.wal.file.contents →
      (rows_of ((Recovery.restart ipc config file).2.backend.queue t) =
          rows_of (p.tm.backend.queue t) ++ bs.flatMap (·.rows) ↔
        bs.tail.flatMap (·.rows) = [])) := by
  intro after
  have hd : Drained p := hr.inv_while (C := fun _ ev => Eager ev) Drained ⟨rfl, rfl⟩
    (fun _ _ _ hd he => drained_step hd he) he
  obtain ⟨b, bs, rfl⟩ := List.exists_cons_of_ne_nil hne
  have hlive : rows_of (after.backend.queue t) = rows_of (p.tm.backend.queue t) ++ (b :: bs).flatMap (·.rows) ↔
      (b :: bs).tail.flatMap (·.rows) = [] := by
    rcases add_cases ipc p.tm t w with ⟨e, hadd⟩ | ⟨r, hstored, hw⟩
    · rw [hadd] at hok
      cases hok
    · obtain rfl := stored_first hm hread hstored
      have hqueue := queue_add_full p.tm hstored hw (by simp [hd.1])
      rw [hd.2, History.ofTopic_nil, List.append_nil] at hqueue
      rw [hqueue, rows_of_snoc, List.append_cancel_left_eq, List.flatMap_cons, List.tail_cons]
      exact List.self_eq_append_right
  refine ⟨hlive, fun hf config file hfile => ?_⟩
  have hstep : Metadata.step ipc p (.call (.add t w)) = some ⟨after, p.accepted ++ acceptedBy ipc p.tm t w⟩ := rfl
  have heager : Eager (.call (.add t w) : Metadata.Event σ) := trivial
  rw [queue_restart hipc (hr.snoc hstep) hf (drained_step hd heager hstep) hfile config t]
  exact hlive

end

/-- A topic with a schema. -/
def one_topic : Process UInt8 UInt8 := ⟨(TopicManager.create (.new .new ⟨1⟩ []) "t" (some 7)).2, []⟩

theorem run_one_topic :
    Run (Metadata.step pocketIpc) (start ⟨1⟩) [(start ⟨1⟩, .call (.create "t" (some 7)))] one_topic :=
  Run.nil.snoc rfl

/-- A batch of two rows and one without rows, in one stream. -/
theorem all_rows_iff_two :
    let w : Bytes := [255, 255, 255, 255, 7, 3, 1, 5, 1, 6, 2, 3, 2, 0, 0, 0]
    let after := (one_topic.tm.add pocketIpc "t" w).2
    rows_of (after.backend.queue "t") = [5, 6] ∧
      rows_of ((Recovery.restart pocketIpc ⟨1⟩ after.wal.file.inner).2.backend.queue "t") = [5, 6] := by
  intro w after
  have he : Always (fun _ (ev : Metadata.Event UInt8) => Eager ev)
      [((start ⟨1⟩ : Process UInt8 UInt8), .call (.create "t" (some 7)))] := by
    simp [Always, Eager]
  have hread : pocketIpc.read w = .ok ([⟨7, [5, 6]⟩, ⟨7, []⟩].map .ok) := by decide
  have hfit : StoresLoggable pocketIpc one_topic.tm.topic_metadatas "t" w :=
    storesLoggable_of (by decide) fun b bs h => by
      rw [hread] at h
      cases h
      decide
  obtain ⟨hlive, hrestart⟩ := all_rows_iff pocketIpc_framed.toLawful run_one_topic he
    (show one_topic.tm.topic_metadatas.lookup "t" = some ⟨"t", some 7⟩ by decide) hread (by simp) (by decide)
  refine ⟨hlive.2 rfl, (hrestart ?_ ⟨1⟩ _ (.inl rfl)).2 rfl⟩
  simpa [Always, Fits] using hfit

/-- Of a stream of two batches of one row each, the second row is lost. -/
theorem second_batch_lost :
    let w : Bytes := [255, 255, 255, 255, 7, 3, 1, 5, 2, 3, 1, 6, 2, 0, 0, 0]
    pocketIpc.read w = .ok ([⟨7, [5]⟩, ⟨7, [6]⟩].map .ok) ∧ (one_topic.tm.add pocketIpc "t" w).1 = .ok () ∧
      rows_of ((one_topic.tm.add pocketIpc "t" w).2.backend.queue "t") ≠
        rows_of (one_topic.tm.backend.queue "t") ++ [5, 6] := by
  decide

end herbert.Streams
