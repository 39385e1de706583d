import Herbert.Locks
import Herbert.Panics
/-!
# The index under concurrent calls

`add` updates two maps, the offsets first. Between the two updates it holds both
locks, and the index is the one of the queue with the record it has yet to push
(`Indexed`). Whenever no `add` is there, the index is the one of the queue.

A `fetch` that found its offset holds `offsets`, so its entry is one of the queue
it then reads, and slicing the first batch stays inside this batch.
-/
open Lib.Runs Lib.Mutex herbert.InMemoryLog herbert.Locks
open herbert.Panics (batch? offsetIndex_inside row_offset_le)

namespace herbert.Slices

variable {ι σ ρ : Type}

/-! ## The loop and its panics -/

/-- `batch.slice(row_offset, batch.num_rows() - row_offset)`; `none` if the
subtraction or `slice` panics. -/
def checked_slice (batch : RecordBatch σ ρ) (row_offset : Nat) : Option (RecordBatch σ ρ) :=
  if batch.num_rows < row_offset then none
  else
    let length := batch.num_rows - row_offset
    if batch.num_rows < row_offset + length then none else some (batch.slice row_offset length)

/-- The loop of `fetch` with its panics. -/
def checked_loop (row_offset : Nat) : List (StoredRecord σ ρ) → Bytes → List (RecordBatch σ ρ) →
    Option (Bytes × List (RecordBatch σ ρ))
  | [], records, batches => some (records, batches)
  | .Raw bytes :: iter, records, batches =>
    checked_loop row_offset iter (records ++ bytes ++ if iter.isEmpty then [] else [0]) batches
  | .Batch batch :: iter, records, batches =>
    if batches.isEmpty then
      match checked_slice batch row_offset with
      | none => none
      | some batch_slice => checked_loop row_offset iter records (batches ++ [batch_slice])
    else checked_loop row_offset iter records (batches ++ [batch])

theorem checked_slice_eq {batch : RecordBatch σ ρ} {row_offset : Nat} (h : row_offset ≤ batch.num_rows) :
    checked_slice batch row_offset = some (batch.slice row_offset (batch.num_rows - row_offset)) := by
  rw [checked_slice, if_neg (by omega)]
  dsimp only
  rw [if_neg (by omega)]

/-- Once there is a batch, none is sliced. -/
theorem checked_loop_later (row_offset : Nat) (iter : List (StoredRecord σ ρ)) (records : Bytes)
    (batch : RecordBatch σ ρ) (batches : List (RecordBatch σ ρ)) :
    checked_loop row_offset iter records (batch :: batches) =
      some (fetch_loop row_offset iter records (batch :: batches)) := by
  induction iter generalizing records batches with
  | nil => rfl
  | cons record iter ih =>
    cases record with
    | Raw bytes => exact ih _ _
    | Batch b => exact ih _ _

/-- Only the first batch can make the loop panic. -/
theorem checked_loop_eq {row_offset : Nat} {iter : List (StoredRecord σ ρ)} (records : Bytes)
    (h : ∀ batch, iter.findSome? batch? = some batch → row_offset ≤ batch.num_rows) :
    checked_loop row_offset iter records [] = some (fetch_loop row_offset iter records []) := by
  induction iter generalizing records with
  | nil => rfl
  | cons record iter ih =>
    cases record with
    | Raw bytes => exact ih _ h
    | Batch batch =>
      have hslice := checked_slice_eq (h batch rfl)
      simp only [checked_loop, fetch_loop, hslice, List.isEmpty_nil, if_true, List.nil_append]
      exact checked_loop_later _ _ _ _ _

/-- What `fetch` does with an entry of the index is in bounds. -/
structure InBounds (queue : List (StoredRecord σ ρ)) (record_offset : RecordOffset) : Prop where
  position : record_offset.batch_index < queue.length
  no_underflow : ∀ batch, (queue.drop record_offset.batch_index).findSome? batch? = some batch →
    record_offset.row_offset ≤ batch.num_rows
  slice_inside : ∀ batch, (queue.drop record_offset.batch_index).findSome? batch? = some batch →
    record_offset.row_offset + (batch.num_rows - record_offset.row_offset) ≤ batch.num_rows
  no_panic : checked_loop record_offset.row_offset (queue.drop record_offset.batch_index) [] [] =
    some (fetch_loop record_offset.row_offset (queue.drop record_offset.batch_index) [] [])

/-- An entry of the index of a queue is. -/
theorem inBounds_of_index {rs : List (StoredRecord σ ρ)} {o : Nat} {ro : RecordOffset}
    (h : getOffset (offsetIndex rs) o = some ro) : InBounds rs ro := by
  have hfirst : ∀ batch, (rs.drop ro.batch_index).findSome? batch? = some batch → ro.row_offset ≤ batch.num_rows :=
    fun batch hb => row_offset_le h hb
  obtain ⟨r, hr, -⟩ := offsetIndex_inside h
  refine ⟨(List.getElem?_eq_some_iff.1 hr).1, hfirst, fun batch hb => ?_, checked_loop_eq [] hfirst⟩
  have := hfirst batch hb
  omega

/-! ## The invariant -/

/-- The record that a call has yet to push to the topic. -/
def unpushed (t : String) : Pc σ ρ → List (StoredRecord σ ρ)
  | .addBoth t' r => if t = t' then [r] else []
  | _ => []

/-- The record that the holder of `offsets` has yet to push to the topic. -/
def owed (s : State ι σ ρ) (t : String) : List (StoredRecord σ ρ) :=
  match s.offsets with
  | none => []
  | some i => unpushed t (s.pc i)

/-- The index is ahead of the queue by what is owed, and a `fetch` that found its
offset holds an entry of the index. -/
structure Indexed (s : State ι σ ρ) : Prop where
  locks : Inv s
  index : ∀ t, s.log.offset_queue t = offsetIndex (s.log.queue t ++ owed s t)
  found : ∀ i t ro, s.pc i = .fetchOffsets t (some ro) → ∃ o, getOffset (s.log.offset_queue t) o = some ro

variable {ipc : ArrowIpc σ ρ} {s s' : State ι σ ρ} {i : ι} {p : Pc σ ρ} {t : String}

theorem owed_free (h : s.offsets = none) (t : String) : owed s t = [] := by
  rw [owed, h]

theorem owed_held (h : s.offsets = some i) (t : String) : owed s t = unpushed t (s.pc i) := by
  rw [owed, h]

def isAdd : Pc σ ρ → Bool
  | .ready (.add _ _) | .addTopics _ _ | .addBoth _ _ | .addDropped | .added => true
  | _ => false

/-- An `add` holds both locks. -/
def AddHoldsBoth (s : State ι σ ρ) : Prop := ∃ i, isAdd (s.pc i) = true ∧ s.topics = some i ∧ s.offsets = some i

/-- An `add` owes a record only while it holds both locks. -/
theorem owed_eq_nil (h : Inv s) (hboth : ¬ AddHoldsBoth s) (t : String) : owed s t = [] := by
  cases ho : s.offsets with
  | none => exact owed_free ho t
  | some i =>
    rw [owed_held ho]
    cases hi : s.pc i with
    | addBoth t' r => exact absurd ⟨i, by rw [hi]; rfl, (h.topics i).2 (by rw [hi]; rfl), ho⟩ hboth
    | _ => rfl

/-- While a `fetch` holds its entry, no `add` holds both locks. -/
theorem not_addHoldsBoth {ro : RecordOffset} (h : Inv s) (hi : s.pc i = .fetchOffsets t (some ro)) :
    ¬ AddHoldsBoth s := by
  rintro ⟨j, hadd, -, ho⟩
  have hheld := (h.offsets i).2 (by rw [hi]; rfl)
  rw [ho, Option.some.injEq] at hheld
  subst hheld
  rw [hi] at hadd
  cases hadd

theorem indexed_start (calls : ι → Call σ ρ) : Indexed (start new calls) where
  locks := inv_start new calls
  index t := rfl
  found i t ro h := by cases h

variable [DecidableEq ι]

theorem owed_taken (ho : s'.offsets = some i) (hpc : s'.pc = Function.update s.pc i p) (t : String) :
    owed s' t = unpushed t p := by
  rw [owed_held ho, hpc, Function.update_self]

/-- What is owed does not change when a call moves that owes nothing. -/
theorem owed_update (ho : s'.offsets = s.offsets) (hpc : s'.pc = Function.update s.pc i p)
    (hi : unpushed t (s.pc i) = []) (hp : unpushed t p = []) : owed s' t = owed s t := by
  cases hlock : s.offsets with
  | none => rw [owed_free (ho.trans hlock), owed_free hlock]
  | some j =>
    rw [owed_held (ho.trans hlock), owed_held hlock, hpc]
    by_cases hji : j = i
    · subst hji
      rw [Function.update_self, hi, hp]
    · rw [Function.update_of_ne hji]

/-- A step that touches neither the queues nor what is owed. -/
theorem Indexed.keep (h : Indexed s) (hs : step ipc s i = some s') (hpc : s'.pc = Function.update s.pc i p)
    (howed : ∀ t, owed s' t = owed s t) (hq : ∀ t, s'.log.queue t = s.log.queue t)
    (hoq : ∀ t, s'.log.offset_queue t = s.log.offset_queue t)
    (hp : ∀ t ro, p = .fetchOffsets t (some ro) → ∃ o, getOffset (s.log.offset_queue t) o = some ro) :
    Indexed s' where
  locks := inv_step h.locks hs
  index t := by rw [hoq, hq, howed, h.index]
  found j t ro hj := by
    rw [hoq]
    rw [hpc] at hj
    rcases moved hj with ⟨-, hpi⟩ | hj
    · exact hp t ro hpi
    · exact h.found j t ro hj

/-- `add` pushes the offsets, and owes the record. -/
theorem indexed_push_offsets {r : StoredRecord σ ρ} (h : Indexed s) (hs : step ipc s i = some s')
    (hfree : s.offsets = none) (ho : s'.offsets = some i) (hlog : s'.log = s.log.push_offsets t r)
    (hpc : s'.pc = Function.update s.pc i (.addBoth t r)) : Indexed s' where
  locks := inv_step h.locks hs
  index t' := by
    have hindex := h.index t'
    rw [owed_free hfree, List.append_nil] at hindex
    rw [hlog, offset_queue_push_offsets, queue_push_offsets, owed_taken ho hpc, unpushed]
    by_cases ht : t' = t
    · subst ht
      rw [if_pos rfl, if_pos rfl, hindex, offsetIndex_snoc]
    · rw [if_neg ht, if_neg ht, hindex, List.append_nil]
  found j t' ro hj := by
    -- nobody had an entry, for `offsets` was free
    rw [hpc] at hj
    rcases moved hj with ⟨-, hp⟩ | hj
    · cases hp
    · have hheld := (h.locks.offsets j).2 (by rw [hj]; rfl)
      rw [hfree] at hheld
      cases hheld

/-- `add` pushes the record it owes. -/
theorem indexed_push_record {r : StoredRecord σ ρ} (h : Indexed s) (hs : step ipc s i = some s')
    (hi : s.pc i = .addBoth t r) (ho : s'.offsets = none) (hlog : s'.log = s.log.push_record t r)
    (hpc : s'.pc = Function.update s.pc i .addDropped) : Indexed s' where
  locks := inv_step h.locks hs
  index t' := by
    have hindex := h.index t'
    rw [owed_held ((h.locks.offsets i).2 (by rw [hi]; rfl)), hi, unpushed] at hindex
    rw [owed_free ho, List.append_nil, hlog, queue_push_record]
    refine hindex.trans ?_
    by_cases ht : t' = t
    · subst ht
      rw [if_pos rfl, if_pos rfl]
    · rw [if_neg ht, if_neg ht, List.append_nil]
  found j t' ro hj := by
    rw [hlog]
    rw [hpc] at hj
    rcases moved hj with ⟨-, hp⟩ | hj
    · cases hp
    · exact h.found j t' ro hj

theorem indexed_step (h : Indexed s) (hs : step ipc s i = some s') : Indexed s' := by
  cases step_move hs with
  | take_topics hi =>
    refine h.keep hs rfl (fun t => owed_update rfl rfl ?_ rfl) (fun _ => lookup_insert_self _ _ _) (fun _ => rfl) nofun
    rw [hi]; rfl
  | push_offsets hi hfree => exact indexed_push_offsets h hs hfree rfl rfl rfl
  | push_record hi => exact indexed_push_record h hs hi rfl rfl rfl
  | added hi =>
    refine h.keep hs rfl (fun t => owed_update rfl rfl ?_ rfl) (fun _ => rfl) (fun _ => rfl) nofun
    rw [hi]; rfl
  | look_up hi hfree =>
    refine h.keep hs rfl (fun t => ?_) (fun _ => rfl) (fun _ => lookup_insert_self _ _ _) fun t ro hp => ?_
    · rw [owed_free hfree, owed_taken rfl rfl]; rfl
    · simp only [Pc.fetchOffsets.injEq] at hp
      obtain ⟨rfl, hget⟩ := hp
      exact ⟨_, hget⟩
  | not_found hi =>
    have hheld := (h.locks.offsets i).2 (by rw [hi]; rfl)
    refine h.keep hs rfl (fun t => ?_) (fun _ => rfl) (fun _ => rfl) nofun
    rw [owed_free rfl, owed_held hheld, hi]; rfl
  | read hi =>
    refine h.keep hs rfl (fun t => owed_update rfl rfl ?_ rfl) (fun _ => lookup_insert_self _ _ _) (fun _ => rfl) nofun
    rw [hi]; rfl
  | drop_topics hi =>
    refine h.keep hs rfl (fun t => owed_update rfl rfl ?_ rfl) (fun _ => rfl) (fun _ => rfl) nofun
    rw [hi]; rfl
  | fetched hi =>
    have hheld := (h.locks.offsets i).2 (by rw [hi]; rfl)
    refine h.keep hs rfl (fun t => ?_) (fun _ => rfl) (fun _ => rfl) nofun
    rw [owed_free rfl, owed_held hheld, hi]; rfl

theorem indexed_reachable {calls : ι → Call σ ρ} (hs : Reachable (step ipc) (start new calls) s) : Indexed s := by
  obtain ⟨tr, hr⟩ := hs
  exact hr.inv Indexed (indexed_start calls) fun _ _ _ => indexed_step

/-- For any calls and any interleaving: while no `add` holds both locks, the index
of every topic is the one of its queue, and what a `fetch` does with the entry it
found is in bounds. -/
theorem index_flattens (ipc : ArrowIpc σ ρ) (calls : ι → Call σ ρ) (s : State ι σ ρ)
    (hs : Reachable (step ipc) (start new calls) s) :
    (¬ AddHoldsBoth s → ∀ t, s.log.offset_queue t = offsetIndex (s.log.queue t)) ∧
    ∀ i t ro, s.pc i = .fetchOffsets t (some ro) → InBounds (s.log.queue t) ro := by
  have h := indexed_reachable hs
  have hindex : ¬ AddHoldsBoth s → ∀ t, s.log.offset_queue t = offsetIndex (s.log.queue t) := by
    intro hboth t
    rw [h.index, owed_eq_nil h.locks hboth, List.append_nil]
  refine ⟨hindex, fun i t ro hi => ?_⟩
  obtain ⟨o, hget⟩ := h.found i t ro hi
  rw [hindex (not_addHoldsBoth h.locks hi)] at hget
  exact inBounds_of_index hget

/-- A batch without rows, a raw record and a batch, and a fetch that comes while
the last `add` still holds `topics`. -/
def mixed : Fin 4 → Call UInt8 UInt8
  | 0 => .add "t" (.Batch ⟨0, []⟩)
  | 1 => .add "t" (.Raw [7])
  | 2 => .add "t" (.Batch ⟨0, [5]⟩)
  | 3 => .fetch "t" 0

/-- The entry is the one of the raw record, and the first batch is behind it. -/
theorem index_flattens_mixed :
    ∃ s : State (Fin 4) UInt8 UInt8, Reachable (step pocketIpc) (start new mixed) s ∧
      s.pc 3 = .fetchOffsets "t" (some ⟨1, 0⟩) ∧ s.log.offset_queue "t" = [⟨1, 0⟩, ⟨2, 0⟩] ∧
      (¬ AddHoldsBoth s → ∀ t, s.log.offset_queue t = offsetIndex (s.log.queue t)) ∧
      ∀ i t ro, s.pc i = .fetchOffsets t (some ro) → InBounds (s.log.queue t) ro := by
  have hs : Reachable (step pocketIpc) (start new mixed) _ :=
    reachable_exec (show exec _ _ [0, 0, 0, 0, 1, 1, 1, 1, 2, 2, 2, 3] = some _ from rfl)
  exact ⟨_, hs, rfl, rfl, index_flattens pocketIpc mixed _ hs⟩

end herbert.Slices
