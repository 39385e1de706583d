import Herbert.Faults
import Herbert.Recovery
/-!
# Calls that fail

`WriteAheadLog::flush` drains the buffer into the backend record by record and
drops the rest with the `Drain` when the backend fails. `TopicManager::add` logs
the record and then flushes, so it can fail with the record in the log.

A flush that fails has lost nothing exactly if the file failed, before the
drain (`flush_keeps_iff`). An `add` that fails has no effect exactly if it
failed before anything was written, not even bytes that were pending
(`failed_add_iff`).
-/
open Lib Lib.Faulty Lib.Runs herbert.WriteAheadLog herbert.TopicManager herbert.Recovery

namespace herbert.Faults

variable {σ ρ β : Type}

/-! ## Flushes -/

section
variable [RecordStorage β σ ρ]

/-- The backend takes the records, one after the other. -/
def Takes : β → History σ ρ → Prop
  | _, [] => True
  | backend, (topic, record) :: rest =>
    (RecordStorage.add backend topic record).1 = .ok () ∧ Takes (RecordStorage.add backend topic record).2 rest

/-- `records` lists what a backend was given and took: a call that fails leaves
it alone. -/
structure Lists (records : β → History σ ρ) : Prop where
  ok : ∀ backend topic record, (RecordStorage.add backend topic record).1 = .ok () →
    records (RecordStorage.add backend topic record).2 = records backend ++ [(topic, record)]
  error : ∀ backend topic record e, (RecordStorage.add backend topic record).1 = .error e →
    records (RecordStorage.add backend topic record).2 = records backend

variable {records : β → History σ ρ}

/-- A drain hands over all records, or fails at one of them. -/
theorem drain_cases (hl : Lists records) (backend : β) (rs : History σ ρ) :
    (Takes backend rs ∧ (drain backend rs).1 = .ok () ∧ records (drain backend rs).2 = records backend ++ rs) ∨
    (¬ Takes backend rs ∧ ∃ e k, (drain backend rs).1 = .error e ∧ k < rs.length ∧
      records (drain backend rs).2 = records backend ++ rs.take k) := by
  induction rs generalizing backend with
  | nil => exact .inl ⟨trivial, rfl, by simp [drain]⟩
  | cons r rs ih =>
    obtain ⟨t, r⟩ := r
    cases hadd : RecordStorage.add backend t r with
    | mk result backend' =>
      cases result with
      | error e =>
        have hrec := hl.error backend t r e (by rw [hadd])
        rw [hadd] at hrec
        right
        refine ⟨fun h => ?_, e, 0, by simp [drain, hadd], by simp, by simp [drain, hadd, hrec]⟩
        have := h.1
        rw [hadd] at this
        cases this
      | ok u =>
        have hrec := hl.ok backend t r (by rw [hadd])
        rw [hadd] at hrec
        rcases ih backend' with ⟨htakes, hok, hall⟩ | ⟨htakes, e, k, herr, hk, hsome⟩
        · left
          refine ⟨⟨by rw [hadd], by rw [hadd]; exact htakes⟩, by simp [drain, hadd, hok], ?_⟩
          simp [drain, hadd, hall, hrec]
        · right
          refine ⟨fun h => ?_, e, k + 1, by simp [drain, hadd, herr], by simp [hk], ?_⟩
          · have := h.2
            rw [hadd] at this
            exact htakes this
          · simp [drain, hadd, hsome, hrec]

/-- After a flush that fails, what was in the buffer is in the backend or still
in the buffer; so once file and backend work, another flush delivers it. -/
def KeepsOnError (records : β → History σ ρ) (wal : WriteAheadLog σ ρ) (backend : β) : Prop :=
  (wal.flush backend).1 ≠ .ok () →
    records (wal.flush backend).2.2 ++ (wal.flush backend).2.1.buffer = records backend ++ wal.buffer ∧
    ∀ (file : Faulty.BufWriter IoError UInt8) (backend' : β), file.flush.1 = .ok () →
      records backend' = records (wal.flush backend).2.2 → Takes backend' (wal.flush backend).2.1.buffer →
      let again := WriteAheadLog.flush { (wal.flush backend).2.1 with file } backend'
      again.1 = .ok () ∧ records again.2.2 = records backend ++ wal.buffer ∧ again.2.1.buffer = []

/-- A flush that fails loses nothing if and only if the file failed, or the
backend takes every record and the flush does not fail at all. -/
theorem flush_keeps_iff (hl : Lists records) (wal : WriteAheadLog σ ρ) (backend : β) :
    KeepsOnError records wal backend ↔ wal.file.flush.1 ≠ .ok () ∨ Takes backend wal.buffer := by
  cases hfile : wal.file.flush with
  | mk result file =>
    cases result with
    | error e =>
      rw [KeepsOnError, WriteAheadLog.flush_unwritten hfile]
      refine iff_of_true (fun _ => ⟨rfl, ?_⟩) (.inl (by simp))
      intro file' backend' hworks hrec htakes
      have hflush : file'.flush = (.ok (), file'.flush.2) := Prod.ext hworks rfl
      rcases drain_cases hl backend' wal.buffer with ⟨-, hok, hall⟩ | ⟨hno, -⟩
      · have hagain : WriteAheadLog.flush { wal with file := file' } backend' = _ :=
          WriteAheadLog.flush_written hflush backend'
        simp only [hagain]
        exact ⟨hok, by rw [hall, hrec], trivial⟩
      · exact absurd htakes hno
    | ok u =>
      rw [KeepsOnError, WriteAheadLog.flush_written hfile]
      rcases drain_cases hl backend wal.buffer with ⟨htakes, hok, -⟩ | ⟨hno, e, k, herr, hk, hsome⟩
      · exact iff_of_true (fun h => absurd hok h) (.inr htakes)
      · refine iff_of_false (fun h => ?_) (by simp [hno])
        -- the failed record and those behind it are gone
        have hlen := congrArg List.length (h (by simp [herr])).1
        rw [hsome] at hlen
        simp only [List.length_append, List.length_take, List.length_nil] at hlen
        omega

end

/-! ### A backend that fails when told to -/

structure Flaky (σ ρ : Type) where
  log : InMemoryLog σ ρ
  /-- What the log was given, over all topics. -/
  records : History σ ρ
  /-- Whether the next calls of `add` succeed. All later ones do. -/
  answers : List Bool

instance : RecordStorage (Flaky σ ρ) σ ρ where
  add backend topic record :=
    match backend.answers with
    | false :: answers => (.error .PoisonError, { backend with answers })
    | answers => (.ok (), ⟨backend.log.add topic record, backend.records ++ [(topic, record)], answers.tail⟩)
  fetch ipc backend topic fetch_offset :=
    let (result, log) := backend.log.fetch ipc topic fetch_offset
    (result, { backend with log })

theorem lists_flaky : Lists (Flaky.records : Flaky σ ρ → History σ ρ) where
  ok backend topic record h := by
    obtain ⟨log, records, answers⟩ := backend
    match answers with
    | false :: _ => cases h
    | true :: _ | [] => rfl
  error backend topic record e h := by
    obtain ⟨log, records, answers⟩ := backend
    match answers with
    | false :: _ => rfl
    | true :: _ | [] => cases h

/-- A log with three records in its buffer. -/
def three (answers : List (Answer IoError)) : WriteAheadLog UInt8 UInt8 :=
  let wal := (WriteAheadLog.new ⟨3⟩ [] answers).add pocketIpc "t" (.Raw [1])
  let wal := wal.2.add pocketIpc "u" (.Batch ⟨7, [2]⟩)
  (wal.2.add pocketIpc "t" (.Raw [3])).2

/-- The disk is full, so nothing is drained, and the next flush delivers all. -/
theorem flush_keeps_iff_full :
    ((three [.took 4, .failed (.Other "disk full")]).flush (⟨.new, [], []⟩ : Flaky UInt8 UInt8)).1 ≠ .ok () ∧
      KeepsOnError Flaky.records (three [.took 4, .failed (.Other "disk full")]) ⟨.new, [], []⟩ :=
  ⟨by decide, (flush_keeps_iff lists_flaky _ _).2 (.inl (by decide))⟩

/-- The backend fails at the second record of three, and the second and the
third are in neither place. -/
theorem drained_and_dropped : ¬ KeepsOnError Flaky.records (three []) ⟨.new, [], [true, false]⟩ := by
  intro h
  exact absurd (h (by decide)).1 (by decide)

/-! ## Adds -/

section
variable [DecidableEq σ] (ipc : ArrowIpc σ ρ)

/-- What may happen once the file works again. A process that ends has the
pending bytes written; one that is killed loses them. -/
inductive Later (σ : Type) where
  | create (topic : String) (schema : Option σ)
  | add (topic : String) (record : Bytes)
  | fetch (topic : String) (fetch_offset : Int)
  | restart (config : Config)
  | kill (config : Config)

/-- A process that starts on the file. `run` panics if `recover` fails. -/
def started (config : Config) (file : Bytes) : Option (herbert.TopicManager σ ρ (InMemoryLog σ ρ)) :=
  match Recovery.restart ipc config file with
  | (.ok (), tm) => some tm
  | (.error _, _) => none

def Later.apply (tm : herbert.TopicManager σ ρ (InMemoryLog σ ρ)) :
    Later σ → Option (herbert.TopicManager σ ρ (InMemoryLog σ ρ))
  | .create topic schema => some (tm.create topic schema).2
  | .add topic record => some (tm.add ipc topic record).2
  | .fetch topic fetch_offset => some (tm.fetch ipc topic fetch_offset).2
  | .restart config => started ipc config tm.wal.file.contents
  | .kill config => started ipc config tm.wal.file.inner

/-- The manager after the operations, if every process came up. -/
def runLater (tm : herbert.TopicManager σ ρ (InMemoryLog σ ρ)) (later : List (Later σ)) :
    Option (herbert.TopicManager σ ρ (InMemoryLog σ ρ)) := exec (Later.apply ipc) tm later

theorem runLater_kill (tm : herbert.TopicManager σ ρ (InMemoryLog σ ρ)) (config : Config) :
    runLater ipc tm [.kill config] = started ipc config tm.wal.file.inner := by
  simp [runLater, exec, Later.apply]

/-- The topics have the same logs, or there is no process on either side. -/
def SameLogs : Option (herbert.TopicManager σ ρ (InMemoryLog σ ρ)) → Option (herbert.TopicManager σ ρ (InMemoryLog σ ρ)) →
    Prop
  | some tm, some tm' =>
    ∀ t, tm.backend.queue t = tm'.backend.queue t ∧ tm.backend.offset_queue t = tm'.backend.offset_queue t
  | none, none => True
  | _, _ => False

omit [DecidableEq σ] in
theorem SameLogs.refl (tm : Option (herbert.TopicManager σ ρ (InMemoryLog σ ρ))) : SameLogs tm tm := by
  cases tm with
  | none => trivial
  | some tm => exact fun t => ⟨rfl, rfl⟩

/-- The managers differ in what is pending at most. -/
structure Same (tm tm' : herbert.TopicManager σ ρ (InMemoryLog σ ρ)) : Prop where
  backend : tm.backend = tm'.backend
  topic_metadatas : tm.topic_metadatas = tm'.topic_metadatas
  buffer : tm.wal.buffer = tm'.wal.buffer
  config : tm.wal.config = tm'.wal.config
  contents : tm.wal.file.contents = tm'.wal.file.contents

variable {ipc} {tm tm' : herbert.TopicManager σ ρ (InMemoryLog σ ρ)}

theorem Same.add (h : Same tm tm') (t : String) (record : Bytes) :
    Same (tm.add ipc t record).2 (tm'.add ipc t record).2 := by
  have hneed : ∀ e, (tm.wal.logged ipc e).need_to_flush = (tm'.wal.logged ipc e).need_to_flush := fun e => by
    simp [need_to_flush, logged, h.buffer, h.config]
  cases hr : stored_record ipc tm.topic_metadatas t record with
  | error e =>
    rw [add_error tm hr, add_error tm' (h.topic_metadatas ▸ hr)]
    exact h
  | ok r =>
    cases hs : serialize ipc t r with
    | error e =>
      rw [add_unserialized tm hr hs, add_unserialized tm' (h.topic_metadatas ▸ hr) hs]
      exact h
    | ok w =>
      have hw := writable_of_serialize ipc hs
      rw [add_log tm hr hw, add_log tm' (h.topic_metadatas ▸ hr) hw, hneed (t, r)]
      dsimp only
      split
      · exact ⟨by rw [h.backend, h.buffer], h.topic_metadatas, rfl, h.config, by simp [flushed, logged, h.contents]⟩
      · exact ⟨h.backend, h.topic_metadatas, by simp [logged, h.buffer], h.config, by simp [logged, h.contents]⟩

/-- The managers stay the same as long as no process is killed. -/
theorem Same.apply (h : Same tm tm') {op : Later σ} (hop : ∀ config, op ≠ .kill config) :
    op.apply ipc tm = op.apply ipc tm' ∨ ∃ next next', op.apply ipc tm = some next ∧ op.apply ipc tm' = some next' ∧
      Same next next' := by
  cases op with
  | create t s =>
    have hexists : tm.topic_exists t = tm'.topic_exists t := by rw [topic_exists, topic_exists, h.topic_metadatas]
    refine .inr ⟨_, _, rfl, rfl, ?_⟩
    simp only [create, hexists]
    split
    · exact h
    · exact ⟨h.backend, by rw [h.topic_metadatas], h.buffer, h.config, h.contents⟩
  | add t record => exact .inr ⟨_, _, rfl, rfl, h.add t record⟩
  | fetch t o =>
    refine .inr ⟨_, _, rfl, rfl, ?_⟩
    exact ⟨by simp only [TopicManager.fetch, h.backend], h.topic_metadatas, h.buffer, h.config, h.contents⟩
  | restart config => exact .inl (by simp only [Later.apply, h.contents])
  | kill config => exact absurd rfl (hop config)

theorem Same.run (h : Same tm tm') {later : List (Later σ)} (hl : ∀ op ∈ later, ∀ config, op ≠ .kill config) :
    SameLogs (runLater ipc tm later) (runLater ipc tm' later) := by
  induction later generalizing tm tm' with
  | nil => exact fun t => by rw [h.backend]; exact ⟨rfl, rfl⟩
  | cons op later ih =>
    rw [runLater, runLater, exec, exec]
    have hop : op.apply ipc tm = op.apply ipc tm' ∨ _ := h.apply (hl op List.mem_cons_self)
    rcases hop with heq | ⟨next, next', hn, hn', hsame⟩
    · rw [heq]
      exact SameLogs.refl _
    · rw [hn, hn', Option.bind_some, Option.bind_some]
      exact ih hsame fun op hop => hl op (List.mem_cons_of_mem _ hop)

end

section
variable [DecidableEq σ] (ipc : ArrowIpc σ ρ)

/-- The record is accepted and the `BufWriter` takes its frame. -/
def Taken (tm : TopicManager σ ρ (InMemoryLog σ ρ)) (t : String) (record : Bytes) : Prop :=
  ∃ r w n, stored_record ipc tm.topic_metadatas t record = .ok r ∧ serialize ipc t r = .ok w ∧
    (tm.wal.file.write w).1 = .ok n

/-- The record is refused, or the write of its frame fails before anything is
written. -/
def FailsAtOnce (tm : TopicManager σ ρ (InMemoryLog σ ρ)) (t : String) (record : Bytes) : Prop :=
  ∀ r w, stored_record ipc tm.topic_metadatas t record = .ok r → serialize ipc t r = .ok w → tm.wal.file.FailsAtOnce w

/-- The file holds whole frames, and so does what is pending. -/
def WholeFrames (tm : TopicManager σ ρ (InMemoryLog σ ρ)) : Prop :=
  ∃ es ps : History σ ρ, tm.wal.file.inner.bytes = es.flatMap (frame ipc) ∧ tm.wal.file.buf = ps.flatMap (frame ipc) ∧
    ∀ e ∈ es ++ ps, Clean ipc e

variable {ipc} {tm tm' : TopicManager σ ρ (InMemoryLog σ ρ)} {t : String} {record : Bytes} {e : HerbertError}

/-- What an `add` that fails leaves behind: some pending bytes are written, or
the record is logged and waits in the buffer for the next flush. -/
theorem failed_add (h : tm.add ipc t record = (.error e, tm')) :
    (∃ k file, tm.wal.file.Moved k file ∧ tm' = { tm with wal := { tm.wal with file } } ∧
      ∀ r w, stored_record ipc tm.topic_metadatas t record = .ok r → serialize ipc t r = .ok w →
        ∃ e, tm.wal.file.write w = (.error e, file)) ∨
    ∃ r w n file, stored_record ipc tm.topic_metadatas t record = .ok r ∧ serialize ipc t r = .ok w ∧
      (tm.wal.file.write w).1 = .ok n ∧ tm.wal.config.num_uncommitted_messages ≤ tm.wal.buffer.length + 1 ∧
      tm' = { tm with wal := { tm.wal with file, buffer := tm.wal.buffer ++ [(t, r)] } } := by
  rcases TopicManager.add_cases ipc tm t record with
    ⟨e', hadd, hno⟩ | ⟨r, w, hr, hs, ⟨e', file, hw, hadd⟩ | ⟨n, file, hw, hadd⟩⟩
  · cases hadd.symm.trans h
    exact .inl ⟨0, tm.wal.file, BufWriter.moved_refl _, rfl, fun r w hr hs => absurd hs (hno r w hr)⟩
  · cases hadd.symm.trans h
    obtain ⟨k, hk⟩ := BufWriter.write_error hw
    refine .inl ⟨k, file, hk, rfl, fun r' w' hr' hs' => ?_⟩
    cases hr.symm.trans hr'
    cases hs.symm.trans hs'
    exact ⟨e', hw⟩
  · dsimp only at hadd
    rw [h] at hadd
    split at hadd
    · rename_i hneed
      cases hf : file.flush with
      | mk result file' =>
        cases result with
        | error err =>
          simp only [WriteAheadLog.flush, hf, Prod.mk.injEq] at hadd
          exact .inr ⟨r, w, n, file', hr, hs, by rw [hw], hneed, hadd.2⟩
        | ok u =>
          -- the in-memory log takes all that is drained
          simp only [WriteAheadLog.flush, hf, drain_log, Prod.mk.injEq] at hadd
          cases hadd.1
    · cases hadd

omit [DecidableEq σ] in
/-- Pending bytes make no difference that a process could see before it is killed. -/
theorem same_moved {k : Nat} {file : Faulty.BufWriter IoError UInt8} (h : tm.wal.file.Moved k file) :
    Same (TopicManager.settled { tm with wal := { tm.wal with file } }) tm.settled :=
  ⟨rfl, rfl, rfl, rfl, h.contents⟩

/-- A retry of a failed call whose record is in the buffer makes it two. -/
theorem retried {file : Faulty.BufWriter IoError UInt8} {r : StoredRecord σ ρ} {w : Bytes}
    (hr : stored_record ipc tm.topic_metadatas t record = .ok r) (hs : serialize ipc t r = .ok w)
    (hneed : tm.wal.config.num_uncommitted_messages ≤ tm.wal.buffer.length + 1)
    (htm : tm' = { tm with wal := { tm.wal with file, buffer := tm.wal.buffer ++ [(t, r)] } }) :
    (tm'.settled.add ipc t record).2.backend.queue t = (tm.settled.add ipc t record).2.backend.queue t ++ [r] := by
  have hw := writable_of_serialize ipc hs
  have hneed' : tm'.settled.wal.config.num_uncommitted_messages ≤ tm'.settled.wal.buffer.length + 1 := by
    simp only [htm, TopicManager.settled, WriteAheadLog.settled, List.length_append, List.length_singleton]
    omega
  have hr' : stored_record ipc tm'.settled.topic_metadatas t record = .ok r := by rw [htm]; exact hr
  rw [queue_add_full tm.settled hr hw hneed, queue_add_full tm'.settled hr' hw hneed', htm]
  simp [TopicManager.settled, WriteAheadLog.settled, History.ofTopic_singleton]

/-- As long as no process is killed, a failed `add` has no effect if and only if
its frame was not taken. -/
theorem failed_add_orderly (h : tm.add ipc t record = (.error e, tm')) :
    (∀ later : List (Later σ), (∀ op ∈ later, ∀ config, op ≠ .kill config) →
      SameLogs (runLater ipc tm'.settled later) (runLater ipc tm.settled later)) ↔ ¬ Taken ipc tm t record := by
  rcases failed_add h with ⟨k, file, hk, rfl, herr⟩ | ⟨r, w, n, file, hr, hs, hn, hneed, htm⟩
  · refine iff_of_true (fun later hl => (same_moved hk).run hl) ?_
    rintro ⟨r, w, n, hr, hs, hn⟩
    obtain ⟨e', he'⟩ := herr r w hr hs
    rw [he'] at hn
    cases hn
  · refine iff_of_false (fun hsame => ?_) (not_not_intro ⟨r, w, n, hr, hs, hn⟩)
    have hlogs := (hsame [.add t record] (by simp) t).1
    have hlen := congrArg List.length ((retried hr hs hneed htm).symm.trans hlogs)
    simp at hlen

/-- An `add` that fails at once leaves the bytes as they are, in the file and
pending. -/
theorem failed_at_once (h : tm.add ipc t record = (.error e, tm')) (hat : FailsAtOnce ipc tm t record) :
    tm'.settled = tm.settled := by
  rcases TopicManager.add_cases ipc tm t record with
    ⟨e', hadd, -⟩ | ⟨r, w, hr, hs, ⟨e', file, hw, hadd⟩ | ⟨n, file, hw, hadd⟩⟩
  · cases hadd.symm.trans h
    rfl
  · cases hadd.symm.trans h
    obtain ⟨e'', answers, hw'⟩ := (hat r w hr hs).write
    cases hw.symm.trans hw'
    rfl
  · obtain ⟨e'', answers, hw'⟩ := (hat r w hr hs).write
    cases hw.symm.trans hw'

omit [DecidableEq σ] in
/-- Pending bytes that were written come back after a kill, or keep the next
process from coming up. -/
theorem killed_moved {k : Nat} {file : Faulty.BufWriter IoError UInt8} (hwhole : WholeFrames ipc tm)
    (hk : tm.wal.file.Moved k file) (hne : file.inner.bytes ≠ tm.wal.file.inner.bytes) (config : Config) :
    ¬ SameLogs (started ipc config file.inner.bytes) (started ipc config tm.wal.file.inner.bytes) := by
  obtain ⟨es, ps, hinner, hbuf, hclean⟩ := hwhole
  obtain ⟨torn, hcut, htorn⟩ := Reader.take_eq_whole (frame ipc) ps k
  have hqs : ∀ e ∈ es ++ Reader.whole (frame ipc) ps k, Clean ipc e := fun e he =>
    hclean e (((List.prefix_append_right_inj es).2 (Reader.whole_isPrefix ps k)).subset he)
  have hfile : file.inner.bytes = (es ++ Reader.whole (frame ipc) ps k).flatMap (frame ipc) ++ torn := by
    rw [hk.1, hbuf, hcut, hinner, List.flatMap_append, List.append_assoc]
  obtain ⟨hok, hholds⟩ := restart_frames config fun e he => hclean e (List.mem_append_left _ he)
  have hbefore : started ipc config tm.wal.file.inner.bytes = some (restart ipc config (es.flatMap (frame ipc))).2 := by
    rw [started, hinner, show restart ipc config _ = (.ok (), (restart ipc config _).2) from Prod.ext hok rfl]
  rw [hbefore, hfile]
  by_cases hnil : torn = []
  · -- whole frames were written, and their records are read back
    subst hnil
    obtain ⟨hok', hholds'⟩ := restart_frames config hqs
    rw [List.append_nil, started, show restart ipc config _ = (.ok (), (restart ipc config _).2) from Prod.ext hok' rfl]
    intro hsame
    have hnone : Reader.whole (frame ipc) ps k = [] := History.eq_nil_of_ofTopic fun t => by
      have hqueue := (hsame t).1
      rw [hholds.queue, hholds'.queue, History.ofTopic_append] at hqueue
      exact List.append_right_eq_self.1 hqueue
    rw [hnone, List.append_nil, List.append_nil] at hfile
    exact hne (hfile.trans hinner.symm)
  · obtain ⟨c, hc, hprefix, hproper⟩ := htorn.resolve_left hnil
    obtain ⟨e, he⟩ := frames_refuses c torn (hclean c (List.mem_append_right _ hc)) hprefix hnil hproper
    have herr : (restart ipc config ((es ++ Reader.whole (frame ipc) ps k).flatMap (frame ipc) ++ torn)).1 = .error e := by
      rw [restart_fst, readAll_frames hqs, Reader.readAll_error (frames ipc) hnil he]
    rw [started, show restart ipc config _ = (.error e, (restart ipc config _).2) from Prod.ext herr rfl]
    exact id

/-- A failed `add` has no effect on any later log, whatever is killed, if it failed
before anything was written; and if the file held whole frames then only if it
did. If no process is killed, it has no effect if and only if its frame was not
taken. -/
theorem failed_add_iff (h : tm.add ipc t record = (.error e, tm')) :
    (FailsAtOnce ipc tm t record → ∀ later : List (Later σ),
      SameLogs (runLater ipc tm'.settled later) (runLater ipc tm.settled later)) ∧
    (WholeFrames ipc tm → (∀ later : List (Later σ),
      SameLogs (runLater ipc tm'.settled later) (runLater ipc tm.settled later)) → FailsAtOnce ipc tm t record) ∧
    ((∀ later : List (Later σ), (∀ op ∈ later, ∀ config, op ≠ .kill config) →
      SameLogs (runLater ipc tm'.settled later) (runLater ipc tm.settled later)) ↔ ¬ Taken ipc tm t record) := by
  refine ⟨fun hat later => ?_, fun hwhole hsame => ?_, failed_add_orderly h⟩
  · rw [failed_at_once h hat]
    exact SameLogs.refl _
  have hno := (failed_add_orderly h).1 fun later _ => hsame later
  rcases failed_add h with ⟨k, file, hk, rfl, herr⟩ | ⟨r, w, n, file, hr, hs, hn, -⟩
  · have hkill := hsame [.kill ⟨1⟩]
    have hunmoved : file.inner.bytes = tm.wal.file.inner.bytes := by
      by_contra hne
      rw [runLater_kill, runLater_kill] at hkill
      exact killed_moved hwhole hk hne ⟨1⟩ hkill
    intro r w hr hs
    obtain ⟨e', he'⟩ := herr r w hr hs
    exact BufWriter.failsAtOnce_of_unmoved (e := e') (by rw [he']) (by rw [he']; exact hunmoved)
  · exact absurd ⟨r, w, n, hr, hs, hn⟩ hno

end

/-- A manager without topics, on an empty file. -/
def fresh (answers : List (Answer IoError)) : TopicManager UInt8 UInt8 (InMemoryLog UInt8 UInt8) :=
  ⟨.new, ∅, .new ⟨1⟩ [] answers⟩

/-- A record too large to be buffered, on a full disk. -/
theorem failed_add_iff_large :
    let later : List (Later UInt8) := [.add "t" [5], .kill ⟨1⟩, .add "t" [6], .restart ⟨1⟩]
    SameLogs (runLater pocketIpc ((fresh [.failed (.Other "disk full")]).add pocketIpc "t"
        (List.replicate 8192 7)).2.settled later)
      (runLater pocketIpc (fresh [.failed (.Other "disk full")]).settled later) := by
  intro later
  have hbs : (List.replicate 8192 (7 : UInt8)).length = 8192 := List.length_replicate
  generalize List.replicate 8192 (7 : UInt8) = bs at hbs ⊢
  have hlen : 8192 ≤ (frame pocketIpc ("t", .Raw bs)).length := by
    rw [length_frame, payload]
    omega
  have hfails : (fresh [.failed (.Other "disk full")]).wal.file.FailsAtOnce (frame pocketIpc ("t", .Raw bs)) :=
    ⟨.inr hlen, _, _, rfl⟩
  have hat : FailsAtOnce pocketIpc (fresh [.failed (.Other "disk full")]) "t" bs := by
    intro r w hr hs
    cases hr
    rw [serialize_ok pocketIpc hs]
    exact hfails
  obtain ⟨e, answers, hwrite⟩ := hfails.write
  have hadd : (fresh [.failed (.Other "disk full")]).add pocketIpc "t" bs = _ := TopicManager.add_unlogged rfl
    (WriteAheadLog.add_unwritten (serialize_writable pocketIpc (r := .Raw bs) trivial "t") hwrite)
  rw [hadd]
  exact (failed_add_iff hadd).1 hat later

/-- The frame is buffered and the flush fails, so `add` returns `Err`. The retry
makes the record two. -/
theorem added_twice :
    ((fresh [.failed (.Other "disk full")]).add pocketIpc "t" [5]).1 = .error (.Io (.Other "disk full")) ∧
      ¬ SameLogs (runLater pocketIpc ((fresh [.failed (.Other "disk full")]).add pocketIpc "t" [5]).2.settled
          [.add "t" [5]])
        (runLater pocketIpc (fresh [.failed (.Other "disk full")]).settled [.add "t" [5]]) := by
  refine ⟨by decide, fun h => ?_⟩
  exact absurd (h "t").1 (by decide)

end herbert.Faults
