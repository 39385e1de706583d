import Herbert.Recovery
import Herbert.Lib.Runs
/-!
# Kills between calls

One process after another works on the same WAL file. A kill loses what is still
in the `BufWriter`, the WAL buffer, the backend and the topics; the next process
starts with `recover`.

`accepted` lists the records a process is accountable for: those it read off the
file, then those it accepted. `Inv` says that they are what fetch sees followed
by the WAL buffer, and that the file holds the frames of a prefix that reaches
at least as far as fetch does.
-/
open Lib Lib.Bytes Lib.Runs herbert.WriteAheadLog herbert.Recovery

namespace herbert.Crash

variable {σ ρ : Type} (ipc : ArrowIpc σ ρ)

inductive Event (σ : Type) where
  | create (topic : String) (schema : Option σ)
  | add (topic : String) (record : Bytes)
  | kill (config : Config)

structure Process (σ ρ : Type) where
  tm : TopicManager σ ρ (InMemoryLog σ ρ)
  accepted : History σ ρ

/-- The first process, on an empty file. -/
def start (config : Config) : Process σ ρ := ⟨.new .new config [], []⟩

/-- What fetch sees, the WAL buffer and the file, in terms of `accepted`. -/
def Inv (p : Process σ ρ) : Prop :=
  ∃ visible k, p.accepted = visible ++ p.tm.wal.buffer ∧ Holds p.tm.backend visible ∧
    p.tm.wal.file.Holds (frame ipc) p.accepted k ∧ visible.length ≤ k ∧ ∀ e ∈ p.accepted, Clean ipc e

variable {ipc}

theorem inv_start (config : Config) : Inv ipc (start config : Process σ ρ) :=
  ⟨[], 0, rfl, holds_new, ⟨Nat.le_refl _, rfl, rfl⟩, Nat.le_refl _, by simp [start]⟩

/-- What the next process reads: the accepted records up to the last frame in
the file, which includes everything fetch sees. -/
theorem Inv.recovered {p : Process σ ρ} (h : Inv ipc p) :
    ∃ visible kept, p.accepted = visible ++ p.tm.wal.buffer ∧ kept <+: p.tm.wal.buffer ∧
      Holds p.tm.backend visible ∧ recovered ipc p.tm.wal.file.inner = visible ++ kept ∧
      p.tm.wal.file.inner = (visible ++ kept).flatMap (frame ipc) ∧ ∀ e ∈ visible ++ kept, Clean ipc e := by
  obtain ⟨visible, k, hacc, hvis, ⟨-, hinner, -⟩, hle, hclean⟩ := h
  have htake : p.accepted.take k = visible ++ p.tm.wal.buffer.take (k - visible.length) := by
    rw [hacc, List.take_append, List.take_of_length_le hle]
  rw [htake] at hinner
  have hc : ∀ e ∈ visible ++ p.tm.wal.buffer.take (k - visible.length), Clean ipc e := by
    intro e he
    rw [← htake] at he
    exact hclean e (List.mem_of_mem_take he)
  have hrec := recovered_frames hc []
  rw [List.append_nil, ← hinner] at hrec
  exact ⟨visible, _, hacc, List.take_prefix _ _, hvis, by simpa [Recovery.recovered, records] using hrec, hinner, hc⟩

theorem inv_restart (config : Config) {file : Bytes} {es : History σ ρ} (hrec : Recovery.recovered ipc file = es)
    (hfile : file = es.flatMap (frame ipc)) (hc : ∀ e ∈ es, Clean ipc e) :
    Inv ipc ⟨(restart ipc config file).2, Recovery.recovered ipc file⟩ := by
  have hwal := restart_wal ipc config file
  have hholds := holds_restart ipc config file
  rw [hrec] at hholds ⊢
  refine ⟨es, es.length, ?_, hholds, ⟨Nat.le_refl _, ?_, ?_⟩, Nat.le_refl _, hc⟩
  · simp [hwal, WriteAheadLog.new]
  · simp only [hwal, WriteAheadLog.new, List.take_length]
    exact hfile
  · simp [hwal, WriteAheadLog.new]

/-! ## Steps -/

section
variable [DecidableEq σ]

variable (ipc) in
/-- The records `add` accepted, with the result of the call. -/
def acceptedBy (tm : TopicManager σ ρ (InMemoryLog σ ρ)) (topic : String) (record : Bytes) : History σ ρ :=
  match (tm.add ipc topic record).1, TopicManager.stored_record ipc tm.topic_metadatas topic record with
  | .ok (), .ok r => [(topic, r)]
  | _, _ => []

variable (ipc) in
def step (p : Process σ ρ) : Event σ → Option (Process σ ρ)
  | .create topic schema => some { p with tm := (p.tm.create topic schema).2 }
  | .add topic record => some ⟨(p.tm.add ipc topic record).2, p.accepted ++ acceptedBy ipc p.tm topic record⟩
  | .kill config =>
    some ⟨(restart ipc config p.tm.wal.file.inner).2, recovered ipc p.tm.wal.file.inner⟩

variable (ipc) in
/-- What an `add` logs has no newline in its name and a payload below `2 ^ 32`
bytes. -/
def Admissible (p : Process σ ρ) : Event σ → Prop
  | .add topic record => ∀ r,
      TopicManager.stored_record ipc p.tm.topic_metadatas topic record = .ok r → Delimited ipc topic r
  | _ => True

theorem inv_step (hipc : ipc.Lawful) {p p' : Process σ ρ} {ev : Event σ} (h : Inv ipc p)
    (ha : Admissible ipc p ev) (hs : step ipc p ev = some p') : Inv ipc p' := by
  cases ev with
  | create t s =>
    cases hs
    obtain ⟨visible, k, hacc, hvis, hfile, hle, hclean⟩ := h
    refine ⟨visible, k, ?_, ?_, ?_, hle, hclean⟩
    · simpa [TopicManager.wal_create] using hacc
    · simpa [TopicManager.backend_create] using hvis
    · simpa [TopicManager.wal_create] using hfile
  | add t record =>
    cases hs
    cases hr : TopicManager.stored_record ipc p.tm.topic_metadatas t record with
    | error e =>
      have hnone : acceptedBy ipc p.tm t record = [] := by simp [acceptedBy, hr]
      rw [TopicManager.add_error p.tm hr, hnone, List.append_nil]
      exact h
    | ok r =>
      obtain ⟨visible, k, hacc, hvis, hfile, hle, hclean⟩ := h
      have hadd := TopicManager.add_log p.tm hr (writable_of_lawful hipc r)
      have hone : acceptedBy ipc p.tm t record = [(t, r)] := by simp [acceptedBy, hadd, hr]
      have hclean' : ∀ e ∈ p.accepted ++ [(t, r)], Clean ipc e := by
        simp only [List.mem_append, List.mem_singleton, or_imp, forall_and, forall_eq]
        exact ⟨hclean, (ha r hr).1, (ha r hr).2, readable_of_lawful hipc r⟩
      obtain ⟨k', hk', hfile'⟩ := hfile.write (t, r)
      rw [hone, hadd]
      dsimp only
      split
      · refine ⟨visible ++ (p.tm.wal.buffer ++ [(t, r)]), _, ?_, hvis.addAll _, hfile'.flush, ?_, hclean'⟩
        · simp [hacc, flushed]
        · simp [hacc]
      · refine ⟨visible, k', ?_, hvis, hfile', by omega, hclean'⟩
        simp [hacc, logged]
  | kill config =>
    cases hs
    obtain ⟨visible, kept, -, -, -, hrec, hinner, hc⟩ := h.recovered
    exact inv_restart config hrec hinner hc

theorem inv_run (hipc : ipc.Lawful) {config : Config} {tr p} (hr : Run (step ipc) (start config) tr p)
    (ha : Always (Admissible ipc) tr) : Inv ipc p :=
  hr.inv_while (Inv ipc) (inv_start config) (fun _ _ _ => inv_step hipc) ha

end

/-! ## Offsets -/

/-- The record an offset denotes, with the row. -/
def denotes (log : InMemoryLog σ ρ) (topic : String) (o : Int) : Option (StoredRecord σ ρ × Nat) :=
  (InMemoryLog.getOffset (log.offset_queue topic) (InMemoryLog.asUsize o)).bind fun ro =>
    (log.queue topic)[ro.batch_index]?.map (·, ro.row_offset)

theorem getElem?_of_isPrefix {α : Type} {l l' : List α} (h : l <+: l') {i : Nat} {x : α} (hi : l[i]? = some x) :
    l'[i]? = some x := by
  obtain ⟨tail, rfl⟩ := h
  rw [List.getElem?_append_left (List.getElem?_eq_some_iff.1 hi).1, hi]

/-- More records behind it leave an offset's meaning alone. -/
theorem denotes_append {log log' : InMemoryLog σ ρ} {h h' : History σ ρ} (hl : Holds log h)
    (hl' : Holds log' (h ++ h')) {t : String} {o : Int} {x : StoredRecord σ ρ × Nat}
    (hx : denotes log t o = some x) : denotes log' t o = some x := by
  have hp := History.ofTopic_isPrefix t (List.prefix_append h h')
  simp only [denotes, hl.queue, hl.index, hl'.queue, hl'.index, Option.bind_eq_some_iff, Option.map_eq_some_iff]
    at hx ⊢
  obtain ⟨ro, hro, r, hr, rfl⟩ := hx
  refine ⟨ro, ?_, r, getElem?_of_isPrefix hp hr, rfl⟩
  unfold InMemoryLog.getOffset at hro ⊢
  split at hro
  · rename_i hlt
    rw [if_pos hlt]
    exact getElem?_of_isPrefix (offsetIndex_isPrefix hp) hro
  · cases hro

/-- Recovery refines the live log. After any run with any number of kills,
`recover` succeeds; the new log holds what fetch saw before the kill, followed
by the first few of the records that were accepted and not yet visible; and an
offset that was valid denotes the same record or row. -/
theorem recover_refines [DecidableEq σ] (hipc : ipc.Lawful) {config : Config} {tr} {p : Process σ ρ}
    (hr : Run (step ipc) (start config) tr p) (ha : Always (Admissible ipc) tr) (config' : Config) :
    let next := restart ipc config' p.tm.wal.file.inner
    next.1 = .ok () ∧ ∃ visible pending kept, p.accepted = visible ++ pending ∧ kept <+: pending ∧
      Holds p.tm.backend visible ∧ Holds next.2.backend (visible ++ kept) ∧
      ∀ t o x, denotes p.tm.backend t o = some x → denotes next.2.backend t o = some x := by
  intro next
  obtain ⟨visible, kept, hacc, hkept, hvis, -, hinner, hc⟩ := (inv_run hipc hr ha).recovered
  obtain ⟨hok, hnext⟩ := restart_frames config' hc
  rw [← hinner] at hok hnext
  exact ⟨hok, visible, _, kept, hacc, hkept, hvis, hnext, fun t o x hx => denotes_append hvis hnext hx⟩

/-- With two uncommitted messages, a batch and a raw record are flushed, a third
record is not. -/
theorem recover_refines_pocket :
    ∃ p : Process UInt8 UInt8,
      exec (step pocketIpc) (start ⟨2⟩) [.create "t" (some 7),
        .add "t" [255, 255, 255, 255, 7, 3, 1, 1, 1, 2, 2, 0, 0, 0], .add "u" [5], .add "u" [6]] = some p ∧
      p.tm.wal.buffer = [("u", .Raw [6])] ∧ (restart pocketIpc ⟨1⟩ p.tm.wal.file.inner).1 = .ok () ∧
      ∀ t o x, denotes p.tm.backend t o = some x →
        denotes (restart pocketIpc ⟨1⟩ p.tm.wal.file.inner).2.backend t o = some x := by
  obtain ⟨p, hp⟩ := Option.isSome_iff_exists.1 (show (exec (step pocketIpc) (start ⟨2⟩) [.create "t" (some 7),
    .add "t" [255, 255, 255, 255, 7, 3, 1, 1, 1, 2, 2, 0, 0, 0], .add "u" [5], .add "u" [6]]).isSome by decide)
  have hbuf : (exec (step pocketIpc) (start ⟨2⟩) [.create "t" (some 7),
      .add "t" [255, 255, 255, 255, 7, 3, 1, 1, 1, 2, 2, 0, 0, 0], .add "u" [5], .add "u" [6]]).map
      (·.tm.wal.buffer) = some [("u", .Raw [6])] := by decide
  rw [hp] at hbuf
  obtain ⟨tr, hr, hl⟩ := Run.nil.exec hp
  have ha : Always (Admissible pocketIpc) tr := by
    rintro ⟨q, ev⟩ hx
    have hev := List.mem_map_of_mem (f := (·.2)) hx
    rw [hl] at hev
    simp only [List.mem_cons, List.not_mem_nil, or_false] at hev
    rcases hev with rfl | rfl | rfl | rfl
    · trivial
    · exact fun r hr => TopicManager.stored_record_of (by decide) (fun b bs h => by cases h; decide) hr
    · exact fun r hr => TopicManager.stored_record_of (by decide) (fun b bs h => by cases h) hr
    · exact fun r hr => TopicManager.stored_record_of (by decide) (fun b bs h => by cases h) hr
  obtain ⟨hok, -, -, -, -, -, -, -, hden⟩ := recover_refines pocketIpc_framed.toLawful hr ha ⟨1⟩
  exact ⟨p, hp, Option.some.inj hbuf, hok, hden⟩

/-! ## A batch that is longer written than read -/

/-- A reader that also takes streams of `n` rows that share their byte, as columns
may share a buffer. -/
def sharedIpc (n : Nat) : ArrowIpc UInt8 UInt8 :=
  { pocketIpc with
    read := fun w => match w with
      | 0xFF :: 0xFF :: 0xFF :: 0xFF :: s :: 4 :: r :: _ => .ok [.ok ⟨s, List.replicate n r⟩]
      | w => pocketIpc.read w }

theorem sharedIpc_lawful (n : Nat) : (sharedIpc n).Lawful where
  read_write s bs hs := by
    obtain ⟨w, hw, hread⟩ := pocketIpc_framed.read_write s bs hs
    refine ⟨w, hw, ?_⟩
    cases hw
    cases bs <;> exact hread

theorem length_payload_rows (s r : UInt8) (n : Nat) :
    (payload pocketIpc (.Batch ⟨s, List.replicate n r⟩)).length = 2 * n + 10 := by
  have hrows : ((List.replicate n r).flatMap fun r => [1, r]).length = 2 * n := by
    simp [List.length_flatMap, Nat.mul_comm]
  show (continuation ++ s :: [(⟨s, List.replicate n r⟩ : RecordBatch UInt8 UInt8)].flatMap pocketIpc.encode ++
    [0, 0, 0]).length = _
  simp only [List.flatMap_cons, List.flatMap_nil, pocketIpc.encode, List.length_append, List.length_cons,
    List.length_nil, continuation, hrows]
  omega

/-- The length of the stream is cut to ten bytes, which end inside the batch. -/
theorem next_frame_wrapped {n : Nat} (hn : n = 2 ^ 31) :
    TopicManager.next_frame (sharedIpc n) (frame (sharedIpc n) ("t", .Batch ⟨7, List.replicate n 5⟩)) =
      .error (.ArrowError ⟨"truncated batch"⟩) := by
  obtain ⟨m, rfl⟩ : ∃ m, n = m + 2 := ⟨n - 2, by omega⟩
  have hlen : (payload (sharedIpc (m + 2)) (.Batch ⟨7, List.replicate (m + 2) 5⟩)).length % 2 ^ 32 = 10 := by
    rw [show payload (sharedIpc (m + 2)) _ = payload pocketIpc _ from rfl, length_payload_rows]
    omega
  obtain ⟨tail, htail⟩ : ∃ tail, payload (sharedIpc (m + 2)) (.Batch ⟨7, List.replicate (m + 2) 5⟩) =
      [255, 255, 255, 255, 7, 3, 1, 5, 1, 5] ++ tail := ⟨_, rfl⟩
  have hten : readExact 10 ([255, 255, 255, 255, 7, 3, 1, 5, 1, 5] ++ tail) =
      some ([255, 255, 255, 255, 7, 3, 1, 5, 1, 5], tail) :=
    readExact_append ([255, 255, 255, 255, 7, 3, 1, 5, 1, 5] : Bytes) tail
  have hname : 10 ∉ utf8 "t" := by decide
  rw [frame, next_frame_header hname, hlen, htail]
  simp only [TopicManager.read_record, indicator, hten]
  rfl

/-- The stream that is logged for the first record does not fit its length. -/
theorem restart_wrapped {n : Nat} (hn : n = 2 ^ 31) :
    ∃ p : Process UInt8 UInt8,
      exec (step (sharedIpc n)) (start ⟨1⟩) [.create "t" (some 7), .add "t" [255, 255, 255, 255, 7, 4, 5, 0]] = some p ∧
      (restart (sharedIpc n) ⟨1⟩ p.tm.wal.file.inner).1 = .error (.ArrowError ⟨"truncated batch"⟩) := by
  let tm : TopicManager UInt8 UInt8 (InMemoryLog UInt8 UInt8) := (TopicManager.create (.new .new ⟨1⟩ []) "t" (some 7)).2
  have hr : TopicManager.stored_record (sharedIpc n) tm.topic_metadatas "t" [255, 255, 255, 255, 7, 4, 5, 0] =
      .ok (.Batch ⟨7, List.replicate n 5⟩) := rfl
  have hadd := TopicManager.add_full tm hr (writable_of_lawful (sharedIpc_lawful n) _) (Nat.le_refl 1)
  refine ⟨⟨(tm.add (sharedIpc n) "t" [255, 255, 255, 255, 7, 4, 5, 0]).2, _⟩, rfl, ?_⟩
  have hinner : (tm.add (sharedIpc n) "t" [255, 255, 255, 255, 7, 4, 5, 0]).2.wal.file.inner =
      frame (sharedIpc n) ("t", .Batch ⟨7, List.replicate n 5⟩) := by
    rw [hadd]
    exact Lib.BufWriter.contents_write _ _
  rw [hinner, restart_fst, Reader.readAll_error (TopicManager.frames _) (by simp [frame]) (next_frame_wrapped hn)]

/-- Eight bytes are accepted and visible, and a kill leaves a file that cannot be
recovered. -/
theorem short_payload_lost :
    (sharedIpc (2 ^ 31)).Lawful ∧ ∃ p : Process UInt8 UInt8,
      exec (step (sharedIpc (2 ^ 31))) (start ⟨1⟩)
        [.create "t" (some 7), .add "t" [255, 255, 255, 255, 7, 4, 5, 0]] = some p ∧
      (restart (sharedIpc (2 ^ 31)) ⟨1⟩ p.tm.wal.file.inner).1 ≠ .ok () := by
  obtain ⟨p, hp, herr⟩ := restart_wrapped rfl
  exact ⟨sharedIpc_lawful _, p, hp, by rw [herr]; simp⟩

end herbert.Crash
