import Herbert.Lifetimes
import Herbert.Parallel
/-!
# A server in use is killed

One process after another works on the same two files, each with threads of its
own that handle requests in parallel, and may be killed between any two of their
steps. The next process starts with `run` on the files it finds.

Some threads may see what others have not saved yet: a `fetch` a record whose frame
is in the `BufWriter`, a `get_offset` an offset that is not in the file. As long as
no kill comes at such a moment (`Saved`), all requests of all processes and the
kills between them have one order, in which the broker gives the same answers
(`requests_survive`).
-/
open Lib Lib.Bytes Lib.Runs herbert.WriteAheadLog herbert.Recovery herbert.Parallel
open herbert.TopicManager (stored_record StoresLoggable storesLoggable_of)
open herbert.OffsetRecovery (IsI64)
open herbert.Broker (Flushed Stored)

namespace herbert.Outages

variable {ι σ ρ : Type}

/-! ## The system -/

/-- What happens to the processes, by their number. -/
structure Program (ι σ ρ : Type) where
  ipc : ArrowIpc σ ρ
  format : OffsetFormat
  config : ℕ → Config
  json : ℕ → ι → OffsetJson
  request : ℕ → ι → Request σ

def Program.setup (p : Program ι σ ρ) (n : ℕ) : Setup ι σ ρ := ⟨p.ipc, p.json n, p.request n⟩

structure State (ι σ ρ : Type) where
  life : ℕ
  /-- The records that the process read off the WAL file. -/
  base : History σ ρ
  /-- The processes up to this one, the others as they were when they were killed. -/
  process : ℕ → Parallel.State ι σ ρ

def State.now (s : State ι σ ρ) : Parallel.State ι σ ρ := s.process s.life

inductive Label (ι : Type) where
  | thread (i : ι)
  | kill

/-- The first process, without files. -/
def start (p : Program ι σ ρ) : State ι σ ρ := ⟨0, [], fun _ => Parallel.start (p.setup 0) (.new (p.config 0))⟩

section
variable [DecidableEq ι] [DecidableEq σ] (p : Program ι σ ρ)

/-- The next process, with the server that `run` has made. -/
def next (s : State ι σ ρ) (server : Server σ ρ) : State ι σ ρ where
  life := s.life + 1
  base := recovered p.ipc s.now.server.topic_manager.wal.file.inner
  process := Function.update s.process (s.life + 1) (Parallel.start (p.setup (s.life + 1)) server)

def step (s : State ι σ ρ) : Label ι → Option (State ι σ ρ)
  | .thread i =>
    (Parallel.step (p.setup s.life) s.now i).map fun now => { s with process := Function.update s.process s.life now }
  | .kill =>
    let server := s.now.server
    (Server.run p.ipc p.format (p.config (s.life + 1)) server.topic_manager.wal.file.inner server.offset_manager.file).map
      (next p s)

/-! ## The broker -/

/-- A request of a thread of some process, or a kill of this process. -/
def Program.calls (p : Program ι σ ρ) (id : ℕ × Option ι) : ℕ × Option (Broker.Op σ) :=
  (id.1, id.2.map fun i => (p.request id.1 i).op)

/-- The broker with the number of its process. It serves no request of a process
that is gone. -/
def serve (ipc : ArrowIpc σ ρ) :
    ℕ × Option (Broker.Op σ) → ℕ × Broker σ ρ → Except HerbertError (Option KafkaResponse) × (ℕ × Broker σ ρ)
  | (n, some op), (life, b) =>
    if n = life then ((b.serve ipc op).1, (life, (b.serve ipc op).2)) else (.error .UnknownError, (life, b))
  | (_, none), (life, b) => (.ok none, (life + 1, b.restart))

/-- What the handler of a request that is answered has returned. -/
def outcome (s : State ι σ ρ) : ℕ × Option ι → Option (Except HerbertError (Option KafkaResponse))
  | (n, some i) => if n ≤ s.life then Parallel.outcome (p.setup n) (s.process n) i else none
  | (n, none) => if n < s.life then some (.ok none) else none

def begun (s : State ι σ ρ) : ℕ × Option ι → Prop
  | (n, some i) => n ≤ s.life ∧ Parallel.begun (p.setup n) (s.process n) i
  | (n, none) => n < s.life

end

/-! ## What is assumed -/

/-- A record that is stored can be logged, whatever the topics are; no colon in a
group, and an offset of 64 bits. -/
def Fits (ipc : ArrowIpc σ ρ) [DecidableEq σ] : Broker.Op σ → Prop
  | .produce topic record => ∀ read, StoresLoggable ipc read topic record
  | .commit group_id _ o => ':' ∉ group_id.toList ∧ IsI64 o
  | _ => True

/-- Every process flushes every record, and can read what the others wrote. -/
structure Lawful [DecidableEq σ] (p : Program ι σ ρ) : Prop where
  ipc : p.ipc.Lawful
  json : ∀ n, OffsetThreads.Lawful (p.json n)
  reads : OffsetRecovery.Lawful p.format
  format : ∀ n i, OffsetRecovery.Lawful ⟨p.json n i, p.format.from_slice⟩
  few : ∀ n, (p.config n).num_uncommitted_messages ≤ 1
  fits : ∀ n i, Fits p.ipc (p.request n i).op

/-- A `set_offset` that has inserted has written. -/
def written : OffsetThreads.Pc → Bool
  | .ready | .written | .done => true
  | _ => false

/-- The file has the frames of all that can be fetched, and the text of all offsets. -/
def Saved (p : Program ι σ ρ) (s : State ι σ ρ) : Prop :=
  Durability.Durable p.ipc s.base s.now.topics.manager.threads ∧ ∀ i, written (s.now.offsets.sets.pc i) = true

/-- No kill comes before what others see is saved. -/
def Careful (p : Program ι σ ρ) (s : State ι σ ρ) : Label ι → Prop
  | .thread _ => True
  | .kill => Saved p s

instance [Fintype ι] (p : Program ι σ ρ) (s : State ι σ ρ) : (l : Label ι) → Decidable (Careful p s l)
  | .thread _ => .isTrue trivial
  | .kill => inferInstanceAs (Decidable (_ <+: _ ∧ ∀ i, written (s.now.offsets.sets.pc i) = true))

/-! ## One request -/

section
variable [DecidableEq σ] {ipc : ArrowIpc σ ρ} {server : Server σ ρ}

variable (ipc) in
/-- A server made of sequential calls: all that it accepted is in the file, and so
are all offsets. -/
structure Kept (server : Server σ ρ) : Prop where
  topics : Flushed ipc server.topic_manager
  i64 : ∀ k o, server.offset_manager.offsets.lookup k = some o → IsI64 o
  colon : ∀ k ∈ server.offset_manager.offsets, ':' ∉ k.1.toList

omit [DecidableEq σ] in
theorem kept_new {config : Config} (hn : config.num_uncommitted_messages ≤ 1) : Kept ipc (.new config : Server σ ρ) where
  topics := Broker.flushed_new hn
  i64 := by simp [Server.new, OffsetManager.new]
  colon := by simp [Server.new, OffsetManager.new]

/-- A call of the topic manager. -/
theorem serves_topics (server : Server σ ρ) (hipc : ipc.Lawful) (h : Flushed ipc server.topic_manager) {op : Broker.Op σ} (hfit : Fits ipc op)
    {call : Managers.Call σ} (hjob : job op = .topics call) :
    Flushed ipc (Serial.apply ipc call server.topic_manager).2 ∧
      (Broker.of server).serve ipc op = (respond_topics (Serial.apply ipc call server.topic_manager).1,
        Broker.of { server with topic_manager := (Serial.apply ipc call server.topic_manager).2 }) := by
  cases op with
  | produce t record =>
    cases hjob
    exact ⟨h.add hipc (hfit _), Broker.serve_produce hipc h.handed t record⟩
  | fetch t o =>
    cases hjob
    exact ⟨h.fetch t o, Broker.serve_fetch h.handed t o⟩
  | create t schema =>
    cases hjob
    exact ⟨h.create hipc t schema, Broker.serve_create ipc server t schema⟩
  | _ => cases hjob

/-- A request. -/
theorem serves (hipc : ipc.Lawful) (h : Kept ipc server) (json : OffsetJson) {request : Request σ}
    (hfit : Fits ipc request.op) :
    Kept ipc (apply ipc (json, request) server).2 ∧
      (Broker.of server).serve ipc request.op =
        ((apply ipc (json, request) server).1, Broker.of (apply ipc (json, request) server).2) := by
  have h64 : ∀ g t o, request.op = .commit g t o → IsI64 o := by
    intro g t o hop
    rw [hop] at hfit
    exact hfit.2
  rw [apply_job ipc json request h64]
  generalize request.op = op at hfit h64
  cases op with
  | produce t record | fetch t o | create t schema =>
    obtain ⟨hflushed, hserve⟩ := serves_topics server hipc h.topics hfit rfl
    exact ⟨⟨hflushed, h.i64, h.colon⟩, hserve⟩
  | commit g t o =>
    have hoffset : (Int64.ofInt o).toInt = o := Int64.toInt_ofInt_of_le hfit.2.1 hfit.2.2
    simp only [job, OffsetCalls.apply, hoffset]
    refine ⟨⟨h.topics, fun k o' hk => ?_, fun k hk => ?_⟩, Broker.serve_commit ipc server json g t o⟩
    · simp only [OffsetManager.set_offset, OffsetManager.offsets_flush] at hk
      by_cases hkey : k = (g, t)
      · rw [hkey, AList.lookup_insert, Option.some.injEq] at hk
        exact hk ▸ hfit.2
      · rw [AList.lookup_insert_ne hkey] at hk
        exact h.i64 k o' hk
    · simp only [OffsetManager.set_offset, OffsetManager.offsets_flush] at hk
      rcases (AList.mem_insert _).1 hk with rfl | hk
      · exact hfit.1
      · exact h.colon k hk
  | offset g t => exact ⟨h, rfl⟩
  | refuse e | ignore => exact ⟨h, rfl⟩

end

/-! ## The files -/

variable [DecidableEq σ] {p : Program ι σ ρ}

variable (p) in
/-- The next process can read the offset file. -/
def Readable (om : OffsetManager) : Prop :=
  ∃ json, OffsetRecovery.Lawful ⟨json, p.format.from_slice⟩ ∧ Stored ⟨json, p.format.from_slice⟩ om

variable (p) in
def TopicFile (base : History σ ρ) (topics : AllLocks.State ι σ ρ) : Prop :=
  ∃ log, AllLocks.Sim topics log ∧ Lifetimes.Inv p.ipc ⟨base, AllLocks.above topics log⟩

variable (p) in
/-- The file is the one of the process before until somebody inserts. -/
def OffsetFile (setup : OffsetCalls.Setup ι) (offsets : OffsetCalls.State ι) : Prop :=
  ∃ om, Readable p om ∧ OffsetThreads.Inv setup.sets om offsets.sets ∧
    ((∀ i, OffsetThreads.isReady (offsets.sets.pc i) = true) → offsets.om = om)

theorem topicFile_start (hp : Lawful p) {n : ℕ} {server : Server σ ρ} {base : History σ ρ}
    (hrec : Managers.Recovered p.ipc base server.topic_manager)
    (hlife : ∀ calls, (∀ i, Lifetimes.Admissible p.ipc (calls i)) →
      Lifetimes.Inv p.ipc ⟨base, Managers.start (ι := ι) server.topic_manager calls⟩) :
    TopicFile p base (Parallel.start (p.setup n) server).topics := by
  refine ⟨server.topic_manager.backend, AllLocks.sim_start hrec _, ?_⟩
  rw [show (Parallel.start (p.setup n) server).topics = AllLocks.start _ _ from rfl, AllLocks.above_start]
  refine hlife _ fun i => ?_
  have hfit := hp.fits n i
  simp only [Setup.topics, Setup.job, Program.setup]
  cases hop : (p.request n i).op with
  | produce t record =>
    rw [hop] at hfit
    exact hfit
  | _ => trivial

variable [DecidableEq ι]

theorem topicFile_step (hipc : p.ipc.Lawful) {base : History σ ρ} {topics topics' : AllLocks.State ι σ ρ} {i : ι}
    (h : TopicFile p base topics) (hs : AllLocks.step p.ipc topics i = some topics') : TopicFile p base topics' := by
  obtain ⟨log, hsim, hinv⟩ := h
  obtain ⟨config, calls, hmanagers, -⟩ := hinv.managers
  obtain ⟨log', hsim', hsame | hstep⟩ := AllLocks.sim_step hmanagers hsim hs
  · exact ⟨log', hsim', by rwa [hsame]⟩
  · exact ⟨log', hsim', Lifetimes.inv_thread hipc hinv hstep⟩

omit [DecidableEq σ] in
theorem offsetFile_step {setup : OffsetCalls.Setup ι} (hl : OffsetThreads.Lawful setup.json)
    {offsets offsets' : OffsetCalls.State ι} {i : ι} (h : OffsetFile p setup offsets)
    (hs : OffsetCalls.step setup offsets i = some offsets') : OffsetFile p setup offsets' := by
  obtain ⟨om, hread, hinv, hfirst⟩ := h
  unfold OffsetCalls.step at hs
  split at hs
  · cases hs
  · split at hs <;> cases hs <;> exact ⟨om, hread, hinv, hfirst⟩
  · rw [Option.ite_none_left_eq_some, Option.map_eq_some_iff] at hs
    obtain ⟨-, sets, hstep, rfl⟩ := hs
    refine ⟨om, hread, OffsetThreads.inv_step hl hinv hstep, fun hall => ?_⟩
    have hi := (OffsetCalls.sets_step hstep).2.1
    rw [hall i] at hi
    cases hi

omit [DecidableEq ι] [DecidableEq σ] in
/-- When what has been inserted has been written, the file has the text of all
offsets. -/
theorem OffsetFile.readable {n : ℕ} (hformat : ∀ i, OffsetRecovery.Lawful ⟨p.json n i, p.format.from_slice⟩)
    {offsets : OffsetCalls.State ι} (h : OffsetFile p (p.setup n).offsets offsets)
    (hwritten : ∀ i, written (offsets.sets.pc i) = true) (h64 : ∀ k o, offsets.om.offsets.lookup k = some o → IsI64 o)
    (hcolon : ∀ k ∈ offsets.om.offsets, ':' ∉ k.1.toList) : Readable p offsets.om := by
  obtain ⟨om, hread, hinv, hfirst⟩ := h
  rcases hinv.current with ⟨i, hi⟩ | ⟨⟨i, hi⟩, -⟩ | ⟨i, hsome, hfile⟩ | hready
  · have hi' := hwritten i
    cases hpc : offsets.sets.pc i <;> rw [hpc] at hi hi' <;> simp [OffsetThreads.willTruncate, written] at hi hi'
  · have hi' := hwritten i
    cases hpc : offsets.sets.pc i <;> rw [hpc] at hi hi' <;> simp [OffsetThreads.isTruncated, written] at hi hi'
  · obtain ⟨text, htext⟩ := Option.isSome_iff_exists.1 hsome
    refine ⟨p.json n i, hformat i, h64, hcolon, .inr ⟨offsets.om.offsets, text, htext, ?_, fun _ => rfl⟩⟩
    rw [← htext]
    exact hfile
  · rw [hfirst hready]
    exact hread

/-! ## The relation -/

variable {s s' : State ι σ ρ} {i : ι}
  {b : Atomic.State (ℕ × Option ι) (ℕ × Broker σ ρ) (Except HerbertError (Option KafkaResponse))}

variable (p) in
/-- The process is tied to the broker through its sequential server. -/
def Now (s : State ι σ ρ) (b : Atomic.State (ℕ × Option ι) (ℕ × Broker σ ρ) (Except HerbertError (Option KafkaResponse))) :
    Prop :=
  ∃ a, Parallel.Rel (p.setup s.life) (p.config s.life) s.base s.now a ∧ Kept p.ipc a.obj ∧
    b.obj = (s.life, Broker.of a.obj) ∧ ∀ i, b.answer (s.life, some i) = a.answer i

variable (p) in
structure Rel (s : State ι σ ρ)
    (b : Atomic.State (ℕ × Option ι) (ℕ × Broker σ ρ) (Except HerbertError (Option KafkaResponse))) : Prop where
  now : Now p s b
  topics : TopicFile p s.base s.now.topics
  offsets : OffsetFile p (p.setup s.life).offsets s.now.offsets
  past_outcome : ∀ n < s.life, ∀ i r, Parallel.outcome (p.setup n) (s.process n) i = some r → b.answer (n, some i) = some r
  past_begun : ∀ n < s.life, ∀ i, ¬ Parallel.begun (p.setup n) (s.process n) i → b.answer (n, some i) = none
  future : ∀ n, s.life < n → ∀ i, b.answer (n, some i) = none
  kills : ∀ n, b.answer (n, none) = if n < s.life then some (.ok none) else none

omit [DecidableEq ι] [DecidableEq σ] in
theorem recovered_start (config : Config) : Managers.Recovered p.ipc [] (.new config : Server σ ρ).topic_manager :=
  Managers.recovered_new config

theorem rel_start (hp : Lawful p) : Rel p (start p) (Atomic.start (0, .new)) where
  now := by
    have hrel : Parallel.Rel (p.setup 0) (p.config 0) [] (Parallel.start (p.setup 0) (.new (p.config 0))) _ :=
      Parallel.rel_start (p.setup 0) (recovered_start (p.config 0))
    exact ⟨_, hrel, kept_new (hp.few 0), rfl, fun _ => rfl⟩
  topics := topicFile_start hp (recovered_start (p.config 0)) fun _ ha => Lifetimes.inv_start ha
  offsets := ⟨.new, ⟨p.format.toOffsetJson, hp.reads, Broker.stored_new⟩, OffsetThreads.inv_start _, fun _ => rfl⟩
  past_outcome n hn := absurd hn (Nat.not_lt_zero n)
  past_begun n hn := absurd hn (Nat.not_lt_zero n)
  future _ _ _ := rfl
  kills n := (if_neg (Nat.not_lt_zero n)).symm

/-- A step of a thread keeps what is known of the files. -/
theorem files_step (hp : Lawful p) {n : ℕ} {base : History σ ρ} {t t' : Parallel.State ι σ ρ}
    (htopics : TopicFile p base t.topics) (hoffsets : OffsetFile p (p.setup n).offsets t.offsets)
    (hs : Parallel.step (p.setup n) t i = some t') :
    TopicFile p base t'.topics ∧ OffsetFile p (p.setup n).offsets t'.offsets := by
  unfold Parallel.step at hs
  split at hs
  · obtain ⟨topics, hstep, rfl⟩ := Option.map_eq_some_iff.1 hs
    exact ⟨topicFile_step hp.ipc htopics hstep, hoffsets⟩
  · obtain ⟨offsets, hstep, rfl⟩ := Option.map_eq_some_iff.1 hs
    exact ⟨htopics, offsetFile_step (hp.json n) hoffsets hstep⟩
  · split at hs <;> cases hs
    exact ⟨htopics, hoffsets⟩

omit [DecidableEq ι] [DecidableEq σ] in
theorem numbered_injective (n : ℕ) : Function.Injective fun i : ι => (n, some i) := by
  intro i j hij
  simpa using hij

theorem rel_thread (hp : Lawful p) (h : Rel p s b) {now : Parallel.State ι σ ρ}
    (hs : Parallel.step (p.setup s.life) s.now i = some now) :
    ∃ ls b', exec (Atomic.step (serve p.ipc) p.calls) b ls = some b' ∧
      Rel p { s with process := Function.update s.process s.life now } b' := by
  obtain ⟨a, hrel, hkept, hobj, hanswer⟩ := h.now
  have h64 : InRange (p.setup s.life) := by
    intro i g t o hop
    have hfit := hp.fits s.life i
    rw [show (p.request s.life i).op = _ from hop] at hfit
    exact hfit.2
  obtain ⟨ls, a', he, hrel'⟩ := Parallel.rel_step (hp.few s.life) h64 hrel hs
  obtain ⟨b', he', hkept', hobj', hanswer', hother⟩ := Atomic.exec_inside (serve p.ipc) p.calls
    (fun _ => True) (numbered_injective s.life) (fun server => (s.life, Broker.of server)) (fun _ r => r) (Kept p.ipc)
    (fun j _ server hkept => by
      obtain ⟨hkept', hserve⟩ := serves hp.ipc hkept (p.json s.life j) (hp.fits s.life j)
      refine ⟨hkept', ?_⟩
      simp only [Program.calls, Option.map_some, serve, if_true, hserve]
      rfl) he (fun _ _ => trivial) hkept hobj (fun j _ => by rw [hanswer, Option.map_id'])
  have hnow : ({ s with process := Function.update s.process s.life now } : State ι σ ρ).now = now :=
    Function.update_self _ _ _
  have hpast : ∀ n < s.life, Function.update s.process s.life now n = s.process n :=
    fun n hn => Function.update_of_ne (Nat.ne_of_lt hn) _ _
  have hsame : ∀ n, n ≠ s.life → ∀ i, b'.answer (n, some i) = b.answer (n, some i) := by
    intro n hn i
    refine hother _ fun j _ hj => hn ?_
    exact (congrArg Prod.fst hj).symm
  obtain ⟨htopics, hoffsets⟩ := files_step hp h.topics h.offsets hs
  refine ⟨_, b', he', ⟨a', ?_, hkept', hobj', fun j => ?_⟩, ?_, ?_, fun n hn i r hr => ?_, fun n hn i hb => ?_,
    fun n hn i => ?_, fun n => ?_⟩
  · rw [hnow]
    exact hrel'
  · rw [hanswer' j trivial, Option.map_id']
  · rw [hnow]
    exact htopics
  · rw [hnow]
    exact hoffsets
  · dsimp only at hr
    rw [hpast n hn] at hr
    rw [hsame n (Nat.ne_of_lt hn)]
    exact h.past_outcome n hn i r hr
  · dsimp only at hb
    rw [hpast n hn] at hb
    rw [hsame n (Nat.ne_of_lt hn)]
    exact h.past_begun n hn i hb
  · rw [hsame n (Nat.ne_of_gt hn)]
    exact h.future n hn i
  · rw [hother (n, none) fun j _ hj => by cases congrArg Prod.snd hj]
    exact h.kills n

/-! ## A kill -/

/-- The calls whose frames are in the file take effect, as many as are in it. -/
theorem settle_topics {config : Config} {base : History σ ρ} {calls : ι → Managers.Call σ}
    {topics : AllLocks.State ι σ ρ} {tm : Atomic.State ι (TopicManager σ ρ (InMemoryLog σ ρ)) Managers.Answer}
    (hn : config.num_uncommitted_messages ≤ 1) (h : AllLocks.Rel p.ipc config base calls topics tm)
    (hfile : TopicFile p base topics) (hd : Durability.Durable p.ipc base topics.manager.threads) :
    ∃ ls tm', exec (Atomic.step (Serial.apply p.ipc) calls) tm ls = some tm' ∧
      (∀ i ∈ ls, AllLocks.begun topics i) ∧ tm'.obj.wal.file.contents = topics.manager.threads.wal.file.inner := by
  obtain ⟨log, -, hserial⟩ := h
  obtain ⟨log₂, -, hlife⟩ := hfile
  obtain ⟨k, hk, -, hframes, -⟩ := hlife.recovered
  obtain ⟨_, _, hmanagers, -⟩ := hlife.managers
  have hp := Lifetimes.visible_le hframes hmanagers.ordered hd
  -- `n` frames of this process are in the file
  let n := min (k - base.length) topics.manager.threads.logged.length
  have hwritten : (Lifetimes.written (⟨base, AllLocks.above topics log₂⟩ : Lifetimes.Life ι σ ρ)).take k =
      base ++ (topics.manager.threads.logged.take n).map (·.2) := by
    rw [Lifetimes.written, List.take_append, List.take_of_length_le hk, List.map_take, List.take_eq_take_min,
      List.length_map]
    rfl
  rw [hwritten] at hp hframes
  have hlen := hp.length_le
  rw [List.length_append, List.length_append, List.length_map, List.length_take] at hlen
  have hmin : min n topics.manager.threads.logged.length = n := Nat.min_eq_left (Nat.min_le_right _ _)
  have hhanded : topics.manager.threads.handed.length + (n - topics.manager.threads.handed.length) = n :=
    Nat.add_sub_cancel' (by rw [← hmin]; exact Nat.le_of_add_le_add_left hlen)
  obtain ⟨ls, tm', he, hlogged, -, -, -, -, hcontents⟩ := Serial.settle hn hserial
    (n - topics.manager.threads.handed.length) (hhanded.trans_le (Nat.min_le_right _ _))
  rw [show (AllLocks.above topics log).threads.handed.length + _ = n from hhanded] at hcontents
  refine ⟨ls, tm', he, fun i hi => ?_, hcontents.trans hframes.symm⟩
  obtain ⟨x, hx⟩ := hlogged i hi
  obtain ⟨place, hpc⟩ := (hserial.inv.logged.logged i x).1 hx
  have hat := hserial.inv.place i
  rw [hpc] at hat
  by_cases hc : topics.call i = .added
  · rw [show (AllLocks.above topics log).phase i = _ from AllLocks.phaseOf_outside hc] at hat
    refine .inl fun call hcall => ?_
    rw [hcall] at hat
    cases hat.of_ready.2
  · exact .inr hc

omit [DecidableEq ι] in
/-- The next process comes up, as the broker does. -/
theorem next_process (hp : Lawful p) {tm : TopicManager σ ρ (InMemoryLog σ ρ)} {om : OffsetManager} (n : ℕ)
    (h : Flushed p.ipc tm) (hread : Readable p om) :
    ∃ server, Server.run p.ipc p.format (p.config n) tm.wal.file.inner om.file = some server ∧ Kept p.ipc server ∧
      Readable p server.offset_manager ∧ Broker.of server = (Broker.of ⟨tm, om⟩).restart ∧
      server.topic_manager = (restart p.ipc (p.config n) tm.wal.file.inner).2 := by
  obtain ⟨tm', htm, hflushed, hqueue, htopics⟩ := h.restart (hp.few n)
  obtain ⟨json, hlaw, hstored⟩ := hread
  obtain ⟨result, om', hom, hresult, hstored', hoffsets⟩ := hstored.recover hlaw
  replace hom : OffsetManager.recover p.format { OffsetManager.new with file := om.file } = some (result, om') := hom
  refine ⟨⟨tm', om'⟩, ?_, ⟨hflushed, hstored'.i64, hstored'.colon⟩, ⟨json, hlaw, hstored'⟩, ?_, by rw [htm]⟩
  · rw [Server.run, htm, hom]
    rcases hresult with rfl | rfl <;> rfl
  · simp only [Broker.of, Broker.restart, hqueue, htopics, OffsetManager.get_offset, hoffsets, Option.map_map]
    rfl

/-- Before a kill the broker catches up with the file. -/
theorem settle (hp : Lawful p) (h : Rel p s b) (hsaved : Saved p s) :
    ∃ ls b' tm, exec (Atomic.step (serve p.ipc) p.calls) b ls = some b' ∧ Flushed p.ipc tm ∧
      tm.wal.file.inner = s.now.server.topic_manager.wal.file.inner ∧ Readable p s.now.server.offset_manager ∧
      b'.obj = (s.life, Broker.of ⟨tm, s.now.server.offset_manager⟩) ∧
      ∀ k ∈ ls, ∃ i, k = (s.life, some i) ∧ Parallel.begun (p.setup s.life) s.now i := by
  obtain ⟨a, ⟨tm, om, htied⟩, hkept, hobj, hanswer⟩ := h.now
  obtain ⟨ls, tm', he, hbegun, hcontents⟩ := settle_topics (hp.few s.life) htied.topics h.topics hsaved.1
  rw [htied.obj] at hkept hobj
  have hmine : ∀ j ∈ ls, ∃ call, (p.setup s.life).job j = .topics call := fun j hj => htied.outside j (hbegun j hj)
  obtain ⟨b', he', hflushed, hobj', -, -⟩ := Atomic.exec_inside (serve p.ipc) p.calls
    (fun j => ∃ call, (p.setup s.life).job j = .topics call) (numbered_injective s.life) (fun tm => (s.life, Broker.of ⟨tm, om.obj⟩)) (fun _ => respond_topics)
    (Flushed p.ipc) (by
      rintro j ⟨call, hj⟩ tm hflushed
      obtain ⟨hflushed', hserve⟩ := serves_topics ⟨tm, om.obj⟩ hp.ipc hflushed (hp.fits s.life j) hj
      simp only [Setup.topics, hj]
      refine ⟨hflushed', ?_⟩
      simp only [Program.calls, Option.map_some, serve, if_true, hserve]) he hmine hkept.topics hobj
    (by
      rintro j ⟨call, hj⟩
      rw [hanswer, htied.answer, effective, hj])
  have hoffsets : om.obj.offsets = s.now.server.offset_manager.offsets := htied.offsets.offsets
  refine ⟨_, b', tm'.obj, he', hflushed, hflushed.saved.trans hcontents, ?_, hobj'.trans ?_, ?_⟩
  · exact h.offsets.readable (hp.format s.life) hsaved.2 (hoffsets ▸ hkept.i64) (hoffsets ▸ hkept.colon)
  · simp only [Broker.of, OffsetManager.get_offset, hoffsets]
  · intro k hk
    obtain ⟨i, hi, rfl⟩ := List.mem_map.1 hk
    obtain ⟨call, hjob⟩ := hmine i hi
    refine ⟨i, rfl, ?_⟩
    rw [Parallel.begun, hjob]
    exact hbegun i hi

theorem rel_kill (hp : Lawful p) (h : Rel p s b) (hsaved : Saved p s) :
    ∃ s', step p s .kill = some s' ∧
      ∃ ls b', exec (Atomic.step (serve p.ipc) p.calls) b ls = some b' ∧ Rel p s' b' := by
  obtain ⟨ls, b₁, tm, he, hflushed, hinner, hread, hobj, hls⟩ := settle hp h hsaved
  obtain ⟨server, hrun, hkept, hread', hbroker, htm⟩ := next_process hp (s.life + 1) hflushed hread
  obtain ⟨log, hsim, hlife⟩ := h.topics
  rw [hinner] at hrun htm
  have hrec : Managers.Recovered p.ipc (recovered p.ipc s.now.server.topic_manager.wal.file.inner)
      server.topic_manager := by
    rw [htm]
    exact hlife.recovered_next (p.config (s.life + 1))
  have hconfig : server.topic_manager.wal.config = p.config (s.life + 1) := by
    rw [htm, restart_wal]
    rfl
  have hfresh : ∀ k, (∀ i, k ≠ (s.life, some i)) → b₁.answer k = b.answer k := by
    intro k hk
    refine Atomic.answer_of_notMem he fun hmem => ?_
    obtain ⟨i, hi, -⟩ := hls k hmem
    exact hk i hi
  have hkill : b₁.answer (s.life, none) = none := by
    rw [hfresh _ (fun i hi => by cases hi), h.kills, if_neg (Nat.lt_irrefl _)]
  let b₂ := Atomic.effect (serve p.ipc) p.calls b₁ (s.life, none)
  have hrequest : ∀ n i, b₂.answer (n, some i) = b₁.answer (n, some i) :=
    fun n i => Function.update_of_ne (fun hk => by cases hk) _ _
  have hother : ∀ n, n ≠ s.life → ∀ i, b₂.answer (n, some i) = b.answer (n, some i) := by
    intro n hn i
    rw [hrequest, hfresh _ fun j hj => hn (congrArg Prod.fst hj)]
  have hsucc : (next p s server).life = s.life + 1 := rfl
  have hnow : (next p s server).now = Parallel.start (p.setup (s.life + 1)) server := Function.update_self _ _ _
  have hpast : ∀ n < s.life + 1, (next p s server).process n = s.process n :=
    fun n hn => Function.update_of_ne (Nat.ne_of_lt hn) _ _
  refine ⟨next p s server, by rw [step, hrun]; rfl, ls ++ [(s.life, none)], b₂, ?_,
    ⟨Atomic.start server, ?_, hkept, ?_, fun i => ?_⟩, ?_, ?_, fun n hn i r hr => ?_, fun n hn i hb => ?_,
    fun n hn i => ?_, fun n => ?_⟩
  · rw [exec_append, he, Option.bind_some, exec, Atomic.step_eq_some hkill rfl]
    rfl
  · rw [hnow]
    exact hconfig ▸ Parallel.rel_start (p.setup (s.life + 1)) hrec
  · show (serve p.ipc (s.life, none) b₁.obj).2 = _
    rw [hobj, serve, ← hbroker]
    rfl
  · rw [hsucc, hother _ (Nat.succ_ne_self _), h.future _ (Nat.lt_succ_self _)]
    rfl
  · rw [hnow]
    refine topicFile_start hp hrec fun calls ha => ?_
    rw [htm]
    exact Lifetimes.inv_kill hlife _ ha
  · rw [hnow]
    exact ⟨server.offset_manager, hread', OffsetThreads.inv_start _, fun _ => rfl⟩
  · rw [hpast n hn] at hr
    rw [hrequest]
    refine Atomic.answer_exec he ?_
    rcases Nat.lt_succ_iff_lt_or_eq.1 hn with hn | rfl
    · exact h.past_outcome n hn i r hr
    · obtain ⟨a, hrel, -, -, hanswer⟩ := h.now
      rw [hanswer]
      exact hrel.outcome hr
  · rw [hpast n hn] at hb
    rcases Nat.lt_succ_iff_lt_or_eq.1 hn with hn | rfl
    · rw [hother n (Nat.ne_of_lt hn)]
      exact h.past_begun n hn i hb
    · rw [hrequest]
      obtain ⟨a, hrel, -, -, hanswer⟩ := h.now
      rw [Atomic.answer_of_notMem he fun hmem => ?_, hanswer]
      · exact hrel.not_begun hb
      · obtain ⟨j, hj, hbegun⟩ := hls _ hmem
        cases hj
        exact hb hbegun
  · have hlt : s.life < n := Nat.lt_of_succ_lt hn
    rw [hother n (Nat.ne_of_gt hlt)]
    exact h.future n hlt i
  · by_cases hn : n = s.life
    · subst hn
      rw [hsucc, if_pos (Nat.lt_succ_self _)]
      exact (Function.update_self _ _ _).trans (by rw [hobj]; rfl)
    · have hne : (n, (none : Option ι)) ≠ (s.life, none) := fun hk => hn (congrArg Prod.fst hk)
      refine (Function.update_of_ne hne _ _).trans ?_
      rw [hfresh _ (fun i hi => by cases hi), h.kills]
      simp only [hsucc, Nat.lt_succ_iff_lt_or_eq, hn, or_false]

/-! ## Whole runs -/

theorem rel_step (hp : Lawful p) (h : Rel p s b) {l : Label ι} (hc : Careful p s l) (hs : step p s l = some s') :
    ∃ ls b', exec (Atomic.step (serve p.ipc) p.calls) b ls = some b' ∧ Rel p s' b' := by
  cases l with
  | thread i =>
    obtain ⟨now, hnow, rfl⟩ := Option.map_eq_some_iff.1 hs
    exact rel_thread hp h hnow
  | kill =>
    obtain ⟨s'', hs'', hrel⟩ := rel_kill hp h hc
    rw [hs''] at hs
    cases hs
    exact hrel

theorem Rel.outcome (h : Rel p s b) {id : ℕ × Option ι} {r : Except HerbertError (Option KafkaResponse)}
    (hr : outcome p s id = some r) : b.answer id = some r := by
  obtain ⟨n, _ | i⟩ := id
  · rw [h.kills]
    exact hr
  · rw [Outages.outcome, Option.ite_none_right_eq_some] at hr
    obtain ⟨hn, hr⟩ := hr
    rcases Nat.lt_or_eq_of_le hn with hn | rfl
    · exact h.past_outcome n hn i r hr
    · obtain ⟨a, hrel, -, -, hanswer⟩ := h.now
      rw [hanswer]
      exact hrel.outcome hr

theorem Rel.not_begun (h : Rel p s b) {id : ℕ × Option ι} (hb : ¬ begun p s id) : b.answer id = none := by
  obtain ⟨n, _ | i⟩ := id
  · rw [h.kills]
    exact if_neg hb
  · rw [begun, not_and] at hb
    rcases Nat.lt_trichotomy n s.life with hn | rfl | hn
    · exact h.past_begun n hn i (hb (Nat.le_of_lt hn))
    · obtain ⟨a, hrel, -, -, hanswer⟩ := h.now
      rw [hanswer]
      exact hrel.not_begun (hb (Nat.le_refl _))
    · exact h.future n hn i

/-- When every request that has begun is answered, the broker is the server. -/
theorem Rel.final (hp : Lawful p) (h : Rel p s b)
    (hall : ∀ i, Parallel.begun (p.setup s.life) s.now i → (Parallel.outcome (p.setup s.life) s.now i).isSome) :
    b.obj = (s.life, Broker.of s.now.server) := by
  obtain ⟨a, hrel, -, hobj, -⟩ := h.now
  obtain ⟨htopics, hqueue, -, -, hoffsets⟩ := hrel.final (hp.few s.life) hall
  rw [hobj]
  simp only [Broker.of, htopics, hqueue, OffsetManager.get_offset, hoffsets]

/-- Requests in parallel, in one process after another, each killed at some point
where what its threads see is saved. The next process always comes up; and all
requests of all processes and the kills have one order in which the broker
answers each request that was answered as it was, in which no request stands
before one that was answered before it began, and in which none is served behind
the kill of its process. When all are answered the server is the broker. -/
theorem requests_survive (hp : Lawful p) {tr} {s : State ι σ ρ} (hr : Run (step p) (start p) tr s)
    (hc : Always (Careful p) tr) :
    (Saved p s → (step p s .kill).isSome) ∧
    ∃ order, Atomic.Linear (serve p.ipc) p.calls (outcome p) (begun p) (0, .new) tr s order ∧
      ((∀ i, Parallel.begun (p.setup s.life) s.now i → (Parallel.outcome (p.setup s.life) s.now i).isSome) →
        Atomic.after (serve p.ipc) p.calls (0, .new) order = (s.life, Broker.of s.now.server)) := by
  obtain ⟨order, b, hlin, hrel, hobj⟩ := Atomic.Run.linear_while (Rel p) (rel_start hp) (fun _ _ _ _ h => rel_step hp h)
    (fun _ _ _ _ h => h.outcome) (fun _ _ _ h => h.not_begun) hr hc
  refine ⟨fun hsaved => ?_, order, hlin, fun hall => ?_⟩
  · obtain ⟨s', hs', -⟩ := rel_kill hp hrel hsaved
    rw [hs']
    rfl
  · rw [← hobj]
    exact hrel.final hp hall

/-- The first process is killed with two records in the file whose requests are not
answered. -/
def pocketProgram : Program (Fin 3) UInt8 UInt8 where
  ipc := pocketIpc
  format := OffsetRecovery.flatJson
  config _ := ⟨1⟩
  json _ _ := OffsetRecovery.flatJson.toOffsetJson
  request
    | 0, 0 => .kafka_request (.Produce (some (create_produce_request "t" [1])))
    | 0, 1 => .kafka_request (.Produce (some (create_produce_request "t" [2])))
    | 0, 2 => .kafka_request (.OffsetCommit (some (create_offset_commit_request "g" "t" 1)))
    | _, 0 => .kafka_request (.Fetch (some (create_fetch_request "t" 1 0)))
    | _, 1 => .kafka_request (.OffsetFetch (some (create_offset_fetch_request "g" "t")))
    | _, 2 => .herbert_request (.CreateTopic "t" none)

theorem fits_byte {b : UInt8} (hb : b = 1 ∨ b = 2) : Fits pocketIpc (.produce "t" [b]) := by
  intro read
  refine storesLoggable_of ⟨by decide, by simp [length_frame, payload]; decide⟩ fun _ _ hread => ?_
  rcases hb with rfl | rfl <;> cases hread

theorem pocketProgram_lawful : Lawful pocketProgram where
  ipc := pocketIpc_framed.toLawful
  json _ := by
    refine ⟨fun _ _ => rfl, fun _ _ m a b ha hb => ?_⟩
    have hab := ha.symm.trans hb
    cases hab
    rfl
  reads := OffsetRecovery.flatJson_lawful
  format _ _ := OffsetRecovery.flatJson_lawful
  few _ := Nat.le_refl 1
  fits n i := by
    match n, i with
    | 0, 0 => exact fits_byte (.inl rfl)
    | 0, 1 => exact fits_byte (.inr rfl)
    | 0, 2 => exact ⟨by decide, by unfold IsI64; omega⟩
    | n + 1, 0 | n + 1, 1 | n + 1, 2 => trivial

theorem requests_survive_pocket :
    ∃ tr s, Run (step pocketProgram) (start pocketProgram) tr s ∧
      outcome pocketProgram s (0, some 0) = none ∧
      outcome pocketProgram s (1, some 0) = some (.ok (some (.Fetch ⟨[⟨[⟨some [1, 0, 2]⟩]⟩]⟩))) ∧
      ∃ order, Atomic.Linear (serve pocketIpc) pocketProgram.calls (outcome pocketProgram) (begun pocketProgram) (0, .new)
        tr s order := by
  let labels : List (Label (Fin 3)) := [0, 0, 0, 0, 1, 1, 2, 1, 1, 2, 0, 0, 2, 2, 2].map .thread ++ [.kill] ++
    [0, 1, 0, 1, 0, 0, 0, 0, 2].map .thread
  have hsome : (execWhile (step pocketProgram) (Careful pocketProgram) (start pocketProgram) labels).isSome := by
    decide +kernel
  have hsee : (execWhile (step pocketProgram) (Careful pocketProgram) (start pocketProgram) labels).map
      (fun s => (outcome pocketProgram s (0, some 0), outcome pocketProgram s (1, some 0))) =
      some (none, some (.ok (some (.Fetch ⟨[⟨[⟨some [1, 0, 2]⟩]⟩]⟩)))) := by
    decide +kernel
  obtain ⟨s, he⟩ := Option.isSome_iff_exists.1 hsome
  simp only [he, Option.map_some, Option.some.injEq, Prod.mk.injEq] at hsee
  obtain ⟨tr, hr, hc⟩ := run_execWhile Run.nil always_nil he
  obtain ⟨-, order, hlin, -⟩ := requests_survive pocketProgram_lawful hr hc
  exact ⟨tr, s, hr, hsee.1, hsee.2, order, hlin⟩

end herbert.Outages
