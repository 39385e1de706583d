import Herbert.AllLocks
import Herbert.Broker
import Herbert.OffsetCalls
/-!
# Requests in parallel

Any number of threads, each with one request of either listener. A handler makes
one call of the topic manager or one of the offset manager, or none: what it does
with the managers is its `Job`, and it takes the steps of `AllLocks` or of
`OffsetCalls`.

The two managers share nothing, so the calls on both take effect in one order,
and the server is linearizable on its own sequential handlers.
-/
open Lib Lib.Bytes Lib.Runs herbert.WriteAheadLog herbert.WalOrder

namespace herbert

variable {ι σ ρ : Type}

inductive Request (σ : Type) where
  | kafka_request (request : KafkaRequest)
  | herbert_request (request : HerbertRequest σ)

def Request.op : Request σ → Broker.Op σ
  | .kafka_request request => request.op
  | .herbert_request request => request.op

namespace Parallel

/-! ## What a handler does -/

inductive Job (σ : Type) where
  | topics (call : Managers.Call σ)
  | offsets (call : OffsetCalls.Call)
  | answer (result : Except HerbertError (Option KafkaResponse))

def job : Broker.Op σ → Job σ
  | .produce topic record => .topics (.add topic record)
  | .fetch topic fetch_offset => .topics (.fetch topic fetch_offset)
  | .create topic schema => .topics (.create topic schema)
  | .commit group_id topic o => .offsets (.set group_id topic (Int64.ofInt o))
  | .offset group_id topic => .offsets (.get group_id topic)
  | .refuse e => .answer (.error e)
  | .ignore => .answer (.ok none)

/-- What the handler makes of an answer of the topic manager. That a topic exists
already is logged. -/
def respond_topics : Managers.Answer → Except HerbertError (Option KafkaResponse)
  | .created _ => .ok none
  | .added result => result.map fun _ => none
  | .fetched result => result.map fun records => some (.Fetch ⟨[⟨[⟨some records⟩]⟩]⟩)

def respond_offsets : OffsetCalls.Call → Option Int → Except HerbertError (Option KafkaResponse)
  | .get _ topic, some offset => .ok (some (.OffsetFetch ⟨[⟨topic, [⟨offset⟩]⟩]⟩))
  | _, _ => .ok none

/-! ## The system -/

structure Setup (ι σ ρ : Type) where
  ipc : ArrowIpc σ ρ
  json : ι → OffsetJson
  request : ι → Request σ

def Setup.job (setup : Setup ι σ ρ) (i : ι) : Job σ := Parallel.job (setup.request i).op

/-- A thread that has no call of the topic manager takes no step in it. -/
def Setup.topics (setup : Setup ι σ ρ) (i : ι) : Managers.Call σ :=
  match setup.job i with
  | .topics call => call
  | _ => .fetch "" 0

def Setup.offsets (setup : Setup ι σ ρ) : OffsetCalls.Setup ι where
  json := setup.json
  call i := match setup.job i with
    | .offsets call => some call
    | _ => none

structure State (ι σ ρ : Type) where
  topics : AllLocks.State ι σ ρ
  offsets : OffsetCalls.State ι
  /-- The handlers that have returned without a call. -/
  answered : ι → Bool

def start (setup : Setup ι σ ρ) (server : Server σ ρ) : State ι σ ρ :=
  ⟨AllLocks.start server.topic_manager setup.topics, OffsetCalls.start server.offset_manager, fun _ => false⟩

/-- The server between the steps. -/
def State.server (s : State ι σ ρ) : Server σ ρ := ⟨s.topics.manager.tm, s.offsets.om⟩

section
variable [DecidableEq ι] [DecidableEq σ] (setup : Setup ι σ ρ)

def step (s : State ι σ ρ) (i : ι) : Option (State ι σ ρ) :=
  match setup.job i with
  | .topics _ => (AllLocks.step setup.ipc s.topics i).map fun topics => { s with topics }
  | .offsets _ => (OffsetCalls.step setup.offsets s.offsets i).map fun offsets => { s with offsets }
  | .answer _ => if s.answered i then none else some { s with answered := Function.update s.answered i true }

/-! ## One after the other -/

omit [DecidableEq ι] in
/-- A request that is alone. -/
def apply (ipc : ArrowIpc σ ρ) (c : OffsetJson × Request σ) (server : Server σ ρ) :
    Except HerbertError (Option KafkaResponse) × Server σ ρ :=
  match c.2 with
  | .kafka_request request => server.handle_kafka_request ipc c.1 request
  | .herbert_request request => (.ok none, server.handle_herbert_connection request)

/-- The requests, each with the `serde_json` of its handler. -/
def Setup.requests (i : ι) : OffsetJson × Request σ := (setup.json i, setup.request i)

/-- What the handler of a request that is answered has returned. -/
def outcome (s : State ι σ ρ) (i : ι) : Option (Except HerbertError (Option KafkaResponse)) :=
  match setup.job i with
  | .topics _ => (AllLocks.outcome s.topics i).map respond_topics
  | .offsets call => (OffsetCalls.outcome setup.offsets s.offsets i).map (respond_offsets call)
  | .answer result => if s.answered i then some result else none

def begun (s : State ι σ ρ) (i : ι) : Prop :=
  match setup.job i with
  | .topics _ => AllLocks.begun s.topics i
  | .offsets _ => OffsetCalls.begun setup.offsets s.offsets i
  | .answer _ => s.answered i = true

end

/-- Committed offsets are 64-bit integers. -/
def InRange (setup : Setup ι σ ρ) : Prop :=
  ∀ i g t o, (setup.request i).op = .commit g t o → OffsetRecovery.IsI64 o

section
variable [DecidableEq σ] (ipc : ArrowIpc σ ρ) (json : OffsetJson)

/-- A request does its job. -/
theorem apply_job (request : Request σ) (h64 : ∀ g t o, request.op = .commit g t o → OffsetRecovery.IsI64 o)
    (server : Server σ ρ) :
    apply ipc (json, request) server = match job request.op with
      | .topics call => (respond_topics (Serial.apply ipc call server.topic_manager).1,
          { server with topic_manager := (Serial.apply ipc call server.topic_manager).2 })
      | .offsets call => (respond_offsets call (OffsetCalls.apply (json, some call) server.offset_manager).1,
          { server with offset_manager := (OffsetCalls.apply (json, some call) server.offset_manager).2 })
      | .answer result => (result, server) := by
  match request with
  | .herbert_request (.CreateTopic t schema) => rfl
  | .kafka_request request =>
    simp only [apply, Broker.handle_eq_perform]
    simp only [herbert.Request.op] at h64 ⊢
    cases hop : (request.op : Broker.Op σ) with
    | commit g t o =>
      obtain ⟨hmin, hmax⟩ := h64 g t o hop
      have hoffset : (Int64.ofInt o).toInt = o := Int64.toInt_ofInt_of_le hmin hmax
      simp only [job, OffsetCalls.apply, hoffset]
      rfl
    | _ => rfl

end

/-- A step of one thread leaves the others where they are. -/
theorem step_other [DecidableEq ι] [DecidableEq σ] {setup : Setup ι σ ρ} {s s' : State ι σ ρ} {i j : ι}
    (hs : step setup s i = some s') (hj : j ≠ i) :
    outcome setup s' j = outcome setup s j ∧ (begun setup s' j ↔ begun setup s j) := by
  unfold outcome begun
  unfold step at hs
  cases hi : setup.job i with
  | topics call =>
    simp only [hi, Option.map_eq_some_iff] at hs
    obtain ⟨topics, hs, rfl⟩ := hs
    obtain ⟨hphase, -, hcall⟩ := AllLocks.step_other hs hj
    cases setup.job j with
    | topics call => simp only [AllLocks.outcome, AllLocks.begun, Serial.outcome, Serial.begun, hphase, hcall, true_and]
    | offsets call => exact ⟨rfl, Iff.rfl⟩
    | answer result => exact ⟨rfl, Iff.rfl⟩
  | offsets call =>
    simp only [hi, Option.map_eq_some_iff] at hs
    obtain ⟨offsets, hs, rfl⟩ := hs
    obtain ⟨hget, hpc⟩ := OffsetCalls.step_other hs hj
    cases setup.job j with
    | topics call => exact ⟨rfl, Iff.rfl⟩
    | offsets call => simp only [OffsetCalls.outcome, OffsetCalls.begun, hget, hpc, true_and]
    | answer result => exact ⟨rfl, Iff.rfl⟩
  | answer result =>
    simp only [hi, Option.ite_none_left_eq_some, Option.some.injEq] at hs
    obtain ⟨-, rfl⟩ := hs
    have hsame : Function.update s.answered i true j = s.answered j := Function.update_of_ne hj _ _
    cases setup.job j with
    | topics call => exact ⟨rfl, Iff.rfl⟩
    | offsets call => exact ⟨rfl, Iff.rfl⟩
    | answer result => simp only [hsame, true_and]

/-! ## The relation -/

variable [DecidableEq ι] [DecidableEq σ] {setup : Setup ι σ ρ} {config : Config} {base : History σ ρ}
  {s s' : State ι σ ρ} {a : Atomic.State ι (Server σ ρ) (Except HerbertError (Option KafkaResponse))} {i : ι}

/-- The answer of a request that has taken effect, from the answers of the calls. -/
def effective (setup : Setup ι σ ρ) (s : State ι σ ρ)
    (tm : Atomic.State ι (TopicManager σ ρ (InMemoryLog σ ρ)) Managers.Answer)
    (om : Atomic.State ι OffsetManager (Option Int)) (i : ι) : Option (Except HerbertError (Option KafkaResponse)) :=
  match setup.job i with
  | .topics _ => (tm.answer i).map respond_topics
  | .offsets call => (om.answer i).map (respond_offsets call)
  | .answer result => if s.answered i then some result else none

variable (setup config base) in
/-- Each manager is tied to its own part of the server. -/
structure Tied (s : State ι σ ρ) (a : Atomic.State ι (Server σ ρ) (Except HerbertError (Option KafkaResponse)))
    (tm : Atomic.State ι (TopicManager σ ρ (InMemoryLog σ ρ)) Managers.Answer)
    (om : Atomic.State ι OffsetManager (Option Int)) : Prop where
  topics : AllLocks.Rel setup.ipc config base setup.topics s.topics tm
  offsets : OffsetCalls.Rel setup.offsets s.offsets om
  outside : ∀ i, AllLocks.begun s.topics i → ∃ call, setup.job i = .topics call
  obj : a.obj = ⟨tm.obj, om.obj⟩
  answer : ∀ i, a.answer i = effective setup s tm om i

variable (setup config base) in
def Rel (s : State ι σ ρ) (a : Atomic.State ι (Server σ ρ) (Except HerbertError (Option KafkaResponse))) : Prop :=
  ∃ tm om, Tied setup config base s a tm om

variable (setup) in
theorem rel_start {server : Server σ ρ} (h : Managers.Recovered setup.ipc base server.topic_manager) :
    Rel setup server.topic_manager.wal.config base (start setup server) (Atomic.start server) := by
  refine ⟨_, _, AllLocks.rel_start h setup.topics, OffsetCalls.rel_start server.offset_manager, ?_, rfl, fun i => ?_⟩
  · rintro i (hb | hb)
    · exact absurd rfl (hb (setup.topics i))
    · exact absurd rfl hb
  · unfold effective
    split <;> rfl

theorem Rel.outcome (h : Rel setup config base s a) {r : Except HerbertError (Option KafkaResponse)}
    (hr : outcome setup s i = some r) : a.answer i = some r := by
  obtain ⟨tm, om, h⟩ := h
  rw [h.answer, effective]
  unfold Parallel.outcome at hr
  cases hjob : setup.job i with
  | topics call =>
    simp only [hjob, Option.map_eq_some_iff] at hr
    obtain ⟨r', hr', rfl⟩ := hr
    simp only [h.topics.outcome hr', Option.map_some]
  | offsets call =>
    simp only [hjob, Option.map_eq_some_iff] at hr
    obtain ⟨r', hr', rfl⟩ := hr
    simp only [h.offsets.outcome hr', Option.map_some]
  | answer result => simpa only [hjob] using hr

theorem Rel.not_begun (h : Rel setup config base s a) (hb : ¬ begun setup s i) : a.answer i = none := by
  obtain ⟨tm, om, h⟩ := h
  rw [h.answer, effective]
  unfold begun at hb
  cases hjob : setup.job i with
  | topics call =>
    rw [hjob] at hb
    simp only [h.topics.not_begun hb, Option.map_none]
  | offsets call =>
    rw [hjob] at hb
    simp only [h.offsets.not_begun hb, Option.map_none]
  | answer result =>
    rw [hjob] at hb
    exact if_neg hb

/-! ## One step -/

/-- A step of a call of the topic manager. -/
theorem rel_topics (hn : config.num_uncommitted_messages ≤ 1) (h64 : InRange setup) (h : Rel setup config base s a)
    {call : Managers.Call σ} (hi : setup.job i = .topics call) {next : AllLocks.State ι σ ρ}
    (hs : AllLocks.step setup.ipc s.topics i = some next) :
    ∃ ls a', exec (Atomic.step (apply setup.ipc) setup.requests) a ls = some a' ∧
      Rel setup config base { s with topics := next } a' := by
  obtain ⟨tm, om, h⟩ := h
  obtain ⟨ls, tm', he, hrel⟩ := AllLocks.rel_step hn h.topics hs
  have houtside : ∀ j, AllLocks.begun next j → ∃ call, setup.job j = .topics call := by
    intro j hj
    by_cases hji : j = i
    · exact ⟨call, hji ▸ hi⟩
    · obtain ⟨hphase, -, hcall⟩ := AllLocks.step_other hs hji
      refine h.outside j ?_
      rwa [AllLocks.begun, Serial.begun, hphase, hcall] at hj
  have hmine : ∀ j ∈ ls, ∃ call, setup.job j = .topics call := by
    intro j hj
    refine houtside j ?_
    by_contra hb
    have hanswered := Atomic.answered_exec he hj
    rw [hrel.not_begun hb] at hanswered
    cases hanswered
  obtain ⟨a', he', -, hobj, hanswer, hother⟩ := Atomic.exec_inside (apply setup.ipc) setup.requests
    (fun j => ∃ call, setup.job j = .topics call) Function.injective_id
    (fun tm => (⟨tm, om.obj⟩ : Server σ ρ)) (fun _ => respond_topics) (fun _ => True) (by
      rintro j ⟨call, hj⟩ tm -
      replace hj : job (setup.request j).op = .topics call := hj
      rw [id, Setup.requests, apply_job _ _ _ (h64 j)]
      simp only [hj, Setup.topics, Setup.job, true_and]) he hmine trivial h.obj
    (by
      rintro j ⟨call, hj⟩
      rw [id, h.answer, effective, hj])
  refine ⟨_, a', he', tm', om, hrel, h.offsets, houtside, hobj, fun j => ?_⟩
  by_cases hj : ∃ call, setup.job j = .topics call
  · refine (hanswer j hj).trans ?_
    obtain ⟨call, hj⟩ := hj
    rw [effective, hj]
  · rw [hother j fun k hk hkj => hj (hkj ▸ hk), h.answer, effective, effective]
    cases hjob : setup.job j with
    | topics call => exact absurd ⟨call, hjob⟩ hj
    | _ => rfl

/-- A step of a call of the offset manager. -/
theorem rel_offsets (h64 : InRange setup) (h : Rel setup config base s a)
    {next : OffsetCalls.State ι} (hs : OffsetCalls.step setup.offsets s.offsets i = some next) :
    ∃ ls a', exec (Atomic.step (apply setup.ipc) setup.requests) a ls = some a' ∧
      Rel setup config base { s with offsets := next } a' := by
  obtain ⟨tm, om, h⟩ := h
  obtain ⟨ls, om', he, hrel⟩ := OffsetCalls.rel_step h.offsets hs
  have hmine : ∀ j ∈ ls, ∃ call, setup.job j = .offsets call := by
    intro j hj
    have hanswered := Atomic.answered_exec he hj
    rw [hrel.answer, OffsetCalls.effective] at hanswered
    cases hjob : setup.job j with
    | offsets call => exact ⟨call, rfl⟩
    | _ => simp [Setup.offsets, hjob] at hanswered
  have hcall : ∀ j call, setup.job j = .offsets call → setup.offsets.calls j = (setup.json j, some call) := by
    intro j call hj
    simp only [OffsetCalls.Setup.calls, Setup.offsets, hj]
  obtain ⟨a', he', -, hobj, hanswer, hother⟩ := Atomic.exec_inside (apply setup.ipc) setup.requests
    (fun j => ∃ call, setup.job j = .offsets call) Function.injective_id
    (fun om => (⟨tm.obj, om⟩ : Server σ ρ))
    (fun j => match setup.job j with | .offsets call => respond_offsets call | _ => fun _ => .ok none) (fun _ => True)
    (by
      rintro j ⟨call, hj⟩ om -
      rw [id, Setup.requests, apply_job _ _ _ (h64 j), hcall j call hj, hj]
      replace hj : job (setup.request j).op = .offsets call := hj
      simp only [hj, true_and]) he hmine trivial h.obj
    (by
      rintro j ⟨call, hj⟩
      rw [id, h.answer, effective, hj])
  refine ⟨_, a', he', tm, om', h.topics, hrel, h.outside, hobj, fun j => ?_⟩
  by_cases hj : ∃ call, setup.job j = .offsets call
  · refine (hanswer j hj).trans ?_
    obtain ⟨call, hj⟩ := hj
    rw [effective, hj]
  · rw [hother j fun k hk hkj => hj (hkj ▸ hk), h.answer, effective, effective]
    cases hjob : setup.job j with
    | offsets call => exact absurd ⟨call, hjob⟩ hj
    | _ => rfl

theorem rel_step (hn : config.num_uncommitted_messages ≤ 1) (h64 : InRange setup) (h : Rel setup config base s a)
    (hs : step setup s i = some s') :
    ∃ ls a', exec (Atomic.step (apply setup.ipc) setup.requests) a ls = some a' ∧ Rel setup config base s' a' := by
  unfold step at hs
  cases hjob : setup.job i with
  | topics call =>
    simp only [hjob, Option.map_eq_some_iff] at hs
    obtain ⟨next, hs, rfl⟩ := hs
    exact rel_topics hn h64 h hjob hs
  | offsets call =>
    simp only [hjob, Option.map_eq_some_iff] at hs
    obtain ⟨next, hs, rfl⟩ := hs
    exact rel_offsets h64 h hs
  | answer result =>
    simp only [hjob, Option.ite_none_left_eq_some, Option.some.injEq, Bool.not_eq_true] at hs
    obtain ⟨hi, rfl⟩ := hs
    obtain ⟨tm, om, h⟩ := h
    have hnone : a.answer i = none := by
      rw [h.answer, effective, hjob]
      exact if_neg (by simp [hi])
    have happly : apply setup.ipc (setup.requests i) a.obj = (result, a.obj) := by
      rw [Setup.requests, apply_job _ _ _ (h64 i), show job (setup.request i).op = _ from hjob]
    refine ⟨[i], Atomic.effect (apply setup.ipc) setup.requests a i, ?_, tm, om, h.topics, h.offsets, h.outside,
      ?_, fun j => ?_⟩
    · rw [exec, Atomic.step_eq_some hnone rfl]
      rfl
    · rw [Atomic.effect, happly]
      exact h.obj
    · rw [Atomic.effect, happly]
      by_cases hj : j = i
      · subst hj
        simp only [Function.update_self, effective, hjob, if_true]
      · simp only [Function.update_of_ne hj, h.answer, effective]

/-! ## Whole runs -/

/-- When every request that has begun is answered, the managers are those of the
requests made one after the other. -/
theorem Rel.final (hn : config.num_uncommitted_messages ≤ 1) (h : Rel setup config base s a)
    (hall : ∀ i, begun setup s i → (Parallel.outcome setup s i).isSome) :
    s.server.topic_manager.topic_metadatas = a.obj.topic_manager.topic_metadatas ∧
      (∀ t, s.server.topic_manager.backend.queue t = a.obj.topic_manager.backend.queue t) ∧
      s.server.topic_manager.wal.buffer = a.obj.topic_manager.wal.buffer ∧
      s.server.topic_manager.wal.file.contents = a.obj.topic_manager.wal.file.contents ∧
      s.server.offset_manager.offsets = a.obj.offset_manager.offsets := by
  obtain ⟨tm, om, h⟩ := h
  obtain ⟨htopics, hqueue, hbuffer, hfile⟩ := h.topics.final hn fun i hb => by
    obtain ⟨call, hjob⟩ := h.outside i hb
    have hi := hall i
    simp only [begun, Parallel.outcome, hjob, Option.isSome_map] at hi
    exact hi hb
  rw [h.obj]
  exact ⟨htopics, hqueue, hbuffer, hfile, h.offsets.offsets.symm⟩

/-- With at most one uncommitted message the server is linearizable. However the
threads that handle requests interleave, between any two steps under the locks,
there is one order of the requests in which the sequential handlers return what
they returned, and in which no request stands before one that was handled before
it began. When all are handled, the server is the one that this order leaves. -/
theorem server_linearizable {server : Server σ ρ} (h : Managers.Recovered setup.ipc base server.topic_manager)
    (hn : server.topic_manager.wal.config.num_uncommitted_messages ≤ 1) (h64 : InRange setup) {tr} {s : State ι σ ρ}
    (hr : Run (step setup) (start setup server) tr s) :
    ∃ order, Atomic.Linear (apply setup.ipc) setup.requests (outcome setup) (begun setup) server tr s order ∧
      ((∀ i, begun setup s i → (outcome setup s i).isSome) →
        let server' := Atomic.after (apply setup.ipc) setup.requests server order
        s.server.topic_manager.topic_metadatas = server'.topic_manager.topic_metadatas ∧
          (∀ t, s.server.topic_manager.backend.queue t = server'.topic_manager.backend.queue t) ∧
          s.server.topic_manager.wal.buffer = server'.topic_manager.wal.buffer ∧
          s.server.topic_manager.wal.file.contents = server'.topic_manager.wal.file.contents ∧
          s.server.offset_manager.offsets = server'.offset_manager.offsets) := by
  obtain ⟨order, a, hlin, hrel, hobj⟩ := Atomic.Run.linear (Rel setup server.topic_manager.wal.config base)
    (rel_start setup h) (fun _ _ _ _ => rel_step hn h64) (fun _ _ _ _ h => h.outcome) (fun _ _ _ h => h.not_begun) hr
  refine ⟨order, hlin, fun hall => ?_⟩
  dsimp only
  rw [← hobj]
  exact hrel.final hn hall

/-- The offset is read before its commit is in the file, the record while the `add`
that logged it is on its way. -/
theorem server_linearizable_pocket :
    let setup : Setup (Fin 5) UInt8 UInt8 := ⟨pocketIpc, fun _ => OffsetRecovery.flatJson.toOffsetJson, fun
      | 0 => .herbert_request (.CreateTopic "t" none)
      | 1 => .kafka_request (.Produce (some (create_produce_request "t" [1])))
      | 2 => .kafka_request (.Fetch (some (create_fetch_request "t" 1 0)))
      | 3 => .kafka_request (.OffsetCommit (some (create_offset_commit_request "g" "t" 1)))
      | 4 => .kafka_request (.OffsetFetch (some (create_offset_fetch_request "g" "t")))⟩
    ∃ tr s, Run (step setup) (start setup (.new ⟨1⟩)) tr s ∧
      outcome setup s 2 = some (.ok (some (.Fetch ⟨[⟨[⟨some [1]⟩]⟩]⟩))) ∧
      outcome setup s 4 = some (.ok (some (.OffsetFetch ⟨[⟨"t", [⟨1⟩]⟩]⟩))) ∧
      ∃ order, Atomic.Linear (apply setup.ipc) setup.requests (outcome setup) (begun setup) (.new ⟨1⟩) tr s order := by
  intro setup
  have h64 : InRange setup := by
    intro i g t o h
    match i with
    | 0 | 1 | 2 | 4 => cases h
    | 3 =>
      cases h
      unfold OffsetRecovery.IsI64
      omega
  have he : exec (step setup) (start setup (.new ⟨1⟩)) [1, 3, 1, 1, 1, 1, 1, 1, 1, 3, 4, 1, 1, 1, 2, 1, 1, 3, 1, 2, 4, 0,
      2, 2, 2, 3, 2, 3] = some _ := rfl
  obtain ⟨tr, hr, -⟩ := Run.nil.exec he
  obtain ⟨order, hlin, -⟩ := server_linearizable (Managers.recovered_new ⟨1⟩) (Nat.le_refl 1) h64 hr
  exact ⟨_, _, hr, rfl, rfl, order, hlin⟩

end Parallel
end herbert
