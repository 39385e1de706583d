import Herbert.Broker
/-!
# Group commit

With more than one uncommitted message the server hands its records over in
groups: an accepted record can be fetched when its group is full, and a kill loses
those that are not in the file yet. A `GroupBroker` is a broker that does this.

The server refines it for every `num_uncommitted_messages`, over any number of
kills (`server_commits_groups`), and so the bound has its meaning: a kill loses
fewer records than a group has, and otherwise the logs are the accepted records in
their order (`loss_bounded`). What a consumer has fetched or committed it does not
take back (`nothing_taken_back`).
-/
open Lib Lib.Bytes Lib.Runs herbert.WriteAheadLog herbert.Recovery herbert.Metadata herbert.Fetch herbert.OffsetRecovery
open herbert.TopicManager (stored_record StoresLoggable storesLoggable_of)

namespace herbert

variable {σ ρ : Type}

structure GroupBroker (σ ρ : Type) where
  /-- What can be fetched. -/
  broker : Broker σ ρ
  /-- Accepted records of a group that is not full. -/
  pending : History σ ρ
  /-- `num_uncommitted_messages` -/
  size : Nat

/-- The records behind those that are there. -/
def Broker.extend (b : Broker σ ρ) (records : History σ ρ) : Broker σ ρ :=
  { b with log := fun t => b.log t ++ records.ofTopic t }

namespace GroupBroker

/-- A request, or a kill after which that many pending records are found, and a new
process. -/
inductive Event (σ : Type) where
  | request (op : Broker.Op σ)
  | restart (found size : Nat)

def new (size : Nat) : GroupBroker σ ρ := ⟨.new, [], size⟩

def push (g : GroupBroker σ ρ) (e : String × StoredRecord σ ρ) : GroupBroker σ ρ :=
  let group := g.pending ++ [e]
  if g.size ≤ group.length then { g with broker := g.broker.extend group, pending := [] }
  else { g with pending := group }

theorem push_full {g : GroupBroker σ ρ} {e : String × StoredRecord σ ρ} (h : g.size ≤ (g.pending ++ [e]).length) :
    g.push e = { g with broker := g.broker.extend (g.pending ++ [e]), pending := [] } := if_pos h

theorem push_few {g : GroupBroker σ ρ} {e : String × StoredRecord σ ρ} (h : ¬ g.size ≤ (g.pending ++ [e]).length) :
    g.push e = { g with pending := g.pending ++ [e] } := if_neg h

section
variable [DecidableEq σ] (ipc : ArrowIpc σ ρ)

def serve (g : GroupBroker σ ρ) : Broker.Op σ → Except HerbertError (Option KafkaResponse) × GroupBroker σ ρ
  | .produce topic record =>
    match Broker.accept ipc (g.broker.schema topic) record with
    | .error e => (.error e, g)
    | .ok r => (.ok none, g.push (topic, r))
  | op => ((g.broker.serve ipc op).1, { g with broker := (g.broker.serve ipc op).2 })

def answer (g : GroupBroker σ ρ) : Event σ → Except HerbertError (Option KafkaResponse)
  | .request op => (g.serve ipc op).1
  | .restart _ _ => .ok none

def step (g : GroupBroker σ ρ) : Event σ → Option (GroupBroker σ ρ)
  | .request op => some (g.serve ipc op).2
  | .restart found size => some ⟨(g.broker.extend (g.pending.take found)).restart, [], size⟩

/-- The record that a request stores, if any. -/
def accepts (g : GroupBroker σ ρ) : Event σ → History σ ρ
  | .request (.produce topic record) =>
    (Broker.accept ipc (g.broker.schema topic) record).toOption.toList.map fun r => (topic, r)
  | _ => []

/-- How many records an event may lose. -/
def mayLose (g : GroupBroker σ ρ) : Event σ → Nat
  | .request _ => 0
  | .restart _ _ => g.size - 1

/-! ## What a kill loses -/

/-- The logs and the pending records are accepted records in their order, and not
more are missing. -/
structure Accounts (g : GroupBroker σ ρ) (accepted : History σ ρ) (lost : Nat) : Prop where
  kept : ∃ kept : History σ ρ, (∀ t, g.broker.log t = kept.ofTopic t) ∧ (kept ++ g.pending).Sublist accepted ∧
    accepted.length ≤ (kept ++ g.pending).length + lost
  few : g.pending.length ≤ g.size - 1

omit [DecidableEq σ] in
theorem accounts_new (size : Nat) : Accounts (new size : GroupBroker σ ρ) [] 0 where
  kept := ⟨[], fun _ => rfl, List.Sublist.refl _, Nat.zero_le _⟩
  few := Nat.zero_le _

variable {ipc} {g g' : GroupBroker σ ρ} {accepted : History σ ρ} {lost : Nat}

omit [DecidableEq σ] in
theorem Accounts.push (h : Accounts g accepted lost) (e : String × StoredRecord σ ρ) :
    Accounts (g.push e) (accepted ++ [e]) lost := by
  obtain ⟨⟨kept, hlog, hsub, hlen⟩, hfew⟩ := h
  have hsub' : (kept ++ (g.pending ++ [e])).Sublist (accepted ++ [e]) := by
    rw [← List.append_assoc]
    exact hsub.append_right [e]
  have hlen' : (accepted ++ [e]).length ≤ (kept ++ (g.pending ++ [e])).length + lost := by
    simp only [List.length_append] at hlen ⊢
    omega
  by_cases hsize : g.size ≤ (g.pending ++ [e]).length
  · rw [push_full hsize]
    refine ⟨⟨kept ++ (g.pending ++ [e]), fun t => ?_, ?_, ?_⟩, Nat.zero_le _⟩
    · rw [History.ofTopic_append, ← hlog]
      rfl
    · rwa [List.append_nil]
    · rwa [List.append_nil]
  · rw [push_few hsize]
    refine ⟨⟨kept, hlog, hsub', hlen'⟩, ?_⟩
    dsimp only
    omega

omit [DecidableEq σ] in
theorem Accounts.restart (h : Accounts g accepted lost) (found size : Nat) :
    Accounts ⟨(g.broker.extend (g.pending.take found)).restart, [], size⟩ accepted (lost + (g.size - 1)) := by
  obtain ⟨⟨kept, hlog, hsub, hlen⟩, hfew⟩ := h
  refine ⟨⟨kept ++ g.pending.take found, fun t => ?_, ?_, ?_⟩, Nat.zero_le _⟩
  · rw [History.ofTopic_append, ← hlog]
    rfl
  · rw [List.append_nil]
    exact ((List.take_sublist _ _).append_left kept).trans hsub
  · simp only [List.length_append, List.length_take, List.length_nil] at hlen ⊢
    omega

omit [DecidableEq σ] in
theorem Accounts.keep (h : Accounts g accepted lost) {b : Broker σ ρ} (hb : b.log = g.broker.log) :
    Accounts { g with broker := b } accepted lost := by
  obtain ⟨⟨kept, hlog, hsub, hlen⟩, hfew⟩ := h
  exact ⟨⟨kept, fun t => (congrFun hb t).trans (hlog t), hsub, hlen⟩, hfew⟩

variable (ipc) in
/-- A request that is no produce leaves the logs alone. -/
theorem log_serve {op : Broker.Op σ} (h : ∀ t record, op ≠ .produce t record) (b : Broker σ ρ) :
    (b.serve ipc op).2.log = b.log := by
  funext t
  rw [Broker.log_served]
  cases op with
  | produce t record => exact absurd rfl (h t record)
  | _ => exact List.append_nil _

theorem Accounts.step (h : Accounts g accepted lost) {e : Event σ} (hs : GroupBroker.step ipc g e = some g') :
    Accounts g' (accepted ++ g.accepts ipc e) (lost + g.mayLose e) := by
  cases e with
  | restart found size =>
    cases hs
    simpa only [accepts, mayLose, List.append_nil] using h.restart found size
  | request op =>
    cases hs
    cases op with
    | produce t record =>
      simp only [serve, accepts, mayLose]
      cases Broker.accept ipc (g.broker.schema t) record with
      | error e => simpa [Except.toOption] using h
      | ok r => exact h.push (t, r)
    | _ =>
      simp only [accepts, mayLose, List.append_nil]
      exact h.keep (log_serve ipc (by simp) g.broker)

/-! ## What a kill leaves -/

omit [DecidableEq σ] in
theorem log_push (g : GroupBroker σ ρ) (e : String × StoredRecord σ ρ) (t : String) :
    g.broker.log t <+: (g.push e).broker.log t := by
  by_cases hsize : g.size ≤ (g.pending ++ [e]).length
  · rw [push_full hsize]
    exact List.prefix_append _ _
  · exact ⟨[], by rw [push_few hsize, List.append_nil]⟩

omit [DecidableEq σ] in
theorem offset_push (g : GroupBroker σ ρ) (e : String × StoredRecord σ ρ) :
    (g.push e).broker.offset = g.broker.offset := by
  by_cases hsize : g.size ≤ (g.pending ++ [e]).length
  · rw [push_full hsize]
    rfl
  · rw [push_few hsize]

/-- What can be fetched stays where it is. -/
theorem log_step {e : Event σ} (hs : GroupBroker.step ipc g e = some g') (t : String) :
    g.broker.log t <+: g'.broker.log t := by
  cases e with
  | restart found size =>
    cases hs
    exact List.prefix_append _ _
  | request op =>
    cases hs
    cases op with
    | produce topic record =>
      rw [serve]
      split
      · exact List.prefix_refl _
      · exact log_push g _ t
    | _ => exact ⟨_, (Broker.log_served g.broker t _).symm⟩

/-- The offset that the group commits for the topic, if any. -/
def commits (group_id t : String) : Event σ → Option Int
  | .request op => Broker.commits group_id t op
  | .restart _ _ => none

theorem offset_step {e : Event σ} (hs : GroupBroker.step ipc g e = some g') (group_id t : String) :
    g'.broker.offset group_id t = (commits group_id t e).getD (g.broker.offset group_id t) := by
  cases e with
  | restart found size =>
    cases hs
    rfl
  | request op =>
    cases hs
    cases op with
    | produce topic record =>
      rw [serve]
      split
      · rfl
      · rw [offset_push]
        rfl
    | _ => exact Broker.offset_served g.broker group_id t _

end

/-! ## The server -/

/-- The group broker that a server is. -/
def of (server : Server σ ρ) : GroupBroker σ ρ where
  broker := .of server
  pending := server.topic_manager.wal.buffer
  size := server.topic_manager.wal.config.num_uncommitted_messages

variable {ipc : ArrowIpc σ ρ} {format : OffsetFormat}

variable (ipc format) in
structure Inv (server : Server σ ρ) : Prop where
  topics : ∃ accepted, Metadata.Inv ipc ⟨server.topic_manager, accepted⟩
  offsets : Broker.Stored format server.offset_manager

section
variable [DecidableEq σ] {server : Server σ ρ}

/-- An `add` pushes the record, if there is one. -/
theorem serve_produce (hipc : ipc.Lawful) (server : Server σ ρ) (t : String) (record : Bytes) :
    (of server).serve ipc (.produce t record) = ((server.topic_manager.add ipc t record).1.map fun _ => none,
      of { server with topic_manager := (server.topic_manager.add ipc t record).2 }) := by
  have haccept : Broker.accept ipc ((of server).broker.schema t) record = _ :=
    Broker.accept_eq server.topic_manager.topic_metadatas t record
  rw [serve, haccept]
  cases hr : stored_record ipc server.topic_manager.topic_metadatas t record with
  | error e =>
    rw [TopicManager.add_error server.topic_manager hr]
    rfl
  | ok r =>
    rw [TopicManager.add_log server.topic_manager hr (writable_of_lawful hipc r)]
    have hneed : (server.topic_manager.wal.logged ipc (t, r)).need_to_flush = true ↔
        (of server).size ≤ ((of server).pending ++ [(t, r)]).length := by
      simp [need_to_flush, logged, of]
    by_cases hfull : (of server).size ≤ ((of server).pending ++ [(t, r)]).length
    · rw [if_pos (hneed.2 hfull)]
      dsimp only
      rw [push_full hfull]
      simp only [of, Broker.of, Broker.extend, InMemoryLog.queue_addAll, flushed, logged]
      rfl
    · rw [if_neg fun h => hfull (hneed.1 h)]
      dsimp only
      rw [push_few hfull]
      rfl

variable (ipc) in
/-- A new process may have any configuration. -/
def Admissible (server : Server σ ρ) : Broker.Event σ → Prop
  | .kafka_request request => Broker.Fits ipc server request.op
  | .herbert_request request => Broker.Fits ipc server request.op
  | .restart _ => True

variable (ipc format) in
/-- The server's answer and what it is afterwards are the group broker's. -/
structure Serves (answer : Except HerbertError (Option KafkaResponse)) (server' : Server σ ρ)
    (served : Except HerbertError (Option KafkaResponse) × GroupBroker σ ρ) : Prop where
  inv : Inv ipc format server'
  answer : answer = served.1
  broker : of server' = served.2

theorem serves_produce (hipc : ipc.Lawful) (h : Inv ipc format server) {t : String} {record : Bytes}
    (hfit : Broker.Fits ipc server (.produce t record)) :
    Serves ipc format ((server.topic_manager.add ipc t record).1.map fun _ => none)
      { server with topic_manager := (server.topic_manager.add ipc t record).2 }
      ((of server).serve ipc (.produce t record)) := by
  obtain ⟨⟨accepted, hinv⟩, hoffsets⟩ := h
  let add : Metadata.Event σ := .call (.add t record)
  have hadd : Metadata.step ipc ⟨server.topic_manager, accepted⟩ add =
      some ⟨(server.topic_manager.add ipc t record).2,
        accepted ++ Crash.acceptedBy ipc server.topic_manager t record⟩ := rfl
  rw [serve_produce hipc]
  exact ⟨⟨⟨_, Metadata.inv_step hipc hinv (show Metadata.Fits ipc _ add from hfit) hadd⟩, hoffsets⟩, rfl, rfl⟩

theorem serves_create (hipc : ipc.Lawful) (h : Inv ipc format server) (t : String) (schema : Option σ) :
    Serves ipc format (.ok none) { server with topic_manager := (server.topic_manager.create t schema).2 }
      ((of server).serve ipc (.create t schema)) := by
  obtain ⟨⟨accepted, hinv⟩, hoffsets⟩ := h
  let create : Metadata.Event σ := .call (.create t schema)
  have hcreate : Metadata.step ipc ⟨server.topic_manager, accepted⟩ create =
      some ⟨(server.topic_manager.create t schema).2, accepted⟩ := rfl
  have hserve := Broker.serve_create ipc server t schema
  refine ⟨⟨⟨accepted, Metadata.inv_step hipc hinv (show Metadata.Fits ipc _ create from trivial) hcreate⟩, hoffsets⟩, ?_, ?_⟩
  · exact (congrArg Prod.fst hserve).symm
  · simp only [serve, of, hserve, TopicManager.wal_create]

theorem serves_fetch (h : Inv ipc format server) (t : String) (o : Int) :
    Serves ipc format ((server.topic_manager.fetch ipc t o).1.map fun records => some (.Fetch ⟨[⟨[⟨some records⟩]⟩]⟩))
      { server with topic_manager := (server.topic_manager.fetch ipc t o).2 } ((of server).serve ipc (.fetch t o)) := by
  obtain ⟨⟨accepted, hinv⟩, hoffsets⟩ := h
  obtain ⟨visible, k, -, hvisible, -⟩ := hinv.crash
  have hfetch : (server.topic_manager.fetch ipc t o).1 = readFrom ipc (server.topic_manager.backend.queue t) o := by
    rw [hvisible.queue]
    exact fetch_holds ipc hvisible t o
  refine ⟨⟨⟨accepted, Broker.inv_fetch hinv t o⟩, hoffsets⟩, by rw [hfetch]; rfl, ?_⟩
  simp only [of, Broker.of, serve, Broker.serve, TopicManager.queue_fetch]
  rfl

theorem serves (hipc : ipc.Lawful) (hf : Lawful format) (h : Inv ipc format server) (op : Broker.Op σ)
    (hfit : Broker.Fits ipc server op) :
    Serves ipc format (Broker.perform ipc format.toOffsetJson server op).1
      (Broker.perform ipc format.toOffsetJson server op).2 ((of server).serve ipc op) := by
  cases op with
  | produce t record => exact serves_produce hipc h hfit
  | fetch t o => exact serves_fetch h t o
  | create t schema => exact serves_create hipc h t schema
  | commit g t o =>
    refine ⟨⟨h.topics, h.offsets.set_offset hf hfit.1 hfit.2⟩, rfl, ?_⟩
    simp only [of, serve, Broker.serve_commit ipc server format.toOffsetJson]
    rfl
  | offset g t | refuse e | ignore => exact ⟨h, rfl, rfl⟩

end

/-- A kill, and a new process that finds some of the pending records in the file. -/
theorem serves_restart (hf : Lawful format) {server : Server σ ρ} (h : Inv ipc format server) (config : Config) :
    ∃ server' found,
      Server.run ipc format config server.topic_manager.wal.file.inner server.offset_manager.file = some server' ∧
      Serves ipc format (.ok none) server'
        (.ok none, ⟨((of server).broker.extend ((of server).pending.take found)).restart, [],
          config.num_uncommitted_messages⟩) := by
  obtain ⟨⟨accepted, hinv⟩, hoffsets⟩ := h
  obtain ⟨visible, kept, hacc, hkept, hvisible, hrec, hinner, hclean⟩ := hinv.crash.recovered
  obtain ⟨hok, hholds⟩ := restart_frames config hclean
  rw [← hinner] at hok hholds
  have hwal := restart_wal ipc config server.topic_manager.wal.file.inner
  obtain ⟨result, om, hom, hresult, hstored, hlookup⟩ := hoffsets.recover hf
  have hkilled := Metadata.inv_kill hinv config
  have hqueue : ∀ t, (Recovery.restart ipc config server.topic_manager.wal.file.inner).2.backend.queue t =
      server.topic_manager.backend.queue t ++ History.ofTopic t kept := by
    intro t
    rw [hholds.queue, hvisible.queue, History.ofTopic_append]
  refine ⟨⟨(Recovery.restart ipc config server.topic_manager.wal.file.inner).2, om⟩, kept.length, ?_,
    ⟨⟨_, hkilled⟩, hstored⟩, rfl, ?_⟩
  · rw [Server.run,
      show Recovery.restart ipc config server.topic_manager.wal.file.inner = (.ok (), _) from Prod.ext hok rfl, hom]
    rcases hresult with rfl | rfl <;> rfl
  · have htake : server.topic_manager.wal.buffer.take kept.length = kept := (List.prefix_iff_eq_take.1 hkept).symm
    simp only [of, Broker.of, Broker.restart, Broker.extend, htake, hqueue, hwal, lookup_restart, hrec,
      OffsetManager.get_offset, hlookup, Option.map_map, hvisible.queue, History.ofTopic_append]
    rfl

/-! ## Whole runs -/

/-- Both serve the same request, or both are killed and started again. -/
def Same : Broker.Event σ → Event σ → Prop
  | .kafka_request request, .request op => op = request.op
  | .herbert_request request, .request op => op = request.op
  | .restart config, .restart _ size => size = config.num_uncommitted_messages
  | _, _ => False

section
variable [DecidableEq σ] {server : Server σ ρ}

theorem serves_step (hipc : ipc.Lawful) (hf : Lawful format) (h : Inv ipc format server) {event : Broker.Event σ}
    (ha : Admissible ipc server event) :
    ∃ server' e, Server.step ipc format server event = some server' ∧ Inv ipc format server' ∧ Same event e ∧
      Server.answer ipc format server event = (of server).answer ipc e ∧ step ipc (of server) e = some (of server') := by
  cases event with
  | kafka_request request =>
    obtain ⟨hinv, hanswer, hbroker⟩ := serves hipc hf h request.op ha
    rw [← Broker.handle_eq_perform] at hinv hanswer hbroker
    exact ⟨_, .request request.op, rfl, hinv, rfl, hanswer, congrArg some hbroker.symm⟩
  | herbert_request request =>
    obtain ⟨t, schema⟩ := request
    have hserves : Serves ipc format _ _ _ := serves_create hipc h t schema
    exact ⟨_, .request (.create t schema), rfl, hserves.inv, rfl, hserves.answer, congrArg some hserves.broker.symm⟩
  | restart config =>
    obtain ⟨server', found, hrun, hinv, hanswer, hbroker⟩ := serves_restart hf h config
    exact ⟨server', .restart found _, hrun, hinv, rfl, hanswer, congrArg some hbroker.symm⟩

omit [DecidableEq σ] in
theorem inv_new (config : Config) : Inv ipc format (.new config : Server σ ρ) :=
  ⟨⟨[], Metadata.inv_start config⟩, Broker.stored_new⟩

theorem inv_run (hipc : ipc.Lawful) (hf : Lawful format) {config : Config} {tr}
    (hr : Run (Server.step ipc format) (.new config) tr server) (ha : Always (Admissible ipc) tr) :
    Inv ipc format server := by
  refine hr.inv_while (Inv ipc format) (inv_new config) (fun s event s' hi ha hs => ?_) ha
  obtain ⟨s'', -, hs'', hinv, -⟩ := serves_step hipc hf hi ha
  rw [hs] at hs''
  cases hs''
  exact hinv

/-- For every `num_uncommitted_messages` the server refines the group broker, over
any number of kills. No step of a run panics, and beside the run there is one of
the group broker with the same requests and kills that gives every answer and is
what the server is, in every state. -/
theorem server_commits_groups (hipc : ipc.Lawful) (hf : Lawful format) {config : Config} {tr}
    (hr : Run (Server.step ipc format) (.new config) tr server) (ha : Always (Admissible ipc) tr) :
    (∀ event, Admissible ipc server event → (Server.step ipc format server event).isSome) ∧
      ∃ both, Run (beside (Server.step ipc format) (step ipc)) (.new config, new config.num_uncommitted_messages) both
          (server, of server) ∧ both.map (fun x => (x.1.1, x.2.1)) = tr ∧
        (∀ x ∈ both, x.1.2 = of x.1.1) ∧
        Always (fun x l => ∃ e, l.2 = [e] ∧ Same l.1 e ∧ Server.answer ipc format x.1 l.1 = x.2.answer ipc e) both := by
  constructor
  · intro event hadm
    obtain ⟨server', -, hs, -⟩ := serves_step hipc hf (inv_run hipc hf hr ha) hadm
    rw [hs]
    rfl
  · have hsim : ∀ (s : Server σ ρ) (g : GroupBroker σ ρ) event s', Inv ipc format s ∧ g = of s → Admissible ipc s event →
        Server.step ipc format s event = some s' → ∃ ls g', exec (step ipc) g ls = some g' ∧
          (∃ e, ls = [e] ∧ Same event e ∧ Server.answer ipc format s event = g.answer ipc e) ∧
          Inv ipc format s' ∧ g' = of s' := by
      rintro s g event s' ⟨hinv, rfl⟩ hadm hs
      obtain ⟨s'', e, hs'', hinv', hsame, hanswer, hstep⟩ := serves_step hipc hf hinv hadm
      rw [hs] at hs''
      cases hs''
      exact ⟨[e], of s', by rw [exec, hstep]; rfl, ⟨e, rfl, hsame, hanswer⟩, hinv', rfl⟩
    obtain ⟨both, g, hboth, hfirst, hanswers, hpast, -, hlast⟩ :=
      hr.beside_while _ _ ⟨inv_new config, rfl⟩ hsim ha
    replace hlast : g = of server := hlast
    subst hlast
    exact ⟨both, hboth, hfirst, fun x hx => (hpast x hx).2, hanswers⟩

/-- Two records of a group of three, a kill, and a group of two. -/
def pocketEvents : List (Broker.Event UInt8) :=
  [.kafka_request (.Produce (some (create_produce_request "u" [5]))),
    .kafka_request (.Produce (some (create_produce_request "u" [6]))), .restart ⟨2⟩,
    .kafka_request (.Produce (some (create_produce_request "u" [7]))),
    .kafka_request (.Produce (some (create_produce_request "u" [8])))]

theorem pocketEvents_admissible (server : Server UInt8 UInt8) :
    ∀ event ∈ pocketEvents, Admissible pocketIpc server event := by
  have hraw : ∀ b : UInt8, Broker.Fits pocketIpc server (.produce "u" [b]) := fun b =>
    storesLoggable_of ⟨by decide, by simp [length_frame, payload]; decide⟩ fun b' bs h => by simp [pocketIpc] at h
  simp only [pocketEvents, List.forall_mem_cons, List.not_mem_nil, false_implies, implies_true, and_true]
  exact ⟨hraw 5, hraw 6, trivial, hraw 7, hraw 8⟩

/-- The kill loses the first two. -/
theorem pocket_run :
    ∃ tr server, Run (Server.step pocketIpc flatJson) (.new ⟨3⟩) tr server ∧ Always (Admissible pocketIpc) tr ∧
      tr.map (·.2) = pocketEvents ∧ server.topic_manager.backend.queue "u" = [.Raw [7], .Raw [8]] := by
  have hqueue : (exec (Server.step pocketIpc flatJson) (.new ⟨3⟩) pocketEvents).map
      (fun server => server.topic_manager.backend.queue "u") = some [.Raw [7], .Raw [8]] := by decide +kernel
  obtain ⟨server, he, hq⟩ := Option.map_eq_some_iff.1 hqueue
  obtain ⟨tr, hr, hl⟩ := Run.nil.exec he
  rw [List.nil_append] at hr
  refine ⟨tr, server, hr, fun x hx => ?_, hl, hq⟩
  exact pocketEvents_admissible x.1 x.2 (hl ▸ List.mem_map_of_mem hx)

theorem server_commits_groups_pocket :
    ∃ tr server, Run (Server.step pocketIpc flatJson) (.new ⟨3⟩) tr server ∧ tr.map (·.2) = pocketEvents ∧
      ∃ both, Run (beside (Server.step pocketIpc flatJson) (step pocketIpc)) (.new ⟨3⟩, new 3) both (server, of server) ∧
        both.map (fun x => (x.1.1, x.2.1)) = tr := by
  obtain ⟨tr, server, hr, ha, hl, -⟩ := pocket_run
  obtain ⟨-, both, hboth, hfirst, -⟩ := server_commits_groups pocketIpc_framed.toLawful flatJson_lawful hr ha
  exact ⟨tr, server, hr, hl, both, hboth, hfirst⟩

variable (ipc) in
/-- The records that a run accepts, in their order. -/
def accepted (tr : List (Server σ ρ × Broker.Event σ)) : History σ ρ :=
  tr.flatMap fun x => match x.2 with
    | .kafka_request request => (of x.1).accepts ipc (.request request.op)
    | _ => []

omit [DecidableEq σ] in
/-- One less than the size of a group, for every kill. -/
def killed (tr : List (Server σ ρ × Broker.Event σ)) : Nat :=
  (tr.map fun x => match x.2 with
    | .restart _ => x.1.topic_manager.wal.config.num_uncommitted_messages - 1
    | _ => 0).sum

theorem accepted_snoc {event : Broker.Event σ} {e : Event σ} (h : Same event e)
    (tr : List (Server σ ρ × Broker.Event σ)) :
    accepted ipc (tr ++ [(server, event)]) = accepted ipc tr ++ (of server).accepts ipc e := by
  rw [accepted, accepted, List.flatMap_append, List.flatMap_singleton]
  congr 1
  cases event with
  | kafka_request request =>
    cases e with
    | request op => cases h; rfl
    | restart found size => cases h
  | herbert_request request =>
    obtain ⟨t, schema⟩ := request
    cases e with
    | request op => cases h; rfl
    | restart found size => cases h
  | restart config =>
    cases e with
    | request op => cases h
    | restart found size => rfl

omit [DecidableEq σ] in
theorem killed_snoc {event : Broker.Event σ} {e : Event σ} (h : Same event e)
    (tr : List (Server σ ρ × Broker.Event σ)) :
    killed (tr ++ [(server, event)]) = killed tr + (of server).mayLose e := by
  rw [killed, killed, List.map_append, List.sum_append, List.map_singleton, List.sum_singleton]
  congr 1
  cases event <;> cases e <;> first | rfl | cases h

theorem accounts_run (hipc : ipc.Lawful) (hf : Lawful format) {config : Config} {tr}
    (hr : Run (Server.step ipc format) (.new config) tr server) (ha : Always (Admissible ipc) tr) :
    Accounts (of server) (accepted ipc tr) (killed tr) := by
  induction hr with
  | nil => exact accounts_new config.num_uncommitted_messages
  | @snoc tr server event server' hr hs ih =>
    rw [always_snoc] at ha
    obtain ⟨s'', e, hs'', -, hsame, -, hstep⟩ := serves_step hipc hf (inv_run hipc hf hr ha.1) ha.2
    rw [hs] at hs''
    cases hs''
    rw [accepted_snoc hsame, killed_snoc hsame]
    exact (ih ha.1).step hstep

/-- Kills lose few records. Whatever the size of the groups in each of the lives of
the server, what can be fetched and what is pending are accepted records, each once
and in their order, and over all kills fewer are missing than a group has for each
kill. -/
theorem loss_bounded (hipc : ipc.Lawful) (hf : Lawful format) {config : Config} {tr}
    (hr : Run (Server.step ipc format) (.new config) tr server) (ha : Always (Admissible ipc) tr) :
    ∃ kept : History σ ρ, (∀ t, server.topic_manager.backend.queue t = kept.ofTopic t) ∧
      (kept ++ server.topic_manager.wal.buffer).Sublist (accepted ipc tr) ∧
      (accepted ipc tr).length ≤ (kept ++ server.topic_manager.wal.buffer).length + killed tr ∧
      server.topic_manager.wal.buffer.length ≤ server.topic_manager.wal.config.num_uncommitted_messages - 1 := by
  obtain ⟨⟨kept, hlog, hsub, hlen⟩, hfew⟩ := accounts_run hipc hf hr ha
  exact ⟨kept, hlog, hsub, hlen, hfew⟩

theorem loss_bounded_pocket :
    ∃ tr server, Run (Server.step pocketIpc flatJson) (.new ⟨3⟩) tr server ∧ tr.map (·.2) = pocketEvents ∧
      server.topic_manager.backend.queue "u" = [.Raw [7], .Raw [8]] ∧
      ∃ kept : History UInt8 UInt8, (∀ t, server.topic_manager.backend.queue t = kept.ofTopic t) ∧
        (kept ++ server.topic_manager.wal.buffer).Sublist (accepted pocketIpc tr) ∧
        (accepted pocketIpc tr).length ≤ (kept ++ server.topic_manager.wal.buffer).length + killed tr := by
  obtain ⟨tr, server, hr, ha, hl, hq⟩ := pocket_run
  obtain ⟨kept, hlog, hsub, hlen, -⟩ := loss_bounded pocketIpc_framed.toLawful flatJson_lawful hr ha
  exact ⟨tr, server, hr, hl, hq, kept, hlog, hsub, hlen⟩

omit [DecidableEq σ] in
theorem commits_same {event : Broker.Event σ} {e : Event σ} (h : Same event e) (group_id t : String) :
    commits group_id t e = Broker.commits group_id t event.op := by
  cases event <;> cases e <;> first | (cases h; rfl) | cases h

/-- No kill takes back what a consumer has seen. Whatever the sizes of the groups, the
log of a topic only grows, and the offset of a group is the one it committed
last. -/
theorem nothing_taken_back (hipc : ipc.Lawful) (hf : Lawful format) {config : Config} {tr}
    (hr : Run (Server.step ipc format) (.new config) tr server) (ha : Always (Admissible ipc) tr) :
    (∀ x ∈ tr, ∀ t, x.1.topic_manager.backend.queue t <+: server.topic_manager.backend.queue t) ∧
      ∀ group_id t, server.offset_manager.get_offset group_id t =
        (tr.filterMap fun x => Broker.commits group_id t x.2.op).getLast?.getD 0 := by
  induction hr with
  | nil => exact ⟨by simp, fun _ _ => rfl⟩
  | @snoc tr server event server' hr hs ih =>
    rw [always_snoc] at ha
    obtain ⟨hlog, hoffset⟩ := ih ha.1
    obtain ⟨s'', e, hs'', -, hsame, -, hstep⟩ := serves_step hipc hf (inv_run hipc hf hr ha.1) ha.2
    rw [hs] at hs''
    cases hs''
    refine ⟨fun x hx t => ?_, fun group_id t => ?_⟩
    · rw [List.mem_append, List.mem_singleton] at hx
      rcases hx with hx | rfl
      · exact (hlog x hx t).trans (log_step hstep t)
      · exact log_step hstep t
    · refine (offset_step hstep group_id t).trans ?_
      rw [commits_same hsame, List.filterMap_append]
      cases hc : Broker.commits group_id t event.op with
      | none =>
        have hnone : [(server, event)].filterMap (fun x => Broker.commits group_id t x.2.op) = [] := by simp [hc]
        rw [hnone, List.append_nil]
        exact hoffset group_id t
      | some o => simp [hc]

theorem nothing_taken_back_pocket :
    ∃ tr server, Run (Server.step pocketIpc flatJson) (.new ⟨3⟩) tr server ∧ tr.map (·.2) = pocketEvents ∧
      ∀ x ∈ tr, x.1.topic_manager.backend.queue "u" <+: server.topic_manager.backend.queue "u" := by
  obtain ⟨tr, server, hr, ha, hl, -⟩ := pocket_run
  exact ⟨tr, server, hr, hl, fun x hx => (nothing_taken_back pocketIpc_framed.toLawful flatJson_lawful hr ha).1 x hx "u"⟩

end

end GroupBroker
end herbert
