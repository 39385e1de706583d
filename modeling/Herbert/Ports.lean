import Herbert.Creations
import Herbert.GroupCommit
import Herbert.Listeners
import Herbert.Sockets
/-!
# From the ports to the files

Both listeners on bytes, and kills. Whatever bytes arrive, in whatever pieces and
on however many connections, a process does for them what `GroupBroker` does for
the requests in them. A kill ends all connections, and the next process starts on
the two files.
-/
open Lib Lib.Bytes Lib.Runs herbert.Connection herbert.Framing herbert.OffsetRecovery

namespace herbert.Ports

variable {ι κ σ ρ : Type}

inductive Label (ι κ : Type) where
  | work (l : Creations.Label ι κ)
  /-- A kill, and a new process: what will be sent to its other listener. -/
  | restart (config : Config) (sent : κ → Bytes)

/-- A process that nobody has sent anything yet. -/
def start (server : Server σ ρ) (sent : κ → Bytes) : Creations.State ι κ σ ρ :=
  ⟨Tasks.start server, fun _ => ⟨[], false, none⟩, sent⟩

section
variable (kafka : KafkaCodec) (json : RequestJson σ) [DecidableEq σ] (ipc : ArrowIpc σ ρ) (format : OffsetFormat)

def step [DecidableEq ι] [DecidableEq κ] (s : Creations.State ι κ σ ρ) : Label ι κ → Option (Creations.State ι κ σ ρ)
  | .work l => Creations.step kafka json ipc format.toOffsetJson s l
  | .restart config sent =>
    (Server.step ipc format s.kafka.server (.restart config)).map fun server => start server sent

/-- The request in one of the handled, if there is one. -/
def request_in : Bytes ⊕ κ × HerbertRequest σ → Option (Broker.Event σ)
  | .inl message => (Listeners.receive kafka message).toOption.map fun h => .kafka_request (h.request kafka)
  | .inr x => some (.herbert_request x.2)

/-- What a step asks of the server. -/
def asks (s : Creations.State ι κ σ ρ) : Label ι κ → Option (Broker.Event σ)
  | .work l => (Creations.effect json s l).bind (request_in kafka)
  | .restart config _ => some (.restart config)

def Admissible (s : Creations.State ι κ σ ρ) (l : Label ι κ) : Prop :=
  ∀ event ∈ asks kafka json s l, GroupBroker.Admissible ipc s.kafka.server event

/-- A step of the group broker for what a step asks, with its answer; and what is written is
that answer on the wire. -/
structure Answered (s : Creations.State ι κ σ ρ) (g : GroupBroker σ ρ) (l : Label ι κ)
    (es : List (GroupBroker.Event σ)) : Prop where
  steps : match asks kafka json s l with
    | none => es = []
    | some event => ∃ e, es = [e] ∧ GroupBroker.Same event e ∧
        Server.answer ipc format s.kafka.server event = g.answer ipc e
  written : ∀ l' message h, l = .work l' → Creations.effect json s l' = some (.inl message) →
    Listeners.receive kafka message = .ok h →
    (handle_message kafka ipc format.toOffsetJson s.kafka.server message).1 =
      h.respond kafka (g.answer ipc (.request (h.request kafka).op))

end

section
variable {kafka : KafkaCodec} {json : RequestJson σ} [DecidableEq σ] {ipc : ArrowIpc σ ρ} {format : OffsetFormat}

/-- What is handled is the request in it. -/
theorem handle_eq (server : Server σ ρ) (x : Bytes ⊕ κ × HerbertRequest σ) :
    some (Creations.handle kafka ipc format.toOffsetJson server x) =
      (request_in kafka x).elim (some server) (Server.step ipc format server) := by
  rcases x with message | ⟨k, request⟩
  · rw [Creations.handle, request_in, Listeners.handle_message_eq]
    cases Listeners.receive kafka message <;> rfl
  · rfl

variable [DecidableEq ι] [DecidableEq κ] {s s' : Creations.State ι κ σ ρ} {l : Label ι κ}

/-- A step leaves the server to what it asks, if anything. -/
theorem server_step (hs : step kafka json ipc format s l = some s') :
    (asks kafka json s l).elim (some s.kafka.server) (Server.step ipc format s.kafka.server) = some s'.kafka.server := by
  cases l with
  | work l =>
    rw [asks, Creations.server_step hs]
    cases Creations.effect json s l with
    | none => rfl
    | some x => exact (handle_eq s.kafka.server x).symm
  | restart config sent =>
    rw [step, Option.map_eq_some_iff] at hs
    obtain ⟨server, hserver, rfl⟩ := hs
    exact hserver

theorem simulates (hipc : ipc.Lawful) (hf : Lawful format) (h : GroupBroker.Inv ipc format s.kafka.server)
    (ha : Admissible kafka json ipc s l) (hs : step kafka json ipc format s l = some s') :
    ∃ es, exec (GroupBroker.step ipc) (.of s.kafka.server) es = some (.of s'.kafka.server) ∧
      Answered kafka json ipc format s (.of s.kafka.server) l es ∧ GroupBroker.Inv ipc format s'.kafka.server := by
  have hserver := server_step hs
  have hmessage : ∀ l' message hd, l = .work l' → Creations.effect json s l' = some (.inl message) →
      Listeners.receive kafka message = .ok hd → asks kafka json s l = some (.kafka_request (hd.request kafka)) := by
    rintro l' message hd rfl heffect hreceive
    rw [asks, heffect, Option.bind_some, request_in, hreceive]
    rfl
  cases hasks : asks kafka json s l with
  | none =>
    rw [hasks, Option.elim_none, Option.some.injEq] at hserver
    refine ⟨[], by rw [exec, hserver], ⟨by rw [hasks], fun l' message hd hl heffect hreceive => ?_⟩, hserver ▸ h⟩
    rw [hmessage l' message hd hl heffect hreceive] at hasks
    cases hasks
  | some event =>
    rw [hasks, Option.elim_some] at hserver
    obtain ⟨server', e, hs', hinv, hsame, hanswer, hstep⟩ := GroupBroker.serves_step hipc hf h (ha event hasks)
    rw [hserver, Option.some.injEq] at hs'
    subst hs'
    refine ⟨[e], by rw [exec, hstep]; rfl, ⟨?_, fun l' message hd hl heffect hreceive => ?_⟩, hinv⟩
    · rw [hasks]
      exact ⟨e, rfl, hsame, hanswer⟩
    · rw [hmessage l' message hd hl heffect hreceive, Option.some.injEq] at hasks
      subst hasks
      cases e with
      | restart found size => cases hsame
      | request op =>
        cases hsame
        rw [Listeners.handle_message_eq, hreceive, ← hanswer]
        rfl

theorem inv_run (hipc : ipc.Lawful) (hf : Lawful format) {config : Config} {sent : κ → Bytes} {tr}
    (hr : Run (step kafka json ipc format) (start (.new config) sent : Creations.State ι κ σ ρ) tr s)
    (ha : Always (Admissible kafka json ipc) tr) : GroupBroker.Inv ipc format s.kafka.server := by
  refine hr.inv_while (fun s => GroupBroker.Inv ipc format s.kafka.server) (GroupBroker.inv_new config)
    (fun s l s' hi ha hs => ?_) ha
  obtain ⟨-, -, -, hinv⟩ := simulates hipc hf hi ha hs
  exact hinv

/-- Whatever bytes arrive on any number of connections of both listeners, in whatever
pieces and order, and however often the process is killed, the server is the group
broker for the requests in these bytes: it always starts again, every message is
answered with the broker's answer, and in every state the server is that broker. -/
theorem ports_refine (hipc : ipc.Lawful) (hf : Lawful format) {config : Config} {sent : κ → Bytes} {tr}
    (hr : Run (step kafka json ipc format) (start (.new config) sent : Creations.State ι κ σ ρ) tr s)
    (ha : Always (Admissible kafka json ipc) tr) :
    (∀ config' sent', (step kafka json ipc format s (.restart config' sent')).isSome) ∧
      ∃ both, Run (beside (step kafka json ipc format) (GroupBroker.step ipc))
          (start (.new config) sent, .new config.num_uncommitted_messages) both (s, .of s.kafka.server) ∧
        both.map (fun x => (x.1.1, x.2.1)) = tr ∧ (∀ x ∈ both, x.1.2 = .of x.1.1.kafka.server) ∧
        Always (fun x l => Answered kafka json ipc format x.1 x.2 l.1 l.2) both := by
  constructor
  · intro config' sent'
    obtain ⟨server', -, hs, -⟩ := GroupBroker.serves_step hipc hf (inv_run hipc hf hr ha)
      (show GroupBroker.Admissible ipc s.kafka.server (.restart config') from trivial)
    rw [step, hs]
    rfl
  · have hsim : ∀ (s : Creations.State ι κ σ ρ) (g : GroupBroker σ ρ) (l : Label ι κ) s',
        GroupBroker.Inv ipc format s.kafka.server ∧ g = .of s.kafka.server → Admissible kafka json ipc s l →
        step kafka json ipc format s l = some s' → ∃ es g', exec (GroupBroker.step ipc) g es = some g' ∧
          Answered kafka json ipc format s g l es ∧ GroupBroker.Inv ipc format s'.kafka.server ∧
          g' = .of s'.kafka.server := by
      rintro s g l s' ⟨hinv, rfl⟩ ha hs
      obtain ⟨es, hes, hanswered, hinv'⟩ := simulates hipc hf hinv ha hs
      exact ⟨es, _, hes, hanswered, hinv', rfl⟩
    obtain ⟨both, g, hboth, hfirst, hanswered, hpast, -, hlast⟩ :=
      hr.beside_while _ _ ⟨GroupBroker.inv_new config, rfl⟩ hsim ha
    replace hlast : g = .of s.kafka.server := hlast
    subst hlast
    exact ⟨both, hboth, hfirst, fun x hx => (hpast x hx).2, hanswered⟩

end

/-! ## Two lives -/

instance decidableOfOk {ε α : Type} (P : α → Prop) [DecidablePred P] :
    ∀ x : Except ε α, Decidable (∀ r, x = .ok r → P r)
  | .ok a => decidable_of_iff (P a) ⟨fun h r hr => by cases hr; exact h, fun h => h a rfl⟩
  | .error _ => .isTrue fun r hr => by cases hr

instance [DecidableEq σ] (ipc : ArrowIpc σ ρ) (server : Server σ ρ) : ∀ op, Decidable (Broker.Fits ipc server op)
  | .produce topic record => inferInstanceAs (Decidable (∀ r,
      TopicManager.stored_record ipc server.topic_manager.topic_metadatas topic record = .ok r →
        WriteAheadLog.Loggable ipc topic r))
  | .commit group_id _ o => inferInstanceAs (Decidable (':' ∉ group_id.toList ∧ -2 ^ 63 ≤ o ∧ o < 2 ^ 63))
  | .fetch _ _ | .offset _ _ | .create _ _ | .refuse _ | .ignore => .isTrue trivial

instance [DecidableEq σ] (ipc : ArrowIpc σ ρ) (server : Server σ ρ) :
    ∀ event, Decidable (GroupBroker.Admissible ipc server event)
  | .kafka_request request => inferInstanceAs (Decidable (Broker.Fits ipc server request.op))
  | .herbert_request request => inferInstanceAs (Decidable (Broker.Fits ipc server request.op))
  | .restart _ => .isTrue trivial

instance [DecidableEq σ] (kafka : KafkaCodec) (json : RequestJson σ) (ipc : ArrowIpc σ ρ) (s : Creations.State ι κ σ ρ)
    (l : Label ι κ) : Decidable (Admissible kafka json ipc s l) :=
  inferInstanceAs (Decidable (∀ event ∈ asks kafka json s l, GroupBroker.Admissible ipc s.kafka.server event))

/-- A record of a group of two that a kill loses, and then a topic. -/
def pocketLabels : List (Label Unit Unit) :=
  let request := ClientRequest.Produce (create_produce_request "t" [97, 98, 99])
  let produce := (request.request_buffer pocketKafka).toOption.getD []
  let create := (Creations.pocketCalls false).written Creations.pocketRequests
  [.work (.kafka (.arrive () (produce.take 5))), .work (.kafka (.arrive () (produce.drop 5))), .work (.kafka (.run ())),
    .restart ⟨1⟩ fun _ => create, .work (.transmit () 3), .work (.transmit () 100), .work (.run ())]

theorem ports_refine_pocket :
    ∃ tr, ∃ s : Creations.State Unit Unit UInt8 UInt8, s.kafka.server.topic_manager.topic_exists "t" ∧
      Run (step pocketKafka Creations.pocketRequests pocketIpc flatJson) (start (.new ⟨2⟩) fun _ => []) tr s ∧
      ∃ both, both.map (fun x => (x.1.1, x.2.1)) = tr ∧
        Run (beside (step pocketKafka Creations.pocketRequests pocketIpc flatJson) (GroupBroker.step pocketIpc))
          (start (.new ⟨2⟩) fun _ => [], .new 2) both (s, .of s.kafka.server) := by
  have hexists : (execWhile (step pocketKafka Creations.pocketRequests pocketIpc flatJson)
      (Admissible pocketKafka Creations.pocketRequests pocketIpc)
      (start (.new ⟨2⟩) fun _ => []) pocketLabels).map (fun s => s.kafka.server.topic_manager.topic_exists "t") =
        some true := by decide +kernel
  obtain ⟨s, hs, ht⟩ := Option.map_eq_some_iff.1 hexists
  obtain ⟨tr, hr, ha⟩ := run_execWhile .nil always_nil hs
  obtain ⟨-, both, hboth, hfirst, -⟩ := ports_refine pocketIpc_framed.toLawful flatJson_lawful hr ha
  exact ⟨tr, s, ht, hr, both, hfirst, hboth⟩

end herbert.Ports
