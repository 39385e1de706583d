import Herbert.Client
import Herbert.Lib.Faulty
import Herbert.Lib.Json
import Herbert.Tasks
/-!
# The Herbert listener

`create_topic` writes the length of its request and then the request, with one
`write` that may take only some of the bytes; it does not look at how many. The
task of the connection reads one request and returns.

Here both listeners work on one server. Any number of calls write what their
streams take, the bytes arrive in any pieces, a connection may break, and the
Kafka connections of `Tasks` go on beside them. A task returns `Ok` exactly if the
whole request arrived, and then the call created its topic, once
(`creations_exact`). The call itself returns `Ok` also when its write was short
(`short_write_unseen`).
-/
open Lib Lib.Bytes Lib.Runs Lib.Faulty herbert.Connection herbert.Framing

namespace herbert

/-- `serde_json` on the requests of the listener. -/
structure RequestJson (σ : Type) where
  to_vec : HerbertRequest σ → Option Bytes
  from_slice : Bytes → Option (HerbertRequest σ)

structure RequestJson.Lawful {σ : Type} (json : RequestJson σ) : Prop where
  read : ∀ {request text}, json.to_vec request = some text → json.from_slice text = some request
  /-- A text that is cut short is refused. -/
  cut : ∀ {request text p}, json.to_vec request = some text → p <+: text → p ≠ text → json.from_slice p = none

namespace Creations

variable {ι κ σ ρ : Type}

/-! ## The client -/

abbrev TcpStream := File IoError UInt8

/-- `create_topic` on the stream that it connected. -/
def create_topic (json : RequestJson σ) (stream : TcpStream) (topic : String) (schema : Option σ) :
    Except HerbertError Unit × TcpStream :=
  match json.to_vec (Client.create_topic topic schema) with
  | none => (.error .Encode, stream)
  | some encoded =>
    match stream.write_all (be 4 encoded.length) with
    | (.error e, stream) => (.error (.Io e), stream)
    | (.ok (), stream) =>
      match stream.write encoded with
      | (.error e, stream) => (.error (.Io e), stream)
      -- how many bytes it took is not looked at
      | (.ok _, stream) => (.ok (), stream)

/-- A call, and what its stream will answer to the writes. -/
structure Call (σ : Type) where
  topic : String
  schema : Option σ
  answers : List (Answer IoError)

def Call.request (call : Call σ) : HerbertRequest σ := Client.create_topic call.topic call.schema

/-- The call's result, and its stream then. -/
def Call.run (json : RequestJson σ) (call : Call σ) : Except HerbertError Unit × TcpStream :=
  create_topic json ⟨[], call.answers⟩ call.topic call.schema

def Call.written (json : RequestJson σ) (call : Call σ) : Bytes := (call.run json).2.bytes

/-! ## The server -/

/-- How the connection ends, and the server it leaves. -/
def handle_herbert_connection (json : RequestJson σ) (server : Server σ ρ) (input : Bytes) :
    Except Fault Unit × Server σ ρ :=
  match read_message_len input with
  | .error e => (.error e, server)
  | .ok (msg_len, input) =>
    match readExact msg_len input with
    | none => (.error (.Error (.Io .UnexpectedEof)), server)
    | some (buf, _) =>
      match json.from_slice buf with
      -- an error of `serde_json`
      | none => (.error (.Error .Decode), server)
      | some request => (.ok (), server.handle_herbert_connection request)

/-- The task of a connection. -/
structure Task where
  /-- What has arrived. -/
  input : Bytes
  closed : Bool
  /-- How it has returned. -/
  result : Option (Except Fault Unit)

def waits (task : Task) : Bool := (frames.next task.input).toOption.isNone && !task.closed

/-- A task goes on when its message is there, or its stream has ended. -/
def pass (json : RequestJson σ) (server : Server σ ρ) (task : Task) : Option (Server σ ρ × Task) :=
  if waits task then none
  else
    let (result, server) := handle_herbert_connection json server task.input
    some (server, { task with result := some result })

/-- Both listeners and the calls. -/
structure State (ι κ σ ρ : Type) where
  /-- The Kafka connections, and the server. -/
  kafka : Tasks.State ι σ ρ
  task : κ → Task
  /-- What a call has written and has not arrived. -/
  unsent : κ → Bytes

def start (json : RequestJson σ) (calls : κ → Call σ) (server : Server σ ρ) : State ι κ σ ρ :=
  ⟨Tasks.start server, fun _ => ⟨[], false, none⟩, fun k => (calls k).written json⟩

inductive Label (ι κ : Type) where
  | kafka (l : Tasks.Label ι)
  | transmit (k : κ) (n : Nat)
  /-- By the client, or because the connection broke. -/
  | close (k : κ)
  | run (k : κ)

section
variable (kafka : KafkaCodec) (json : RequestJson σ) [DecidableEq σ] (ipc : ArrowIpc σ ρ) (offset_json : OffsetJson)

def step [DecidableEq ι] [DecidableEq κ] (s : State ι κ σ ρ) : Label ι κ → Option (State ι κ σ ρ)
  | .kafka l => (Tasks.step kafka ipc offset_json s.kafka l).map fun t => { s with kafka := t }
  | .transmit k n =>
    if (s.task k).closed then none
    else some { s with
      task := Function.update s.task k { s.task k with input := (s.task k).input ++ (s.unsent k).take n }
      unsent := Function.update s.unsent k ((s.unsent k).drop n) }
  | .close k => some { s with task := Function.update s.task k { s.task k with closed := true } }
  | .run k =>
    if (s.task k).result.isSome then none
    else (pass json s.kafka.server (s.task k)).map fun x =>
      { s with kafka := { s.kafka with server := x.1 }, task := Function.update s.task k x.2 }

/-! ## What a run has handled -/

/-- The request that has arrived. -/
def request_of (input : Bytes) : Option (HerbertRequest σ) :=
  (frames.next input).toOption.bind fun x => json.from_slice x.1

/-- A Kafka message that a step handles, or the request of a call. -/
def effect (s : State ι κ σ ρ) : Label ι κ → Option (Bytes ⊕ κ × HerbertRequest σ)
  | .kafka l => (Tasks.message s.kafka l).map fun x => .inl x.2
  | .run k => (request_of json (s.task k).input).map fun request => .inr (k, request)
  | _ => none

def handled (tr : List (State ι κ σ ρ × Label ι κ)) : List (Bytes ⊕ κ × HerbertRequest σ) :=
  tr.filterMap fun x => effect json x.1 x.2

/-- The requests of one call. -/
def requestsOf [DecidableEq κ] (log : List (Bytes ⊕ κ × HerbertRequest σ)) (k : κ) : List (HerbertRequest σ) :=
  log.filterMap (Sum.elim (fun _ => none) fun x => if x.1 = k then some x.2 else none)

/-- The server after one of them. -/
def handle (server : Server σ ρ) : Bytes ⊕ κ × HerbertRequest σ → Server σ ρ
  | .inl message => (handle_message kafka ipc offset_json server message).2
  | .inr x => server.handle_herbert_connection x.2

def serve (server : Server σ ρ) (log : List (Bytes ⊕ κ × HerbertRequest σ)) : Server σ ρ :=
  log.foldl (handle kafka ipc offset_json) server

end

/-- All of the call's request has arrived. -/
def Delivered (json : RequestJson σ) (call : Call σ) (input : Bytes) : Prop :=
  ∃ text, json.to_vec call.request = some text ∧ text.length < 2 ^ 32 ∧ input = framed text

/-! ## Reading a request -/

section
variable {json : RequestJson σ}

variable (json) in
/-- A request that has arrived stays so, whatever arrives behind it. -/
theorem request_of_append {input : Bytes} (h : (frames.next input).toOption.isSome) (future : Bytes) :
    (frames.next (input ++ future)).toOption.isSome ∧ request_of json (input ++ future) = request_of json input := by
  cases hnext : frames.next input with
  | error e =>
    rw [hnext] at h
    cases h
  | ok x =>
    obtain ⟨message, rest⟩ := x
    obtain ⟨rfl, hlt⟩ := Tasks.next_framed hnext
    have hmore := Tasks.frames_decodes message (rest ++ future) hlt
    rw [request_of, request_of, hnext, List.append_assoc, hmore]
    exact ⟨rfl, rfl⟩

variable (json) in
/-- What the task of the connection does, in terms of the request. -/
theorem handle_herbert_connection_eq (server : Server σ ρ) (input : Bytes) :
    (∃ request, request_of json input = some request ∧
      handle_herbert_connection json server input = (.ok (), server.handle_herbert_connection request)) ∨
    request_of json input = none ∧ ∃ e, handle_herbert_connection json server input = (.error e, server) := by
  rcases Tasks.next_cases input with
    ⟨e, hlen, hnext⟩ | ⟨n, rest, hlen, hread, hnext⟩ | ⟨n, mid, message, rest, hlen, hread, hnext⟩
  · refine .inr ⟨by rw [request_of, hnext]; rfl, e, ?_⟩
    rw [handle_herbert_connection, hlen]
  · refine .inr ⟨by rw [request_of, hnext]; rfl, .Error (.Io .UnexpectedEof), ?_⟩
    simp only [handle_herbert_connection, hlen, hread]
  · have hrequest : request_of json input = json.from_slice message := by rw [request_of, hnext]; rfl
    cases hjson : json.from_slice message with
    | none =>
      refine .inr ⟨by rw [hrequest, hjson], .Error .Decode, ?_⟩
      simp only [handle_herbert_connection, hlen, hread, hjson]
    | some request =>
      refine .inl ⟨request, by rw [hrequest, hjson], ?_⟩
      simp only [handle_herbert_connection, hlen, hread, hjson]

/-- A call writes the start of its request, behind the length of the whole. -/
theorem written_start {call : Call σ} {text : Bytes} (h : json.to_vec call.request = some text) :
    call.written json <+: framed text := by
  obtain ⟨⟨k, hlen⟩, hall⟩ := File.write_all_takes (⟨[], call.answers⟩ : TcpStream) (be 4 text.length)
  rw [Call.request] at h
  simp only [Call.written, Call.run, create_topic, h]
  cases hsent : (⟨[], call.answers⟩ : TcpStream).write_all (be 4 text.length) with
  | mk result stream =>
    rw [hsent] at hlen hall
    cases result with
    | error e =>
      dsimp only
      rw [hlen]
      exact (List.take_prefix _ _).trans (List.prefix_append _ _)
    | ok =>
      obtain ⟨n, hwrite⟩ := stream.write_takes text
      dsimp only at hall ⊢
      split <;> rename_i hw <;> rw [hw] at hwrite <;> dsimp only at hwrite ⊢ <;> rw [hwrite, hall rfl, framed] <;>
        exact (List.prefix_append_right_inj _).2 (List.take_prefix _ _)

theorem written_nothing {call : Call σ} (h : json.to_vec call.request = none) : call.written json = [] := by
  rw [Call.request] at h
  simp only [Call.written, Call.run, create_topic, h]

theorem request_of_framed {message : Bytes} (h : message.length < 2 ^ 32) (rest : Bytes) :
    request_of json (framed message ++ rest) = json.from_slice message := by
  rw [request_of, Tasks.frames_decodes message rest h]
  rfl

theorem request_of_some {input : Bytes} {request : HerbertRequest σ} (h : request_of json input = some request) :
    ∃ message rest, input = framed message ++ rest ∧ message.length < 2 ^ 32 ∧
      json.from_slice message = some request := by
  cases hnext : frames.next input with
  | error e =>
    rw [request_of, hnext] at h
    cases h
  | ok x =>
    obtain ⟨message, rest⟩ := x
    obtain ⟨rfl, hlt⟩ := Tasks.next_framed hnext
    rw [request_of_framed hlt] at h
    exact ⟨message, rest, rfl, hlt, h⟩

/-- Of the start of what a call writes, the listener reads the request, and only if all of
it is there. -/
theorem request_of_written (hjson : json.Lawful) {call : Call σ} {input : Bytes} (h : input <+: call.written json) :
    (request_of json input = some call.request ∧ Delivered json call input) ∨
      request_of json input = none ∧ ¬ Delivered json call input := by
  have hread : Delivered json call input → request_of json input = some call.request := by
    rintro ⟨text, htext, hlt, rfl⟩
    rw [← List.append_nil (framed text), request_of_framed hlt, hjson.read htext]
  cases hrequest : request_of json input with
  | none => exact .inr ⟨rfl, fun hd => by rw [hread hd] at hrequest; cases hrequest⟩
  | some request =>
    refine .inl ?_
    obtain ⟨message, rest, rfl, hlt, hslice⟩ := request_of_some hrequest
    cases htext : json.to_vec call.request with
    | none =>
      rw [written_nothing htext, List.prefix_nil] at h
      simp [framed, be] at h
    | some text =>
      obtain ⟨tail, htail⟩ := h.trans (written_start htext)
      rw [framed, framed, List.append_assoc, List.append_assoc] at htail
      obtain ⟨-, hmessage⟩ := List.append_inj htail (by rw [length_be, length_be])
      -- a message that is not the whole text is refused
      have hwhole : message = text := by
        by_contra hne
        rw [hjson.cut htext ⟨rest ++ tail, hmessage⟩ hne] at hslice
        cases hslice
      subst hwhole
      obtain ⟨rfl, -⟩ : rest = [] ∧ tail = [] := by simpa using hmessage
      rw [hjson.read htext] at hslice
      exact ⟨hslice.symm, message, htext, hlt, List.append_nil _⟩

end

/-! ## Topics -/

section
variable {kafka : KafkaCodec} [DecidableEq σ] {ipc : ArrowIpc σ ρ} {offset_json : OffsetJson}

/-- The topic as one of the handled would make it. -/
def creates (t : String) : Bytes ⊕ κ × HerbertRequest σ → Option (TopicMetadata σ)
  | .inr (_, .CreateTopic topic schema) => if t = topic then some ⟨topic, schema⟩ else none
  | .inl _ => none

/-- Whatever is handled, a topic stays as it is. -/
theorem lookup_handle (server : Server σ ρ) (x : Bytes ⊕ κ × HerbertRequest σ) (t : String) :
    (handle kafka ipc offset_json server x).topic_manager.topic_metadatas.lookup t =
      (server.topic_manager.topic_metadatas.lookup t).or (creates t x) := by
  rcases x with message | ⟨k, topic, schema⟩
  · rw [creates, Option.or_none, handle]
    rcases handle_message_snd kafka ipc offset_json server message with hsame | ⟨request, hrequest⟩
    · rw [hsame]
    · rw [hrequest]
      refine Server.keeps_topic_manager ipc offset_json
        (fun tm => tm.topic_metadatas.lookup t = server.topic_manager.topic_metadatas.lookup t)
        (fun tm t' o h => h) (fun tm t' record h => ?_) rfl request
      rwa [TopicManager.topic_metadatas_add]
  · simp only [handle, Server.handle_herbert_connection, creates, TopicManager.lookup_create]
    by_cases ht : t = topic
    · subst ht
      cases server.topic_manager.topic_metadatas.lookup t <;> simp
    · simp [ht]

theorem serve_toList (server : Server σ ρ) (log : List (Bytes ⊕ κ × HerbertRequest σ))
    (x : Option (Bytes ⊕ κ × HerbertRequest σ)) :
    serve kafka ipc offset_json server (log ++ x.toList) =
      x.elim (serve kafka ipc offset_json server log)
        (handle kafka ipc offset_json (serve kafka ipc offset_json server log)) := by
  rw [serve, List.foldl_append, ← serve]
  cases x <;> rfl

/-- A topic is as the first request for it made it. -/
theorem lookup_serve (server : Server σ ρ) (log : List (Bytes ⊕ κ × HerbertRequest σ)) (t : String) :
    (serve kafka ipc offset_json server log).topic_manager.topic_metadatas.lookup t =
      (server.topic_manager.topic_metadatas.lookup t).or (log.findSome? (creates t)) := by
  induction log generalizing server with
  | nil => rw [List.findSome?_nil, Option.or_none]; rfl
  | cons x log ih =>
    rw [serve, List.foldl_cons, ← serve, ih, lookup_handle, Option.or_assoc, List.findSome?_cons]
    cases creates t x <;> rfl

/-! ## Runs -/

variable [DecidableEq ι] [DecidableEq κ] {json : RequestJson σ} {calls : κ → Call σ} {server₀ : Server σ ρ}
  {tr : List (State ι κ σ ρ × Label ι κ)} {s s' : State ι κ σ ρ}

omit [DecidableEq σ] [DecidableEq ι] [DecidableEq κ] in
theorem handled_snoc (l : Label ι κ) : handled json (tr ++ [(s, l)]) = handled json tr ++ (effect json s l).toList := by
  rw [handled, List.filterMap_append, ← handled]
  cases h : effect json s l <;> simp [h]

/-- A step leaves the server to what it handles, if anything. -/
theorem server_step {l : Label ι κ} (hs : step kafka json ipc offset_json s l = some s') :
    s'.kafka.server = (effect json s l).elim s.kafka.server (handle kafka ipc offset_json s.kafka.server) := by
  cases l with
  | kafka l =>
    rw [step, Option.map_eq_some_iff] at hs
    obtain ⟨t, ht, rfl⟩ := hs
    rw [effect]
    refine (Tasks.server_step ht).trans ?_
    cases Tasks.message s.kafka l <;> rfl
  | transmit k n =>
    rw [step, Option.ite_none_left_eq_some, Option.some.injEq] at hs
    obtain ⟨-, rfl⟩ := hs
    rfl
  | close k =>
    cases hs
    rfl
  | run k =>
    rw [step, Option.ite_none_left_eq_some, Option.map_eq_some_iff] at hs
    obtain ⟨-, ⟨server', task'⟩, hpass, rfl⟩ := hs
    rw [pass, Option.ite_none_left_eq_some, Option.some.injEq, Prod.mk.injEq] at hpass
    obtain ⟨-, rfl, -⟩ := hpass
    rcases handle_herbert_connection_eq json s.kafka.server (s.task k).input with
      ⟨request, hrequest, hhandle⟩ | ⟨hrequest, e, hhandle⟩
    · simp only [effect, hrequest, hhandle, Option.map_some, Option.elim_some, handle]
    · simp only [effect, hrequest, hhandle, Option.map_none, Option.elim_none]

variable (kafka ipc offset_json json calls server₀) in
/-- The server and the tasks, in terms of what was handled. -/
structure Inv (tr : List (State ι κ σ ρ × Label ι κ)) (s : State ι κ σ ρ) : Prop where
  server : s.kafka.server = serve kafka ipc offset_json server₀ (handled json tr)
  sent : ∀ k, (s.task k).input ++ s.unsent k = (calls k).written json
  waiting : ∀ k, (s.task k).result = none → requestsOf (handled json tr) k = []
  returned : ∀ k r, (s.task k).result = some r →
    (r = .ok () ↔ (request_of json (s.task k).input).isSome) ∧
      requestsOf (handled json tr) k = (request_of json (s.task k).input).toList ∧ waits (s.task k) = false

omit [DecidableEq ι] in
/-- A step of one connection of the listener. -/
theorem Inv.update (h : Inv kafka ipc offset_json json calls server₀ tr s) {l : Label ι κ} {k : κ} {task : Task}
    {unsent : Bytes}
    (htask : s'.task = Function.update s.task k task) (hunsent : s'.unsent = Function.update s.unsent k unsent)
    (hserver : s'.kafka.server = (effect json s l).elim s.kafka.server (handle kafka ipc offset_json s.kafka.server))
    (hothers : ∀ j ≠ k, requestsOf (effect json s l).toList j = [])
    (hsent : task.input ++ unsent = (s.task k).input ++ s.unsent k)
    (hwaiting : task.result = none → (s.task k).result = none ∧ requestsOf (effect json s l).toList k = [])
    (hreturned : ∀ r, task.result = some r → (r = .ok () ↔ (request_of json task.input).isSome) ∧
      requestsOf (handled json tr) k ++ requestsOf (effect json s l).toList k = (request_of json task.input).toList ∧
      waits task = false) : Inv kafka ipc offset_json json calls server₀ (tr ++ [(s, l)]) s' := by
  have hrequests : ∀ j, requestsOf (handled json (tr ++ [(s, l)])) j =
      requestsOf (handled json tr) j ++ requestsOf (effect json s l).toList j := by
    intro j
    rw [handled_snoc, requestsOf, List.filterMap_append]
    rfl
  refine ⟨?_, fun j => ?_, fun j => ?_, fun j => ?_⟩
  · rw [hserver, handled_snoc, serve_toList, h.server]
  all_goals rw [htask]
  · rw [hunsent]
    by_cases hj : j = k
    · subst hj
      rw [Function.update_self, Function.update_self, hsent, h.sent]
    · rw [Function.update_of_ne hj, Function.update_of_ne hj, h.sent]
  all_goals rw [hrequests]; by_cases hj : j = k
  · subst hj
    rw [Function.update_self]
    intro hr
    rw [h.waiting j (hwaiting hr).1, (hwaiting hr).2]
    rfl
  · rw [Function.update_of_ne hj, hothers j hj, List.append_nil]
    exact h.waiting j
  · subst hj
    rw [Function.update_self]
    exact hreturned
  · rw [Function.update_of_ne hj, hothers j hj, List.append_nil]
    exact h.returned j

theorem Inv.step (h : Inv kafka ipc offset_json json calls server₀ tr s) {l : Label ι κ}
    (hs : Creations.step kafka json ipc offset_json s l = some s') :
    Inv kafka ipc offset_json json calls server₀ (tr ++ [(s, l)]) s' := by
  have hserver := server_step hs
  cases l with
  | kafka l =>
    rw [Creations.step, Option.map_eq_some_iff] at hs
    obtain ⟨t, ht, rfl⟩ := hs
    have hrequests : ∀ k, requestsOf (handled json (tr ++ [(s, .kafka l)])) k = requestsOf (handled json tr) k := by
      intro k
      rw [handled_snoc, effect, requestsOf, List.filterMap_append, ← requestsOf]
      cases Tasks.message s.kafka l <;> simp
    refine ⟨?_, h.sent, fun k => ?_, fun k => ?_⟩
    · rw [handled_snoc, serve_toList, ← h.server, hserver]
    · rw [hrequests]
      exact h.waiting k
    · rw [hrequests]
      exact h.returned k
  | transmit k n =>
    rw [Creations.step, Option.ite_none_left_eq_some, Option.some.injEq] at hs
    obtain ⟨hopen, rfl⟩ := hs
    refine h.update rfl rfl hserver (fun _ _ => rfl) ?_ (fun hr => ⟨hr, rfl⟩) fun r hr => ?_
    · rw [List.append_assoc, List.take_append_drop]
    · obtain ⟨hok, hrequests, hwaits⟩ := h.returned k r hr
      have hthere : (frames.next (s.task k).input).toOption.isSome := by
        simpa [waits, hopen] using hwaits
      obtain ⟨hmore, hsame⟩ := request_of_append json hthere ((s.unsent k).take n)
      dsimp only
      rw [hsame, hrequests]
      exact ⟨hok, List.append_nil _, by simp [waits, Option.isSome_iff_ne_none.1 hmore]⟩
  | close k =>
    cases hs
    refine h.update rfl (Function.update_eq_self k s.unsent).symm hserver (fun _ _ => rfl) rfl (fun hr => ⟨hr, rfl⟩)
      fun r hr => ?_
    obtain ⟨hok, hrequests, -⟩ := h.returned k r hr
    rw [hrequests]
    exact ⟨hok, List.append_nil _, by simp [waits]⟩
  | run k =>
    rw [Creations.step, Option.ite_none_left_eq_some, Option.map_eq_some_iff] at hs
    obtain ⟨hrunning, ⟨server', task'⟩, hpass, rfl⟩ := hs
    rw [pass, Option.ite_none_left_eq_some, Option.some.injEq, Prod.mk.injEq] at hpass
    obtain ⟨hwaits, rfl, rfl⟩ := hpass
    have hnone := h.waiting k (by simpa using hrunning)
    rcases handle_herbert_connection_eq json s.kafka.server (s.task k).input with
      ⟨request, hrequest, hhandle⟩ | ⟨hrequest, e, hhandle⟩
    · refine h.update rfl (Function.update_eq_self k s.unsent).symm hserver (fun j hj => ?_) rfl (fun hr => by cases hr)
        fun r hr => ?_
      · simp [effect, hrequest, requestsOf, Ne.symm hj]
      · cases hr
        refine ⟨by simp [hrequest, hhandle], ?_, Bool.eq_false_iff.2 hwaits⟩
        rw [hnone]
        simp [effect, hrequest, requestsOf]
    · refine h.update rfl (Function.update_eq_self k s.unsent).symm hserver (fun j hj => ?_) rfl (fun hr => by cases hr)
        fun r hr => ?_
      · simp [effect, hrequest, requestsOf]
      · cases hr
        refine ⟨by simp [hrequest, hhandle], ?_, Bool.eq_false_iff.2 hwaits⟩
        rw [hnone]
        simp [effect, hrequest, requestsOf]

theorem inv_run (hr : Run (Creations.step kafka json ipc offset_json) (start json calls server₀) tr s) :
    Inv kafka ipc offset_json json calls server₀ tr s := by
  induction hr with
  | nil => exact ⟨rfl, fun _ => List.nil_append _, fun _ _ => rfl, fun _ _ h => by cases h⟩
  | snoc hr hs ih => exact ih.step hs

variable (kafka ipc offset_json json calls server₀) in
/-- What the tasks have done, by how they have returned. -/
structure Exact (tr : List (State ι κ σ ρ × Label ι κ)) (s : State ι κ σ ρ) : Prop where
  server : s.kafka.server = serve kafka ipc offset_json server₀ (handled json tr)
  /-- A topic stays as the first request for it made it. -/
  topics : ∀ t, s.kafka.server.topic_manager.topic_metadatas.lookup t =
    (server₀.topic_manager.topic_metadatas.lookup t).or ((handled json tr).findSome? (creates t))
  waiting : ∀ k, (s.task k).result = none → requestsOf (handled json tr) k = []
  created : ∀ k, (s.task k).result = some (.ok ()) →
    Delivered json (calls k) (s.task k).input ∧ requestsOf (handled json tr) k = [(calls k).request]
  dropped : ∀ k e, (s.task k).result = some (.error e) →
    ¬ Delivered json (calls k) (s.task k).input ∧ requestsOf (handled json tr) k = []

/-- However the calls write, their bytes arrive, connections break and the Kafka
connections go on: a task returns `Ok` exactly if the whole request of its call
arrived, and then the server has handled it, once; otherwise it has handled
nothing of the call. -/
theorem creations_exact (hjson : json.Lawful)
    (hr : Run (Creations.step kafka json ipc offset_json) (start json calls server₀) tr s) :
    Exact kafka ipc offset_json json calls server₀ tr s := by
  have h := inv_run hr
  have hread := fun k => request_of_written hjson ⟨_, h.sent k⟩
  refine ⟨h.server, fun t => ?_, h.waiting, fun k hk => ?_, fun k e hk => ?_⟩
  · rw [h.server, lookup_serve]
  · obtain ⟨hok, hrequests, -⟩ := h.returned k _ hk
    rcases hread k with ⟨hrequest, hdelivered⟩ | ⟨hrequest, -⟩
    · exact ⟨hdelivered, by rw [hrequests, hrequest]; rfl⟩
    · rw [hrequest] at hok
      exact absurd (hok.1 rfl) (by simp)
  · obtain ⟨hok, hrequests, -⟩ := h.returned k _ hk
    rcases hread k with ⟨hrequest, -⟩ | ⟨hrequest, hlost⟩
    · rw [hrequest] at hok
      exact absurd (hok.2 rfl) (by simp)
    · exact ⟨hlost, by rw [hrequests, hrequest]; rfl⟩

/-- Nothing is handled of a call that did not write its whole request. -/
theorem short_unseen (hjson : json.Lawful)
    (hr : Run (Creations.step kafka json ipc offset_json) (start json calls server₀) tr s) {k : κ} {text : Bytes}
    (htext : json.to_vec (calls k).request = some text)
    (hshort : ((calls k).written json).length < (framed text).length) :
    requestsOf (handled json tr) k = [] := by
  have h := inv_run hr
  cases hresult : (s.task k).result with
  | none => exact h.waiting k hresult
  | some r =>
    obtain ⟨-, hrequests, -⟩ := h.returned k r hresult
    rcases request_of_written hjson ⟨_, h.sent k⟩ with ⟨-, text', htext', -, hinput⟩ | ⟨hrequest, -⟩
    · rw [htext] at htext'
      cases htext'
      have hlen := congrArg List.length (h.sent k)
      rw [hinput, List.length_append] at hlen
      omega
    · rw [hrequests, hrequest]
      rfl

/-- The client is told `Ok` where its write was short. -/
theorem short_write_unseen (hjson : json.Lawful)
    (hr : Run (Creations.step kafka json ipc offset_json) (start json calls server₀) tr s) {k : κ} {text : Bytes}
    (htext : json.to_vec (calls k).request = some text) {n : Nat} (hn : n + 1 < text.length)
    (hanswers : (calls k).answers = [.took 3, .took n]) :
    ((calls k).run json).1 = .ok () ∧ requestsOf (handled json tr) k = [] := by
  have hlen : (⟨[], [.took 3, .took n]⟩ : TcpStream).write_all (be 4 text.length) =
      (.ok (), ⟨be 4 text.length, [.took n]⟩) := by
    simp [File.write_all, be, flush_buf]
  have hrun : (calls k).run json = (.ok (), ⟨be 4 text.length ++ text.take (n + 1), []⟩) := by
    rw [Call.request] at htext
    rw [Call.run, create_topic, htext, hanswers]
    dsimp only
    rw [hlen]
    rfl
  refine ⟨by rw [hrun], short_unseen hjson hr htext ?_⟩
  rw [Call.written, hrun, framed]
  simp only [List.length_append, List.length_take]
  omega

end

/-! ## Two calls -/

/-- A request as an object with one field. -/
def pocketRequests : RequestJson UInt8 where
  to_vec | .CreateTopic topic schema => some (Json.encode [(utf8 topic, schema.elim (-1) fun s => s.toNat)])
  from_slice text := match Json.decode text with
    | some [(name, z)] => (fromUtf8 name).map fun topic =>
      .CreateTopic topic (if z < 0 then none else some (UInt8.ofNat z.toNat))
    | _ => none

theorem pocketRequests_lawful : pocketRequests.Lawful where
  read := by
    rintro ⟨topic, schema⟩ text h
    cases h
    simp only [pocketRequests, Json.decode_encode, fromUtf8_utf8, Option.map_some]
    cases schema with
    | none => rfl
    | some s => simp
  cut := by
    rintro ⟨topic, schema⟩ text p h hp hne
    cases h
    simp only [pocketRequests, Json.decode_prefix hp hne]

/-- The stream of the second takes one byte of the request. -/
def pocketCalls : Bool → Call UInt8
  | false => ⟨"t", some 7, []⟩
  | true => ⟨"u", none, [.took 3, .took 0]⟩

theorem creations_exact_two :
    let labels : List (Label Unit Bool) :=
      [.transmit true 5, .transmit false 3, .close true, .run true, .transmit false 9, .run false]
    ∃ tr, ∃ s : State Unit Bool UInt8 UInt8,
      Run (step pocketKafka pocketRequests pocketIpc plainJson) (start pocketRequests pocketCalls (.new ⟨1⟩)) tr s ∧
      tr.map (·.2) = labels ∧ requestsOf (handled pocketRequests tr) false = [.CreateTopic "t" (some 7)] ∧
      requestsOf (handled pocketRequests tr) true = [] := by
  intro labels
  have hresults : (exec (step pocketKafka pocketRequests pocketIpc plainJson)
      (start pocketRequests pocketCalls (.new ⟨1⟩)) labels).map
      (fun s : State Unit Bool UInt8 UInt8 => ((s.task false).result, (s.task true).result)) =
      some (some (.ok ()), some (.error (.Error (.Io .UnexpectedEof)))) := by
    decide +kernel
  obtain ⟨s, he, hs⟩ := Option.map_eq_some_iff.1 hresults
  rw [Prod.mk.injEq] at hs
  obtain ⟨tr, hr, hl⟩ := Run.nil.exec he
  have hexact := creations_exact pocketRequests_lawful hr
  exact ⟨tr, s, hr, hl, (hexact.created false hs.1).2, (hexact.dropped true _ hs.2).2⟩

end Creations
end herbert
