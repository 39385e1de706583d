import Herbert.Parallel
import Herbert.Tasks
/-!
# The listeners on threads

The tasks of `Tasks` with the handlers of `Parallel`: a task reads a message, its
handler takes its steps under the locks while the other tasks go on, and then the
task writes the response. The other listener has a task for each request.

What the client of a connection sends is part of the program; its pieces, when
they arrive and when the client closes the connection, are not.

Beside every run there is one in which each message is handled in one step, with
the same bytes arriving at the same times, and no connection can tell the two
apart (`listeners_atomic`).
-/
open Lib Lib.Bytes Lib.Runs herbert.WalOrder herbert.Connection herbert.Framing herbert.Tasks

namespace herbert.Listeners

variable {ι κ σ ρ : Type}

/-! ## A message around its handler -/

/-- A message whose handler is running. -/
structure Handling where
  message : Bytes
  size : Nat
  api_version : Int
  header : RequestHeader
  buffer : Bytes

section
variable (kafka : KafkaCodec)

/-- A message up to its handler. -/
def receive (message : Bytes) : Except Fault Handling :=
  match read_header kafka message with
  | .error e => .error e
  | .ok (api_version, header_version, header, buffer) =>
    match kafka.response_header.compute_size header_version ⟨header.correlation_id⟩ with
    | none => .error (.Error .ComputeSize)
    | some size => .ok ⟨message, size, api_version, header, buffer⟩

def Handling.request (h : Handling) : KafkaRequest := read_request kafka h.header h.buffer

/-- What is written when the handler has returned. -/
def Handling.respond (h : Handling) : Except HerbertError (Option KafkaResponse) → Except Fault Bytes
  | .error e => .error (.Error e)
  | .ok none => .ok []
  | .ok (some response) => Connection.respond kafka h.size h.api_version h.header response

/-- The task when the handler has returned. -/
def reply (h : Handling) (result : Except HerbertError (Option KafkaResponse)) (task : Task) : Task :=
  match h.respond kafka result with
  | .error e => { task with result := some (.error e) }
  | .ok response => { task with output := task.output ++ response }

/-- A task that has no handler running reads on; `none` if it waits for more bytes. -/
def read (task : Task) : Option (Task × Option Handling) :=
  match read_message_len task.input with
  | .error e => if task.closed then some ({ task with result := some (.error e) }, none) else none
  | .ok (msg_len, input) =>
    match readExact msg_len input with
    | none => if task.closed then some ({ task with result := some (.ok ()) }, none) else none
    | some (message, input) =>
      match receive kafka message with
      | .error e => some ({ task with input, result := some (.error e) }, none)
      | .ok h => some ({ task with input }, some h)

variable {kafka}

theorem message_of_receive {message : Bytes} {h : Handling} (hm : receive kafka message = .ok h) :
    h.message = message := by
  unfold receive at hm
  split at hm
  · cases hm
  · split at hm
    · cases hm
    · cases hm
      rfl

/-- A message is handled by what is before, in and behind its handler. -/
theorem handle_message_eq [DecidableEq σ] (ipc : ArrowIpc σ ρ) (json : OffsetJson) (server : Server σ ρ)
    (message : Bytes) :
    handle_message kafka ipc json server message = match receive kafka message with
      | .error e => (.error e, server)
      | .ok h => (h.respond kafka (server.handle_kafka_request ipc json (h.request kafka)).1,
          (server.handle_kafka_request ipc json (h.request kafka)).2) := by
  unfold handle_message receive
  cases read_header kafka message with
  | error e => rfl
  | ok x =>
    obtain ⟨api_version, header_version, header, buffer⟩ := x
    dsimp only
    cases kafka.response_header.compute_size header_version ⟨header.correlation_id⟩ with
    | none => rfl
    | some size =>
      dsimp only [Handling.request]
      rcases server.handle_kafka_request ipc json (read_request kafka header buffer) with ⟨e | _ | response, server'⟩
      · rfl
      · rfl
      · rfl

/-- One pass is a read, the handler and the reply. -/
theorem pass_eq [DecidableEq σ] (ipc : ArrowIpc σ ρ) (json : OffsetJson) (server : Server σ ρ) (task : Task) :
    Tasks.pass kafka ipc json server task = (read kafka task).map fun x => match x.2 with
      | none => (server, x.1)
      | some h => ((server.handle_kafka_request ipc json (h.request kafka)).2,
          reply kafka h (server.handle_kafka_request ipc json (h.request kafka)).1 x.1) := by
  unfold Tasks.pass read
  cases read_message_len task.input with
  | error e => cases task.closed <;> rfl
  | ok x =>
    obtain ⟨msg_len, input⟩ := x
    dsimp only
    cases readExact msg_len input with
    | none => cases task.closed <;> rfl
    | some y =>
      obtain ⟨message, input⟩ := y
      dsimp only
      rw [handle_message_eq]
      cases receive kafka message with
      | error e => rfl
      | ok h =>
        simp only [Option.map_some, reply]
        cases h.respond kafka (server.handle_kafka_request ipc json (h.request kafka)).1 <;> rfl

end

/-! ## The system -/

structure Program (ι κ σ ρ : Type) where
  kafka : KafkaCodec
  ipc : ArrowIpc σ ρ
  json : OffsetJson
  /-- What the client of a connection sends. -/
  stream : ι → Bytes
  /-- The requests of the other listener. -/
  request : κ → HerbertRequest σ

/-- Handler `n` of a connection has its message `n`. -/
def Program.message (p : Program ι κ σ ρ) (i : ι) (n : Nat) : Option Bytes := (frames.readAll (p.stream i)).1[n]?

def Program.handler (p : Program ι κ σ ρ) (i : ι) (n : Nat) : KafkaRequest :=
  match (p.message i n).map (receive p.kafka) with
  | some (.ok h) => h.request p.kafka
  | _ => .NotCovered

def Program.setup (p : Program ι κ σ ρ) : Parallel.Setup (ι × Nat ⊕ κ) σ ρ where
  ipc := p.ipc
  json _ := p.json
  request
    | .inl (i, n) => .kafka_request (p.handler i n)
    | .inr k => .herbert_request (p.request k)

/-- A connection and its task. -/
structure Conn where
  task : Task
  /-- What has not arrived. -/
  unsent : Bytes
  /-- The messages whose handlers have returned. -/
  count : Nat
  handling : Option Handling

def Conn.arrive (c : Conn) (n : Nat) : Conn :=
  { c with task := { c.task with input := c.task.input ++ c.unsent.take n }, unsent := c.unsent.drop n }

def Conn.close (c : Conn) : Conn := { c with task := { c.task with closed := true } }

structure State (ι κ σ ρ : Type) where
  server : Parallel.State (ι × Nat ⊕ κ) σ ρ
  conn : ι → Conn

def start [DecidableEq ι] [DecidableEq κ] (p : Program ι κ σ ρ) (server : Server σ ρ) : State ι κ σ ρ where
  server := Parallel.start p.setup server
  conn i := ⟨⟨[], false, [], none⟩, p.stream i, 0, none⟩

inductive Label (ι κ : Type) where
  /-- As many bytes more. -/
  | arrive (i : ι) (n : Nat)
  | close (i : ι)
  | run (i : ι)
  | create (k : κ)

section
variable [DecidableEq ι] [DecidableEq κ] [DecidableEq σ] (p : Program ι κ σ ρ)

/-- The task of connection `i` goes on. -/
def run (s : State ι κ σ ρ) (i : ι) (c : Conn) : Option (State ι κ σ ρ) :=
  match c.handling with
  | none =>
    if c.task.result.isSome then none
    else (read p.kafka c.task).map fun x =>
      { s with conn := Function.update s.conn i { c with task := x.1, handling := x.2 } }
  | some h =>
    match Parallel.outcome p.setup s.server (.inl (i, c.count)) with
    | none => (Parallel.step p.setup s.server (.inl (i, c.count))).map fun server => { s with server }
    | some result =>
      let c := { c with task := reply p.kafka h result c.task, count := c.count + 1, handling := none }
      some { s with conn := Function.update s.conn i c }

def step (s : State ι κ σ ρ) : Label ι κ → Option (State ι κ σ ρ)
  | .arrive i n =>
    if (s.conn i).task.closed then none
    else some { s with conn := Function.update s.conn i ((s.conn i).arrive n) }
  | .close i => some { s with conn := Function.update s.conn i (s.conn i).close }
  | .run i => run p s i (s.conn i)
  | .create k => (Parallel.step p.setup s.server (.inr k)).map fun server => { s with server }

/-! ## Messages in one step -/

/-- The listeners when a message, and a request of the other listener, takes one
step. -/
structure Whole (ι κ σ ρ : Type) where
  tasks : Tasks.State ι σ ρ
  created : κ → Bool

def Whole.start (server : Server σ ρ) : Whole ι κ σ ρ := ⟨Tasks.start server, fun _ => false⟩

def Program.whole (w : Whole ι κ σ ρ) : Tasks.Label ι ⊕ κ → Option (Whole ι κ σ ρ)
  | .inl l => (Tasks.step p.kafka p.ipc p.json w.tasks l).map fun tasks => { w with tasks }
  | .inr k =>
    if w.created k then none
    else some {
      tasks := { w.tasks with server := w.tasks.server.handle_herbert_connection (p.request k) }
      created := Function.update w.created k true }

end

/-- The same bytes arrive, and the same connections are closed. -/
def SameArrivals (s : State ι κ σ ρ) : Label ι κ → List (Tasks.Label ι ⊕ κ) → Prop
  | .arrive i n, ls => ls = [.inl (.arrive i ((s.conn i).unsent.take n))]
  | .close i, ls => ls = [.inl (.close i)]
  | .run _, ls | .create _, ls => ∀ l ∈ ls, (∃ i, l = .inl (.run i)) ∨ ∃ k, l = .inr k

/-! ## Where a connection is -/

theorem read_message {kafka : KafkaCodec} {task : Task} {mid m rest : Bytes} {n : Nat}
    (hlen : read_message_len task.input = .ok (n, mid)) (hread : readExact n mid = some (m, rest)) :
    read kafka task = match receive kafka m with
      | .error e => some ({ task with input := rest, result := some (.error e) }, none)
      | .ok h => some ({ task with input := rest }, some h) := by
  simp only [read, hlen, hread]

/-- What a read can be. -/
theorem read_cases {kafka : KafkaCodec} {task task' : Task} {handling : Option Handling}
    (h : read kafka task = some (task', handling)) :
    (handling = none ∧ task'.result.isSome) ∨
      ∃ hd, handling = some hd ∧ receive kafka hd.message = .ok hd ∧ hd.message.length < 2 ^ 32 ∧
        task = { task' with input := framed hd.message ++ task'.input } := by
  unfold read at h
  split at h
  · rw [Option.ite_none_right_eq_some] at h
    obtain ⟨-, h⟩ := h
    cases h
    exact .inl ⟨rfl, rfl⟩
  · rename_i msg_len mid hlen
    split at h
    · rw [Option.ite_none_right_eq_some] at h
      obtain ⟨-, h⟩ := h
      cases h
      exact .inl ⟨rfl, rfl⟩
    · rename_i message rest hread
      split at h
      · cases h
        exact .inl ⟨rfl, rfl⟩
      · rename_i hd hm
        cases h
        obtain ⟨hinput, hlt⟩ := next_framed (frames_next hlen hread)
        obtain rfl := message_of_receive hm
        refine .inr ⟨hd, rfl, hm, hlt, ?_⟩
        dsimp only
        rw [← hinput]

/-- The bytes of a message whose handler is running. -/
def inHand : Option Handling → Bytes
  | none => []
  | some h => framed h.message

/-- The messages of the connection that are handled, and the rest of its bytes. -/
structure Read (p : Program ι κ σ ρ) (i : ι) (c : Conn) (ms : List Bytes) : Prop where
  length : ms.length = c.count
  lt : ∀ m ∈ ms, m.length < 2 ^ 32
  stream : p.stream i = ms.flatMap framed ++ (inHand c.handling ++ (c.task.input ++ c.unsent))

/-- The message was read, and is not answered. -/
structure Running (p : Program ι κ σ ρ) (c : Conn) (h : Handling) : Prop where
  result : c.task.result = none
  received : receive p.kafka h.message = .ok h
  lt : h.message.length < 2 ^ 32

variable {p : Program ι κ σ ρ}

/-- The handlers of a connection are begun in order, one at a time. -/
structure Good (p : Program ι κ σ ρ) (server : Parallel.State (ι × Nat ⊕ κ) σ ρ) (i : ι) (c : Conn) : Prop where
  read : c.task.result = none → ∃ ms, Read p i c ms
  running : ∀ h, c.handling = some h → Running p c h
  begun : ∀ n, Parallel.begun p.setup server (.inl (i, n)) → n < c.count ∨ n = c.count ∧ c.handling.isSome
  returned : ∀ n, n < c.count → (Parallel.outcome p.setup server (.inl (i, n))).isSome

def Inv (p : Program ι κ σ ρ) (s : State ι κ σ ρ) : Prop := ∀ i, Good p s.server i (s.conn i)

section
variable {server : Parallel.State (ι × Nat ⊕ κ) σ ρ} {i : ι} {c : Conn}

/-- The handler that is running has the message that was read. -/
theorem Good.handler (h : Good p server i c) {hd : Handling}
    (hi : c.handling = some hd) : p.handler i c.count = hd.request p.kafka := by
  have hrun := h.running hd hi
  obtain ⟨ms, hms⟩ := h.read hrun.result
  have hstream : p.stream i = (ms ++ [hd.message]).flatMap framed ++ (c.task.input ++ c.unsent) := by
    rw [hms.stream, hi, inHand]
    simp
  have hlt : ∀ m ∈ ms ++ [hd.message], m.length < 2 ^ 32 := by
    simpa [or_imp, forall_and] using ⟨hms.lt, hrun.lt⟩
  have hmessage : p.message i c.count = some hd.message := by
    rw [Program.message, hstream, Reader.readAll_encoded frames_decodes hlt]
    simp [← hms.length]
  rw [Program.handler, hmessage, Option.map_some, hrun.received]

theorem Good.arrive (h : Good p server i c) (n : Nat) :
    Good p server i (c.arrive n) := by
  refine ⟨fun hr => ?_, fun hd hi => ?_, h.begun, h.returned⟩
  · obtain ⟨ms, hms⟩ := h.read hr
    refine ⟨ms, hms.length, hms.lt, hms.stream.trans ?_⟩
    simp only [Conn.arrive, List.append_assoc, List.take_append_drop]
  · have hrun := h.running hd hi
    exact ⟨hrun.result, hrun.received, hrun.lt⟩

theorem Good.close (h : Good p server i c) :
    Good p server i c.close := by
  refine ⟨fun hr => ?_, fun hd hi => ?_, h.begun, h.returned⟩
  · obtain ⟨ms, hms⟩ := h.read hr
    exact ⟨ms, hms.length, hms.lt, hms.stream⟩
  · have hrun := h.running hd hi
    exact ⟨hrun.result, hrun.received, hrun.lt⟩

theorem Good.next (h : Good p server i c)
    (hi : c.handling = none) (hr : c.task.result = none) {task : Task} {handling : Option Handling}
    (hread : Listeners.read p.kafka c.task = some (task, handling)) : Good p server i { c with task, handling } := by
  have hbegun : ∀ n, Parallel.begun p.setup server (.inl (i, n)) → n < c.count := by
    intro n hb
    rcases h.begun n hb with hn | ⟨-, hn⟩
    · exact hn
    · rw [hi] at hn
      cases hn
  rcases read_cases hread with ⟨rfl, hsome⟩ | ⟨hd, rfl, hm, hlt, htask⟩
  · refine ⟨fun hnone => ?_, fun hd h => (by cases h), fun n hb => .inl (hbegun n hb), h.returned⟩
    rw [show task.result = none from hnone] at hsome
    cases hsome
  · refine ⟨fun _ => ?_, fun hd' h => ?_, fun n hb => .inl (hbegun n hb), h.returned⟩
    · obtain ⟨ms, hms⟩ := h.read hr
      refine ⟨ms, hms.length, hms.lt, hms.stream.trans ?_⟩
      rw [hi, htask]
      simp only [inHand, List.append_assoc, List.nil_append]
    · cases h
      rw [htask] at hr
      exact ⟨hr, hm, hlt⟩

theorem reply_cases {kafka : KafkaCodec} (hd : Handling) (result : Except HerbertError (Option KafkaResponse))
    (task : Task) : (reply kafka hd result task).result.isSome ∨
      ∃ response, reply kafka hd result task = { task with output := task.output ++ response } := by
  unfold reply
  split
  · exact .inl rfl
  · rename_i response _
    exact .inr ⟨response, rfl⟩

theorem Good.reply (h : Good p server i c)
    {hd : Handling} (hi : c.handling = some hd) {result : Except HerbertError (Option KafkaResponse)}
    (hresult : Parallel.outcome p.setup server (.inl (i, c.count)) = some result) :
    Good p server i { c with task := Listeners.reply p.kafka hd result c.task, count := c.count + 1, handling := none } := by
  have hrun := h.running hd hi
  refine ⟨fun hnone => ?_, fun hd h => (by cases h), fun n hb => ?_, fun n hn => ?_⟩
  · obtain ⟨ms, hms⟩ := h.read hrun.result
    rcases reply_cases hd result c.task with hsome | ⟨response, hreply⟩
    · rw [show (Listeners.reply p.kafka hd result c.task).result = none from hnone] at hsome
      cases hsome
    · refine ⟨ms ++ [hd.message], by simp [hms.length], ?_, ?_⟩
      · simpa [or_imp, forall_and] using ⟨hms.lt, hrun.lt⟩
      · rw [hms.stream, hi, hreply]
        simp [inHand]
  · left
    rcases h.begun n hb with hn | ⟨rfl, -⟩
    · exact Nat.lt_succ_of_lt hn
    · exact Nat.lt_succ_self _
  · rcases Nat.lt_succ_iff_lt_or_eq.1 hn with hn | rfl
    · exact h.returned n hn
    · rw [hresult]
      rfl

end

/-! ## The invariant -/

section
variable [DecidableEq ι] {s s' : State ι κ σ ρ}

/-- A step of one connection, without its handler. -/
theorem Inv.conn (h : Inv p s) {i : ι} {c : Conn} (hc : Good p s.server i c) :
    Inv p { s with conn := Function.update s.conn i c } := by
  intro j
  by_cases hj : j = i
  · subst hj
    simpa only [Function.update_self] using hc
  · simpa only [Function.update_of_ne hj] using h j

variable [DecidableEq κ]

theorem inv_start (p : Program ι κ σ ρ) (server : Server σ ρ) : Inv p (start p server) := by
  intro i
  refine ⟨fun _ => ⟨[], rfl, by simp, rfl⟩, fun h hi => (by cases hi), fun n hb => ?_,
    fun n hn => absurd hn (Nat.not_lt_zero n)⟩
  exfalso
  unfold Parallel.begun at hb
  split at hb
  · rcases hb with hb | hb
    · exact hb _ rfl
    · exact hb rfl
  · unfold OffsetCalls.begun at hb
    split at hb
    · exact hb
    · exact hb rfl
    · exact hb rfl
  · cases hb

variable [DecidableEq σ]

/-- A step of a handler. -/
theorem Inv.server (h : Inv p s) {x : ι × Nat ⊕ κ} (hx : ∀ i n, x = .inl (i, n) →
      n = (s.conn i).count ∧ (s.conn i).handling.isSome) {server : Parallel.State (ι × Nat ⊕ κ) σ ρ}
    (hs : Parallel.step p.setup s.server x = some server) : Inv p { s with server } := by
  refine fun j => ⟨(h j).read, (h j).running, fun n hb => ?_, fun n hn => ?_⟩
  · by_cases hj : (.inl (j, n) : ι × Nat ⊕ κ) = x
    · exact .inr (hx j n hj.symm)
    · exact (h j).begun n ((Parallel.step_other hs hj).2.1 hb)
  · have hj : (.inl (j, n) : ι × Nat ⊕ κ) ≠ x := fun hj => absurd (hx j n hj.symm).1 (Nat.ne_of_lt hn)
    rw [(Parallel.step_other hs hj).1]
    exact (h j).returned n hn

theorem Inv.step (h : Inv p s) {l : Label ι κ} (hs : step p s l = some s') : Inv p s' := by
  cases l with
  | arrive i n =>
    rw [Listeners.step, Option.ite_none_left_eq_some, Option.some.injEq] at hs
    obtain ⟨-, rfl⟩ := hs
    exact h.conn ((h i).arrive n)
  | close i =>
    cases hs
    exact h.conn (h i).close
  | run i =>
    rw [Listeners.step, run] at hs
    cases hi : (s.conn i).handling with
    | none =>
      simp only [hi, Option.ite_none_left_eq_some, Option.map_eq_some_iff] at hs
      obtain ⟨hr, ⟨task, handling⟩, hread, rfl⟩ := hs
      exact h.conn ((h i).next hi (by simpa using hr) hread)
    | some hd =>
      simp only [hi] at hs
      cases hresult : Parallel.outcome p.setup s.server (.inl (i, (s.conn i).count)) with
      | none =>
        simp only [hresult, Option.map_eq_some_iff] at hs
        obtain ⟨server, hs, rfl⟩ := hs
        refine h.server ?_ hs
        rintro j n heq
        cases heq
        exact ⟨rfl, by rw [hi]; rfl⟩
      | some result =>
        simp only [hresult, Option.some.injEq] at hs
        subst hs
        exact h.conn ((h i).reply hi hresult)
  | create k =>
    obtain ⟨server, hserver, rfl⟩ := Option.map_eq_some_iff.1 hs
    refine h.server ?_ hserver
    rintro i n heq
    cases heq

end

/-! ## Messages in one step -/

abbrev Result := Except HerbertError (Option KafkaResponse)

/-- The task of a connection if messages take one step. A message is read when its
handler takes effect, and answered at once. -/
def view (kafka : KafkaCodec) (task : Task) : Option Handling → Option Result → Task
  | none, _ => task
  | some h, none => { task with input := framed h.message ++ task.input }
  | some h, some result => reply kafka h result task

section
variable {kafka : KafkaCodec} {task : Task} {h : Handling}

theorem view_closed (handling : Option Handling) (answer : Option Result) :
    (view kafka task handling answer).closed = task.closed := by
  cases handling with
  | none => rfl
  | some h =>
    cases answer with
    | none => rfl
    | some result =>
      simp only [view, reply]
      split <;> rfl

theorem view_arrive (handling : Option Handling) (answer : Option Result) (piece : Bytes) :
    view kafka { task with input := task.input ++ piece } handling answer =
      { view kafka task handling answer with input := (view kafka task handling answer).input ++ piece } := by
  cases handling with
  | none => rfl
  | some h =>
    cases answer with
    | none => simp only [view, List.append_assoc]
    | some result =>
      simp only [view, reply]
      split <;> rfl

theorem view_close (handling : Option Handling) (answer : Option Result) :
    view kafka { task with closed := true } handling answer =
      { view kafka task handling answer with closed := true } := by
  cases handling with
  | none => rfl
  | some h =>
    cases answer with
    | none => rfl
    | some result =>
      simp only [view, reply]
      split <;> rfl

theorem output_view (handling : Option Handling) (answer : Option Result) :
    task.output <+: (view kafka task handling answer).output := by
  cases handling with
  | none => exact List.prefix_rfl
  | some h =>
    cases answer with
    | none => exact List.prefix_rfl
    | some result =>
      simp only [view, reply]
      split
      · exact List.prefix_rfl
      · exact List.prefix_append _ _

/-- What was read is read again. -/
theorem read_view (hm : receive kafka h.message = .ok h) (hlt : h.message.length < 2 ^ 32) :
    read kafka (view kafka task (some h) none) = some (task, some h) := by
  rw [read_message (read_message_len_framed hlt task.input) (readExact_append _ _), hm]
  rfl

end

/-! ## The relation -/

variable [DecidableEq ι] [DecidableEq κ] [DecidableEq σ] {config : Config} {base : History σ ρ}
  {s s' : State ι κ σ ρ} {w : Whole ι κ σ ρ} {a a' : Atomic.State (ι × Nat ⊕ κ) (Server σ ρ) Result}

variable (p) in
/-- Messages take one step where their handlers take effect. -/
structure Tied (conn : ι → Conn) (a : Atomic.State (ι × Nat ⊕ κ) (Server σ ρ) Result) (w : Whole ι κ σ ρ) : Prop where
  obj : w.tasks.server = a.obj
  task : ∀ i, w.tasks.task i =
    view p.kafka (conn i).task (conn i).handling (a.answer (.inl (i, (conn i).count)))
  created : ∀ k, w.created k = (a.answer (.inr k)).isSome

variable (p config base) in
structure Rel (s : State ι κ σ ρ) (w : Whole ι κ σ ρ) : Prop where
  inv : Inv p s
  tied : ∃ a, Parallel.Rel p.setup config base s.server a ∧ Tied p s.conn a w

/-- The step in which a handler takes effect. -/
def effectOf : ι × Nat ⊕ κ → Tasks.Label ι ⊕ κ
  | .inl (i, _) => .inl (.run i)
  | .inr k => .inr k

/-- A handler that is running takes effect. -/
theorem Tied.effect (h : Tied p s.conn a w) (hinv : Inv p s) {x : ι × Nat ⊕ κ}
    (hx : ∀ i n, x = .inl (i, n) → n = (s.conn i).count ∧ (s.conn i).handling.isSome) (hnone : a.answer x = none) :
    ∃ w', p.whole w (effectOf x) = some w' ∧
      Tied p s.conn (Atomic.effect (Parallel.apply p.ipc) p.setup.requests a x) w' := by
  cases x with
  | inr k =>
    refine ⟨⟨{ w.tasks with server := w.tasks.server.handle_herbert_connection (p.request k) },
      Function.update w.created k true⟩, ?_, ?_, fun i => ?_, fun k' => ?_⟩
    · simp [effectOf, Program.whole, h.created, hnone]
    · dsimp only
      rw [h.obj]
      rfl
    · rw [Atomic.answer_effect_ne (by simp)]
      exact h.task i
    · by_cases hk : k' = k
      · subst hk
        simp
      · rw [Atomic.answer_effect_ne (by simpa using hk), ← h.created]
        exact Function.update_of_ne hk _ _
  | inl x =>
    obtain ⟨i, n⟩ := x
    obtain ⟨rfl, hsome⟩ := hx i n rfl
    obtain ⟨hd, hi⟩ := Option.isSome_iff_exists.1 hsome
    have hrun := (hinv i).running hd hi
    obtain ⟨⟨result, server⟩, happly⟩ : ∃ x, Parallel.apply p.ipc (p.setup.requests (.inl (i, (s.conn i).count))) a.obj = x :=
      ⟨_, rfl⟩
    have hcall : a.obj.handle_kafka_request p.ipc p.json (hd.request p.kafka) = (result, server) := by
      rw [← happly, ← (hinv i).handler hi]
      rfl
    have htask := h.task i
    rw [hi, hnone] at htask
    have hpass : Tasks.pass p.kafka p.ipc p.json a.obj (w.tasks.task i) =
        some (server, reply p.kafka hd result (s.conn i).task) := by
      rw [pass_eq, htask, read_view hrun.received hrun.lt, Option.map_some]
      simp only [hcall]
    have hresult : (w.tasks.task i).result = none := htask ▸ hrun.result
    refine ⟨⟨⟨server, Function.update w.tasks.task i (reply p.kafka hd result (s.conn i).task)⟩, w.created⟩, ?_, ?_,
      fun j => ?_, fun k => ?_⟩
    · simp [effectOf, Program.whole, Tasks.step, hresult, h.obj, hpass]
    · rw [Atomic.effect, happly]
    · by_cases hj : j = i
      · subst hj
        rw [Atomic.answer_effect_self, hi, happly]
        exact Function.update_self _ _ _
      · have hne : (.inl (j, (s.conn j).count) : ι × Nat ⊕ κ) ≠ .inl (i, (s.conn i).count) := by simp [hj]
        rw [Atomic.answer_effect_ne hne, ← h.task]
        exact Function.update_of_ne hj _ _
    · rw [Atomic.answer_effect_ne (by simp)]
      exact h.created k

theorem Tied.exec (h : Tied p s.conn a w) (hinv : Inv p s) {ls : List (ι × Nat ⊕ κ)}
    (hls : ∀ x ∈ ls, ∀ i n, x = .inl (i, n) → n = (s.conn i).count ∧ (s.conn i).handling.isSome)
    (he : Runs.exec (Atomic.step (Parallel.apply p.ipc) p.setup.requests) a ls = some a') :
    ∃ w', Runs.exec p.whole w (ls.map effectOf) = some w' ∧ Tied p s.conn a' w' := by
  induction ls generalizing a w with
  | nil =>
    cases he
    exact ⟨w, rfl, h⟩
  | cons x ls ih =>
    rw [Runs.exec, Option.bind_eq_some_iff] at he
    obtain ⟨a₁, h₁, h₂⟩ := he
    obtain ⟨hnone, rfl⟩ := Atomic.step_eq_some_iff.1 h₁
    obtain ⟨w₁, hw₁, htied⟩ := h.effect hinv (hls x (by simp)) hnone
    obtain ⟨w', hw', htied'⟩ := ih htied (fun y hy => hls y (List.mem_cons_of_mem _ hy)) h₂
    exact ⟨w', by rw [List.map_cons, Runs.exec, hw₁]; exact hw', htied'⟩

omit [DecidableEq κ] [DecidableEq σ] in
/-- A step of connection `i` alone. -/
theorem Tied.conn {conn : ι → Conn} (h : Tied p conn a w) {i : ι} {c : Conn} {task : ι → Task}
    (hi : task i = view p.kafka c.task c.handling (a.answer (.inl (i, c.count))))
    (hother : ∀ j, j ≠ i → task j = w.tasks.task j) :
    Tied p (Function.update conn i c) a { w with tasks := { w.tasks with task } } := by
  refine ⟨h.obj, fun j => ?_, h.created⟩
  by_cases hj : j = i
  · subst hj
    rw [Function.update_self]
    exact hi
  · rw [Function.update_of_ne hj, ← h.task]
    exact hother j hj

/-- A step of connection `i` alone, that is a step of its task. -/
theorem Tied.alone (h : Tied p s.conn a w) {i : ι} {c : Conn} {task : Task} {l : Tasks.Label ι}
    (hl : Tasks.step p.kafka p.ipc p.json w.tasks l =
      some { w.tasks with task := Function.update w.tasks.task i task })
    (hi : task = view p.kafka c.task c.handling (a.answer (.inl (i, c.count)))) :
    ∃ w', Runs.exec p.whole w [.inl l] = some w' ∧ Tied p (Function.update s.conn i c) a w' := by
  refine ⟨{ w with tasks := { w.tasks with task := Function.update w.tasks.task i task } }, ?_, h.conn ?_ ?_⟩
  · simp only [Runs.exec, Program.whole, hl, Option.map_some, Option.bind_some]
  · rw [Function.update_self]
    exact hi
  · exact fun j hj => Function.update_of_ne hj _ _

/-- A step of a handler lets handlers take effect. -/
theorem Rel.server (hn : config.num_uncommitted_messages ≤ 1) (h64 : Parallel.InRange p.setup)
    (h : Rel p config base s w) {x : ι × Nat ⊕ κ} (hx : ∀ i n, x = .inl (i, n) →
      n = (s.conn i).count ∧ (s.conn i).handling.isSome) {server : Parallel.State (ι × Nat ⊕ κ) σ ρ}
    (hs : Parallel.step p.setup s.server x = some server) :
    ∃ ls w', exec p.whole w ls = some w' ∧ (∀ l ∈ ls, (∃ i, l = .inl (.run i)) ∨ ∃ k, l = .inr k) ∧
      Rel p config base { s with server } w' := by
  obtain ⟨hinv, a, hrel, htied⟩ := h
  have hinv' := hinv.server hx hs
  obtain ⟨ls, a', he, hrel'⟩ := Parallel.rel_step hn h64 hrel hs
  have hls : ∀ y ∈ ls, ∀ i n, y = .inl (i, n) → n = (s.conn i).count ∧ (s.conn i).handling.isSome := by
    rintro y hy i n rfl
    have hbegun : Parallel.begun p.setup server (.inl (i, n)) := by
      by_contra hb
      have hanswered := Atomic.answered_exec he hy
      rw [hrel'.not_begun hb] at hanswered
      cases hanswered
    refine ((hinv' i).begun n hbegun).resolve_left fun hlt => ?_
    obtain ⟨r, hr⟩ := Option.isSome_iff_exists.1 ((hinv i).returned n hlt)
    have hpending := Atomic.pending_of_mem he hy
    rw [hrel.outcome hr] at hpending
    cases hpending
  obtain ⟨w', hw', htied'⟩ := htied.exec hinv hls he
  refine ⟨_, w', hw', fun l hl => ?_, hinv', a', hrel', htied'⟩
  obtain ⟨y, -, rfl⟩ := List.mem_map.1 hl
  cases y with
  | inl x => exact .inl ⟨x.1, rfl⟩
  | inr k => exact .inr ⟨k, rfl⟩

theorem Rel.step (hn : config.num_uncommitted_messages ≤ 1) (h64 : Parallel.InRange p.setup)
    (h : Rel p config base s w) {l : Label ι κ} (hs : step p s l = some s') :
    ∃ ls w', exec p.whole w ls = some w' ∧ SameArrivals s l ls ∧ Rel p config base s' w' := by
  have hinv' := h.inv.step hs
  cases l with
  | arrive i n =>
    rw [Listeners.step, Option.ite_none_left_eq_some, Option.some.injEq] at hs
    obtain ⟨hopen, rfl⟩ := hs
    obtain ⟨hinv, a, hrel, htied⟩ := h
    have htask := htied.task i
    have hclosed : (w.tasks.task i).closed = false := by
      rw [htask, view_closed]
      simpa using hopen
    obtain ⟨w', hw', htied'⟩ := htied.alone (c := (s.conn i).arrive n) (l := .arrive i ((s.conn i).unsent.take n))
      (by rw [Tasks.step, if_neg (by simp [hclosed])])
      (by rw [htask]; exact (view_arrive _ _ _).symm)
    exact ⟨_, w', hw', rfl, hinv', a, hrel, htied'⟩
  | close i =>
    cases hs
    obtain ⟨hinv, a, hrel, htied⟩ := h
    obtain ⟨w', hw', htied'⟩ := htied.alone (c := (s.conn i).close) (l := .close i) rfl
      (by rw [htied.task i]; exact (view_close _ _).symm)
    exact ⟨_, w', hw', rfl, hinv', a, hrel, htied'⟩
  | run i =>
    rw [Listeners.step, run] at hs
    cases hi : (s.conn i).handling with
    | none =>
      simp only [hi, Option.ite_none_left_eq_some, Option.map_eq_some_iff] at hs
      obtain ⟨hr, ⟨task, handling⟩, hread, rfl⟩ := hs
      obtain ⟨hinv, a, hrel, htied⟩ := h
      have htask := htied.task i
      rw [hi] at htask
      rcases read_cases hread with ⟨rfl, hsome⟩ | ⟨hd, rfl, hm, hlt, hinput⟩
      · -- the task has returned, in one step there too
        have hpass : Tasks.pass p.kafka p.ipc p.json w.tasks.server (w.tasks.task i) = _ := pass_eq ..
        obtain ⟨w', hw', htied'⟩ := htied.alone (c := { (s.conn i) with task, handling := none }) (l := .run i) (i := i)
          (by
            rw [Tasks.step, hpass, htask]
            simp only [view, hr, hread]
            rfl) rfl
        exact ⟨_, w', hw', fun l hl => .inl ⟨i, List.mem_singleton.1 hl⟩, hinv', a, hrel, htied'⟩
      · -- the handler has yet to take effect
        have hnone : a.answer (.inl (i, (s.conn i).count)) = none := by
          refine hrel.not_begun fun hb => ?_
          rcases (hinv i).begun _ hb with hlt | ⟨-, hsome⟩
          · exact absurd hlt (Nat.lt_irrefl _)
          · rw [hi] at hsome
            cases hsome
        refine ⟨[], w, rfl, by simp [SameArrivals], hinv', a, hrel, htied.conn ?_ fun j _ => rfl⟩
        rw [htask, hnone]
        exact hinput
    | some hd =>
      simp only [hi] at hs
      cases hresult : Parallel.outcome p.setup s.server (.inl (i, (s.conn i).count)) with
      | none =>
        simp only [hresult, Option.map_eq_some_iff] at hs
        obtain ⟨server, hs, rfl⟩ := hs
        refine h.server hn h64 ?_ hs
        rintro j n heq
        cases heq
        exact ⟨rfl, by rw [hi]; rfl⟩
      | some result =>
        simp only [hresult, Option.some.injEq] at hs
        subst hs
        obtain ⟨hinv, a, hrel, htied⟩ := h
        refine ⟨[], w, rfl, by simp [SameArrivals], hinv', a, hrel, htied.conn ?_ fun j _ => rfl⟩
        rw [htied.task i, hi, hrel.outcome hresult]
        rfl
  | create k =>
    obtain ⟨server, hserver, rfl⟩ := Option.map_eq_some_iff.1 hs
    refine h.server hn h64 ?_ hserver
    rintro i n heq
    cases heq

/-! ## The offsets of a commit -/

/-- The protocol has 64 bits for an offset. -/
def Int64Offsets (kafka : KafkaCodec) : Prop := ∀ version buffer request rest,
  kafka.offset_commit_request.decode version buffer = some (request, rest) →
    ∀ t ∈ request.topics, ∀ x ∈ t.partitions, OffsetRecovery.IsI64 x.committed_offset

omit [DecidableEq σ] in
theorem op_commit {request : KafkaRequest} {g topic : String} {o : Int}
    (h : (request.op : Broker.Op σ) = .commit g topic o) :
    ∃ partitions topics, request = .OffsetCommit (some ⟨g, ⟨topic, ⟨o⟩ :: partitions⟩ :: topics⟩) := by
  unfold KafkaRequest.op at h
  split at h <;> cases h
  exact ⟨_, _, rfl⟩

theorem request_commit {kafka : KafkaCodec} {hd : Handling} {request : OffsetCommitRequest}
    (h : hd.request kafka = .OffsetCommit (some request)) :
    ∃ version buffer rest, kafka.offset_commit_request.decode version buffer = some (request, rest) := by
  unfold Handling.request read_request at h
  split at h
  · cases h
  · rw [KafkaRequest.OffsetCommit.injEq, Option.map_eq_some_iff] at h
    obtain ⟨x, hx, rfl⟩ := h
    exact ⟨_, _, _, hx⟩
  · cases h
  · cases h
  · cases h

omit [DecidableEq ι] [DecidableEq κ] [DecidableEq σ] in
theorem in_range (hk : Int64Offsets p.kafka) : Parallel.InRange p.setup := by
  intro x g t o h
  cases x with
  | inr k =>
    cases hrequest : p.request k with
    | CreateTopic topic schema =>
      simp only [Program.setup, hrequest, herbert.Request.op, HerbertRequest.op] at h
      cases h
  | inl x =>
    obtain ⟨partitions, topics, hcommit⟩ := op_commit h
    unfold Program.handler at hcommit
    split at hcommit
    · obtain ⟨version, buffer, rest, hdecode⟩ := request_commit hcommit
      exact hk version buffer _ rest hdecode _ (List.mem_cons_self ..) _ (List.mem_cons_self ..)
    · cases hcommit

open Lib.Codec in
theorem int64Offsets_pocketKafka : Int64Offsets pocketKafka := by
  intro version buffer request rest h
  have hread : (Format.offset_commit_request version).Reads fun r =>
      ∀ t ∈ r.topics, ∀ x ∈ t.partitions, OffsetRecovery.IsI64 x.committed_offset := by
    unfold Format.offset_commit_request
    split
    · intro a bs rest h
      cases h
    · refine (((reads_any _).seq (Reads.array
        (P := fun t => ∀ x ∈ t.partitions, OffsetRecovery.IsI64 x.committed_offset) ?_ _)).trail _).via ?_
      · refine (((reads_any _).seq (Reads.array
          (P := fun x => OffsetRecovery.IsI64 x.committed_offset) ?_ _)).trail _).via ?_
        · refine (((reads_int 8).lead _).trail _).via fun i x hi hx => ?_
          cases hx
          have hpow : (256 ^ 8 : Int) = 2 * 2 ^ 63 := by decide
          show OffsetRecovery.IsI64 i
          unfold OffsetRecovery.IsI64
          omega
        · intro x t hx ht
          cases ht
          exact hx.2
      · intro x r hx hr
        cases hr
        exact hx.2
  exact hread request buffer rest h

/-! ## Whole runs -/

theorem rel_start {server : Server σ ρ} (h : Managers.Recovered p.ipc base server.topic_manager) :
    Rel p server.topic_manager.wal.config base (start p server) (Whole.start server) :=
  ⟨inv_start p server, _, Parallel.rel_start p.setup h, rfl, fun _ => rfl, fun _ => rfl⟩

variable (p) in
/-- What the listeners and their clients have in common with listeners that handle
a message in one step. -/
structure Seen (s : State ι κ σ ρ) (w : Whole ι κ σ ρ) : Prop where
  task : ∀ i, (s.conn i).handling = none → w.tasks.task i = (s.conn i).task
  output : ∀ i, (s.conn i).task.output <+: (w.tasks.task i).output
  begun : ∀ k, w.created k → Parallel.begun p.setup s.server (.inr k)
  created : ∀ k, (Parallel.outcome p.setup s.server (.inr k)).isSome → w.created k
  /-- While no handler is running. -/
  server : (∀ i, (s.conn i).handling = none) →
    (∀ k, Parallel.begun p.setup s.server (.inr k) → (Parallel.outcome p.setup s.server (.inr k)).isSome) →
    s.server.server.topic_manager.topic_metadatas = w.tasks.server.topic_manager.topic_metadatas ∧
      (∀ t, s.server.server.topic_manager.backend.queue t = w.tasks.server.topic_manager.backend.queue t) ∧
      s.server.server.topic_manager.wal.buffer = w.tasks.server.topic_manager.wal.buffer ∧
      s.server.server.topic_manager.wal.file.contents = w.tasks.server.topic_manager.wal.file.contents ∧
      s.server.server.offset_manager.offsets = w.tasks.server.offset_manager.offsets

theorem Rel.seen (hn : config.num_uncommitted_messages ≤ 1) (h : Rel p config base s w) : Seen p s w := by
  obtain ⟨hinv, a, hrel, htied⟩ := h
  refine ⟨fun i hi => ?_, fun i => ?_, fun k hk => ?_, fun k hk => ?_, fun hidle hreturned => ?_⟩
  · rw [htied.task, hi]
    rfl
  · rw [htied.task]
    exact output_view _ _
  · by_contra hb
    rw [htied.created, hrel.not_begun hb] at hk
    cases hk
  · obtain ⟨r, hr⟩ := Option.isSome_iff_exists.1 hk
    rw [htied.created, hrel.outcome hr]
    rfl
  · rw [htied.obj]
    refine hrel.final hn fun x hx => ?_
    cases x with
    | inr k => exact hreturned k hx
    | inl x =>
      rcases (hinv x.1).begun x.2 hx with hlt | ⟨-, hsome⟩
      · exact (hinv x.1).returned x.2 hlt
      · rw [hidle] at hsome
        cases hsome

/-- With at most one uncommitted message the threads make no difference. Beside
every run of the listeners, however the handlers interleave, there is a run in
which each message is handled in one step: the same bytes arrive at the same
times, every connection has been written a prefix of what it is written there, and
exactly that when its handler has returned; while no handler is running, the
server is the same. -/
theorem listeners_atomic {server : Server σ ρ} (h : Managers.Recovered p.ipc base server.topic_manager)
    (hn : server.topic_manager.wal.config.num_uncommitted_messages ≤ 1) (hk : Int64Offsets p.kafka) {tr}
    (hr : Run (step p) (start p server) tr s) :
    ∃ both w, Run (beside (step p) p.whole) (start p server, Whole.start server) both (s, w) ∧
      both.map (fun x => (x.1.1, x.2.1)) = tr ∧ Always (fun x l => SameArrivals x.1 l.1 l.2) both ∧
      Throughout (fun x => Seen p x.1 x.2) both (s, w) := by
  obtain ⟨both, w, hboth, hfirst, hsame, hpast, hlast⟩ := hr.beside
    (Rel p server.topic_manager.wal.config base) (fun s _ => SameArrivals s) (rel_start h)
    fun s w l s' hrel hs => hrel.step hn (in_range hk) hs
  exact ⟨both, w, hboth, hfirst, hsame, fun x hx => (hpast x hx).seen hn, hlast.seen hn⟩

/-- Two connections ask for an offset while a topic is created. The message of the
one is read before that of the other and answered behind it. -/
theorem listeners_atomic_pocket :
    let p : Program Bool Unit UInt8 UInt8 :=
      ⟨pocketKafka, pocketIpc, plainJson, fun _ => framed committed_request.message, fun _ => .CreateTopic "t" none⟩
    let labels := [.arrive true 5, .arrive false 20, .arrive true 20, .arrive false 20, .run true, .run false,
      .run true, .run false, .run false, .run false, .create (), .run true, .run true]
    ∃ tr s both w, Run (step p) (start p (.new ⟨1⟩)) tr s ∧ tr.map (·.2) = labels ∧
      Run (beside (step p) p.whole) (start p (.new ⟨1⟩), Whole.start (.new ⟨1⟩)) both (s, w) ∧
      Always (fun x l => SameArrivals x.1 l.1 l.2) both ∧ Throughout (fun x => Seen p x.1 x.2) both (s, w) := by
  intro p labels
  obtain ⟨s, he⟩ := Option.isSome_iff_exists.1 (show (exec (step p) (start p (.new ⟨1⟩)) labels).isSome by decide +kernel)
  obtain ⟨tr, hr, hl⟩ := Run.nil.exec he
  obtain ⟨both, w, hboth, -, hsame, hseen⟩ :=
    listeners_atomic (Managers.recovered_new ⟨1⟩) (Nat.le_refl 1) int64Offsets_pocketKafka hr
  exact ⟨tr, s, both, w, hr, hl, hboth, hsame, hseen⟩

end herbert.Listeners
