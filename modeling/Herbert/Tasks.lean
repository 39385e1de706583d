import Mathlib.Logic.Function.Basic
import Herbert.Framing
import Herbert.Lib.Runs
/-!
# The tasks of the Kafka listener

`run_kafka_listener` spawns a task for each connection, and all of them work on one
server. Bytes arrive in pieces of any size, on any connection next. A task goes
on once a whole message has arrived, or once its client has closed the
connection. The handlers do not await, so here a message is handled in one step;
`AllLocks` has the steps in which handlers on two threads interleave.

The pieces do not matter: the server is what the messages make of it in the order
they were handled, and each connection's messages are the frames of its bytes
(`connections_serialize`). On one connection alone this is
`handle_kafka_connection` on all bytes at once (`pieces_do_not_matter`).
-/
open Lib Lib.Bytes Lib.Runs herbert.Connection herbert.Framing

namespace herbert.Tasks

variable {ι σ ρ : Type}

/-! ## The system -/

/-- The task of a connection. -/
structure Task where
  /-- What has arrived and is not read. -/
  input : Bytes
  closed : Bool
  output : Bytes
  /-- How it has returned. -/
  result : Option (Except Fault Unit)

structure State (ι σ ρ : Type) where
  server : Server σ ρ
  task : ι → Task

/-- A server that nobody has sent anything yet. -/
def start (server : Server σ ρ) : State ι σ ρ := ⟨server, fun _ => ⟨[], false, [], none⟩⟩

inductive Label (ι : Type) where
  | arrive (i : ι) (piece : Bytes)
  | close (i : ι)
  | run (i : ι)

section
variable (kafka : KafkaCodec) [DecidableEq σ] (ipc : ArrowIpc σ ρ) (json : OffsetJson)

/-- One pass of the loop in `handle_kafka_connection`; `none` if it waits for more
bytes. -/
def pass (server : Server σ ρ) (task : Task) : Option (Server σ ρ × Task) :=
  match read_message_len task.input with
  | .error e => if task.closed then some (server, { task with result := some (.error e) }) else none
  | .ok (msg_len, input) =>
    match readExact msg_len input with
    | none => if task.closed then some (server, { task with result := some (.ok ()) }) else none
    | some (message, input) =>
      match handle_message kafka ipc json server message with
      | (.error e, server) => some (server, { task with input, result := some (.error e) })
      | (.ok response, server) => some (server, { task with input, output := task.output ++ response })

variable [DecidableEq ι]

def step (s : State ι σ ρ) : Label ι → Option (State ι σ ρ)
  | .arrive i piece =>
    if (s.task i).closed then none
    else some { s with task := Function.update s.task i { s.task i with input := (s.task i).input ++ piece } }
  | .close i => some { s with task := Function.update s.task i { s.task i with closed := true } }
  | .run i =>
    if (s.task i).result.isSome then none
    else (pass kafka ipc json s.server (s.task i)).map fun x => ⟨x.1, Function.update s.task i x.2⟩

end

/-! ## What a run has handled -/

/-- The bytes that arrived on a connection. -/
def received [DecidableEq ι] (tr : List (State ι σ ρ × Label ι)) (i : ι) : Bytes :=
  tr.flatMap fun x => match x.2 with
    | .arrive j piece => if j = i then piece else []
    | _ => []

/-- The message that a step handles. -/
def message (s : State ι σ ρ) : Label ι → Option (ι × Bytes)
  | .run i => (frames.next (s.task i).input).toOption.map fun x => (i, x.1)
  | _ => none

/-- The messages in the order they were handled, each with its connection. -/
def handled (tr : List (State ι σ ρ × Label ι)) : List (ι × Bytes) := tr.filterMap fun x => message x.1 x.2

/-- The messages of one connection. -/
def messagesOf [DecidableEq ι] (log : List (ι × Bytes)) (i : ι) : List Bytes :=
  (log.filter fun x => x.1 = i).map (·.2)

section
variable (kafka : KafkaCodec) [DecidableEq σ] (ipc : ArrowIpc σ ρ) (json : OffsetJson)

/-- The server after some messages. -/
def serve (server : Server σ ρ) (log : List (ι × Bytes)) : Server σ ρ :=
  log.foldl (fun server x => (handle_message kafka ipc json server x.2).2) server

/-- What a connection is written when the server handles some messages. -/
def responses [DecidableEq ι] (i : ι) : Server σ ρ → List (ι × Bytes) → Bytes
  | _, [] => []
  | server, x :: log =>
    (if x.1 = i then (handle_message kafka ipc json server x.2).1.toOption.getD [] else []) ++
      responses i (handle_message kafka ipc json server x.2).2 log

end

/-! ## One pass -/

theorem next_cases (input : Bytes) :
    (∃ e, read_message_len input = .error e ∧ frames.next input = .error ()) ∨
    (∃ n rest, read_message_len input = .ok (n, rest) ∧ readExact n rest = none ∧ frames.next input = .error ()) ∨
    ∃ n mid message rest, read_message_len input = .ok (n, mid) ∧ readExact n mid = some (message, rest) ∧
      frames.next input = .ok (message, rest) := by
  cases hlen : read_message_len input with
  | error e => exact .inl ⟨e, rfl, by simp only [frames, hlen]⟩
  | ok x =>
    cases hread : readExact x.1 x.2 with
    | none => exact .inr (.inl ⟨x.1, x.2, rfl, hread, by simp only [frames, hlen, hread]⟩)
    | some y => exact .inr (.inr ⟨x.1, x.2, y.1, y.2, rfl, hread, by simp only [frames, hlen, hread]⟩)

theorem read_message_len_framed {m : Bytes} (hm : m.length < 2 ^ 32) (rest : Bytes) :
    read_message_len (framed m ++ rest) = .ok (m.length, m ++ rest) := by
  have hlen := read_message_len_be m.length (m ++ rest)
  rw [Nat.mod_eq_of_lt hm, ← List.append_assoc] at hlen
  exact hlen

theorem frames_next {input mid m rest : Bytes} {n : Nat} (hlen : read_message_len input = .ok (n, mid))
    (hread : readExact n mid = some (m, rest)) : frames.next input = .ok (m, rest) := by
  simp only [frames, hlen, hread]

theorem frames_decodes : frames.Decodes framed id fun m : Bytes => m.length < 2 ^ 32 :=
  fun m rest hm => frames_next (read_message_len_framed hm rest) (readExact_append m rest)

/-- A frame that is read is the message behind its length. -/
theorem next_framed {input message rest : Bytes} (h : frames.next input = .ok (message, rest)) :
    input = framed message ++ rest ∧ message.length < 2 ^ 32 := by
  rcases next_cases input with ⟨e, -, he⟩ | ⟨n, rest', -, -, he⟩ | ⟨n, mid, message', rest', hlen, hread, hnext⟩
  · rw [he] at h
    cases h
  · rw [he] at h
    cases h
  · rw [hnext] at h
    cases h
    unfold read_message_len at hlen
    split at hlen
    · cases hlen
    · rename_i len_buf mid' hbuf
      cases hlen
      obtain ⟨rfl, hfour⟩ := readExact_eq_some hbuf
      obtain ⟨rfl, hn⟩ := readExact_eq_some hread
      have hlt := ofBe_lt len_buf
      rw [hfour] at hlt
      have hbe : be 4 (ofBe len_buf) = len_buf := by
        refine ofBe_inj (by rw [length_be, hfour]) ?_
        rw [ofBe_be, Nat.mod_eq_of_lt hlt]
      refine ⟨by rw [framed, hn, hbe, List.append_assoc], ?_⟩
      rw [hn]
      exact Nat.lt_of_lt_of_eq hlt (by decide)

section
variable {kafka : KafkaCodec} [DecidableEq σ] {ipc : ArrowIpc σ ρ} {json : OffsetJson}

variable (kafka ipc json) in
/-- What one pass can be. -/
inductive Pass (server : Server σ ρ) (task : Task) : Server σ ρ → Task → Prop
  | ended (result) : frames.next task.input = .error () → task.closed = true →
      handle_kafka_connection kafka ipc json server task.input = (result, [], server) →
      Pass server task server { task with result := some result }
  | failed (message rest e server') : frames.next task.input = .ok (message, rest) →
      handle_message kafka ipc json server message = (.error e, server') →
      Pass server task server' { task with input := rest, result := some (.error e) }
  | handled (message rest response server') : frames.next task.input = .ok (message, rest) →
      handle_message kafka ipc json server message = (.ok response, server') →
      Pass server task server' { task with input := rest, output := task.output ++ response }

theorem pass_cases {server server' : Server σ ρ} {task task' : Task}
    (h : pass kafka ipc json server task = some (server', task')) : Pass kafka ipc json server task server' task' := by
  unfold pass at h
  rcases next_cases task.input with ⟨e, hlen, hnext⟩ | ⟨n, rest, hlen, hread, hnext⟩ | ⟨n, mid, message, rest, hlen, hread, hnext⟩
  · rw [hlen, Option.ite_none_right_eq_some] at h
    obtain ⟨hclosed, h⟩ := h
    cases h
    refine .ended _ hnext hclosed ?_
    rw [handle_kafka_connection, connection_loop]
    split
    · rename_i e' he'
      rw [hlen] at he'
      cases he'
      rfl
    · rename_i he'
      rw [hlen] at he'
      cases he'
  · rw [hlen] at h
    simp only [hread, Option.ite_none_right_eq_some] at h
    obtain ⟨hclosed, h⟩ := h
    cases h
    refine .ended _ hnext hclosed ?_
    rw [handle_kafka_connection, connection_loop]
    split
    · rename_i he'
      rw [hlen] at he'
      cases he'
    · rename_i n' rest' he'
      rw [hlen] at he'
      cases he'
      split
      · rfl
      · rename_i hread'
        rw [hread] at hread'
        cases hread'
  · rw [hlen] at h
    simp only [hread] at h
    split at h
    · rename_i e server₁ hmsg
      cases h
      exact .failed message rest e server' hnext hmsg
    · rename_i response server₁ hmsg
      cases h
      exact .handled message rest response server' hnext hmsg

/-- What `handle_kafka_connection` does with the input of a pass. -/
theorem connection_next {server : Server σ ρ} {input message rest : Bytes} (h : frames.next input = .ok (message, rest))
    (future : Bytes) :
    handle_kafka_connection kafka ipc json server (input ++ future) =
      match handle_message kafka ipc json server message with
      | (.error e, server) => (.error e, [], server)
      | (.ok response, server) =>
        let (result, output, server) := handle_kafka_connection kafka ipc json server (rest ++ future)
        (result, response ++ output, server) := by
  obtain ⟨rfl, hlt⟩ := next_framed h
  rw [List.append_assoc]
  exact handle_kafka_connection_framed kafka ipc json server hlt (rest ++ future)

/-- A step leaves the server to the message that it handles, if any. -/
theorem server_step [DecidableEq ι] {s s' : State ι σ ρ} {l : Label ι} (hs : step kafka ipc json s l = some s') :
    s'.server = (message s l).elim s.server fun x => (handle_message kafka ipc json s.server x.2).2 := by
  cases l with
  | arrive i piece =>
    rw [step, Option.ite_none_left_eq_some, Option.some.injEq] at hs
    obtain ⟨-, rfl⟩ := hs
    rfl
  | close i =>
    cases hs
    rfl
  | run i =>
    rw [step, Option.ite_none_left_eq_some, Option.map_eq_some_iff] at hs
    obtain ⟨-, ⟨server', task'⟩, hpass, rfl⟩ := hs
    cases pass_cases hpass with
    | ended result hnext => simp [message, hnext, Except.toOption]
    | failed m rest e server' hnext hmsg | handled m rest response server' hnext hmsg =>
      simp [message, hnext, Except.toOption, hmsg]

/-! ## Any number of connections -/

theorem responses_append [DecidableEq ι] (i : ι) (server : Server σ ρ) (log log' : List (ι × Bytes)) :
    responses kafka ipc json i server (log ++ log') =
      responses kafka ipc json i server log ++ responses kafka ipc json i (serve kafka ipc json server log) log' := by
  induction log generalizing server with
  | nil => rfl
  | cons x log ih => rw [List.cons_append, responses, responses, ih, List.append_assoc]; rfl

variable [DecidableEq ι] {server₀ : Server σ ρ} {tr : List (State ι σ ρ × Label ι)} {s s' : State ι σ ρ}

variable (kafka ipc json server₀) in
/-- The server and the connections, in terms of the messages handled. -/
structure Serialized (tr : List (State ι σ ρ × Label ι)) (s : State ι σ ρ) : Prop where
  server : s.server = serve kafka ipc json server₀ (handled tr)
  /-- A connection's messages are the first frames of its bytes; the rest waits. -/
  input : ∀ i, received tr i = (messagesOf (handled tr) i).flatMap framed ++ (s.task i).input
  output : ∀ i, (s.task i).output = responses kafka ipc json i server₀ (handled tr)
  /-- A task that returns `Ok` has handled every whole message. -/
  returned : ∀ i, (s.task i).result = some (.ok ()) → (s.task i).closed ∧ frames.next (s.task i).input = .error ()

/-- A step of one connection that handles no message. -/
theorem Serialized.keep (h : Serialized kafka ipc json server₀ tr s) {l : Label ι} {i : ι} {task : Task} {piece : Bytes}
    (hmessage : message s l = none) (hreceived : ∀ j, received [(s, l)] j = if j = i then piece else [])
    (htask : s'.task = Function.update s.task i task) (hserver : s'.server = s.server)
    (hinput : task.input = (s.task i).input ++ piece) (houtput : task.output = (s.task i).output)
    (hreturned : task.result = some (.ok ()) → task.closed ∧ frames.next task.input = .error ()) :
    Serialized kafka ipc json server₀ (tr ++ [(s, l)]) s' := by
  have hhandled : handled (tr ++ [(s, l)]) = handled tr := by simp [handled, hmessage]
  have hall : ∀ j, received (tr ++ [(s, l)]) j = received tr j ++ received [(s, l)] j := by simp [received]
  refine ⟨by rw [hserver, hhandled]; exact h.server, fun j => ?_, fun j => ?_, fun j => ?_⟩
  · rw [hall, hreceived, hhandled, h.input, htask]
    by_cases hj : j = i
    · subst hj
      rw [if_pos rfl, Function.update_self, hinput, List.append_assoc]
    · rw [if_neg hj, Function.update_of_ne hj, List.append_nil]
  · rw [hhandled, htask]
    by_cases hj : j = i
    · subst hj
      rw [Function.update_self, houtput]
      exact h.output j
    · rw [Function.update_of_ne hj]
      exact h.output j
  · rw [htask]
    by_cases hj : j = i
    · subst hj
      rw [Function.update_self]
      exact hreturned
    · rw [Function.update_of_ne hj]
      exact h.returned j

/-- A step that handles a message. -/
theorem Serialized.handle (h : Serialized kafka ipc json server₀ tr s) {i : ι} {m rest : Bytes} {task : Task}
    (hnext : frames.next (s.task i).input = .ok (m, rest)) (htask : s'.task = Function.update s.task i task)
    (hserver : s'.server = (handle_message kafka ipc json s.server m).2) (hinput : task.input = rest)
    (houtput : task.output = (s.task i).output ++ (handle_message kafka ipc json s.server m).1.toOption.getD [])
    (hreturned : task.result ≠ some (.ok ())) : Serialized kafka ipc json server₀ (tr ++ [(s, .run i)]) s' := by
  have hhandled : handled (tr ++ [(s, .run i)]) = handled tr ++ [(i, m)] := by
    simp [handled, message, hnext, Except.toOption]
  have hreceived : ∀ j, received (tr ++ [(s, .run i)]) j = received tr j := by simp [received]
  refine ⟨?_, fun j => ?_, fun j => ?_, fun j => ?_⟩
  · rw [hserver, h.server, hhandled, serve, serve, List.foldl_append]
    rfl
  · rw [hreceived, hhandled, h.input, htask]
    by_cases hj : j = i
    · subst hj
      rw [Function.update_self, hinput, (next_framed hnext).1]
      simp [messagesOf]
    · rw [Function.update_of_ne hj]
      simp [messagesOf, Ne.symm hj]
  · rw [hhandled, htask, responses_append, ← h.output, ← h.server]
    by_cases hj : j = i
    · subst hj
      rw [Function.update_self, houtput]
      simp [responses]
    · rw [Function.update_of_ne hj]
      simp [responses, Ne.symm hj]
  · rw [htask]
    by_cases hj : j = i
    · subst hj
      rw [Function.update_self]
      exact fun hr => absurd hr hreturned
    · rw [Function.update_of_ne hj]
      exact h.returned j

theorem Serialized.step (h : Serialized kafka ipc json server₀ tr s) {l : Label ι}
    (hs : Tasks.step kafka ipc json s l = some s') : Serialized kafka ipc json server₀ (tr ++ [(s, l)]) s' := by
  cases l with
  | arrive i piece =>
    rw [Tasks.step, Option.ite_none_left_eq_some, Option.some.injEq] at hs
    obtain ⟨hopen, rfl⟩ := hs
    exact h.keep rfl (by simp [received, eq_comm]) rfl rfl rfl rfl fun hr => absurd (h.returned i hr).1 hopen
  | close i =>
    cases hs
    exact h.keep rfl (by simp [received]) rfl rfl (List.append_nil _).symm rfl fun hr => ⟨rfl, (h.returned i hr).2⟩
  | run i =>
    rw [Tasks.step, Option.ite_none_left_eq_some, Option.map_eq_some_iff] at hs
    obtain ⟨hrunning, ⟨server', task'⟩, hpass, rfl⟩ := hs
    cases pass_cases hpass with
    | ended result hnext hclosed =>
      exact h.keep (by simp [message, hnext, Except.toOption]) (by simp [received]) rfl rfl (List.append_nil _).symm rfl
        fun _ => ⟨hclosed, hnext⟩
    | failed m rest e server' hnext hmsg =>
      exact h.handle hnext rfl (by rw [hmsg]) rfl (by rw [hmsg]; exact (List.append_nil _).symm) (by simp)
    | handled m rest response server' hnext hmsg =>
      exact h.handle hnext rfl (by rw [hmsg]) rfl (by rw [hmsg]; rfl) fun hr => hrunning (by rw [hr]; rfl)

/-- However the bytes of any number of connections arrive, and in whatever order
the tasks go on, the messages are handled one after the other: the server is what
they make of it, each connection has the responses to its messages, in order, and
these messages are the frames of the bytes that arrived on it. -/
theorem connections_serialize {tr} (hr : Run (Tasks.step kafka ipc json) (start server₀) tr s) :
    Serialized kafka ipc json server₀ tr s := by
  induction hr with
  | nil => exact ⟨rfl, fun _ => rfl, fun _ => rfl, fun _ h => by cases h⟩
  | snoc hr hs ih => exact ih.step hs

/-- Two connections with one message each, the pieces of which come in turn. -/
theorem connections_serialize_two :
    let m := framed committed_request.message
    let labels := [.arrive false (m.take 3), .arrive true (m.take 20), .arrive false (m.drop 3), .arrive true (m.drop 20),
      .run true, .run false]
    ∃ tr, ∃ s : State Bool UInt8 UInt8, Run (Tasks.step pocketKafka pocketIpc plainJson) (start (.new ⟨1⟩)) tr s ∧
      tr.map (·.2) = labels ∧
      ∀ i, (s.task i).output = responses pocketKafka pocketIpc plainJson i (.new ⟨1⟩) (handled tr) := by
  intro m labels
  obtain ⟨s, he⟩ := Option.isSome_iff_exists.1 (show (exec (Tasks.step pocketKafka pocketIpc plainJson)
    (start (.new ⟨1⟩)) labels).isSome by decide +kernel)
  obtain ⟨tr, hr, hl⟩ := Run.nil.exec he
  exact ⟨tr, s, hr, hl, (connections_serialize hr).output⟩

/-! ## One connection alone -/

/-- The connection of a label. -/
def Label.of : Label ι → ι
  | .arrive i _ | .close i | .run i => i

variable (kafka ipc json server₀) in
/-- Where `handle_kafka_connection` is on all bytes of the connection. -/
structure Alone (i : ι) (tr : List (State ι σ ρ × Label ι)) (s : State ι σ ρ) : Prop where
  running : (s.task i).result = none → ∀ future,
    handle_kafka_connection kafka ipc json server₀ (received tr i ++ future) =
      let (result, output, server) := handle_kafka_connection kafka ipc json s.server ((s.task i).input ++ future)
      (result, (s.task i).output ++ output, server)
  returned : ∀ result, (s.task i).result = some result → ∀ future, ((s.task i).closed → future = []) →
    handle_kafka_connection kafka ipc json server₀ (received tr i ++ future) = (result, (s.task i).output, s.server)

theorem Alone.step {i : ι} (h : Alone kafka ipc json server₀ i tr s) {l : Label ι} (hl : l.of = i)
    (hs : Tasks.step kafka ipc json s l = some s') : Alone kafka ipc json server₀ i (tr ++ [(s, l)]) s' := by
  have hreceived : received (tr ++ [(s, l)]) i = received tr i ++ received [(s, l)] i := by simp [received]
  subst hl
  cases l with
  | arrive i piece =>
    rw [Tasks.step, Option.ite_none_left_eq_some, Option.some.injEq] at hs
    obtain ⟨hopen, rfl⟩ := hs
    have hpiece : received [(s, .arrive i piece)] i = piece := by simp [received]
    refine ⟨fun hr future => ?_, fun result hr future _ => ?_⟩ <;>
      simp only [Label.of, Function.update_self] at hr hreceived ⊢ <;>
      rw [hreceived, hpiece, List.append_assoc]
    · rw [List.append_assoc]
      exact h.running hr (piece ++ future)
    · exact h.returned result hr (piece ++ future) fun hclosed => absurd hclosed hopen
  | close i =>
    cases hs
    have hnone : received [(s, .close i)] i = [] := by simp [received]
    refine ⟨fun hr future => ?_, fun result hr future hfuture => ?_⟩ <;>
      simp only [Label.of, Function.update_self] at hr hreceived ⊢ <;> rw [hreceived, hnone, List.append_nil]
    · exact h.running hr future
    · simp only [Label.of, Function.update_self] at hfuture
      exact h.returned result hr future fun _ => hfuture trivial
  | run i =>
    rw [Tasks.step, Option.ite_none_left_eq_some, Option.map_eq_some_iff] at hs
    obtain ⟨hrunning, ⟨server', task'⟩, hpass, rfl⟩ := hs
    have hnone : received [(s, .run i)] i = [] := by simp [received]
    have hwas : (s.task i).result = none := by simpa using hrunning
    simp only [Label.of] at hreceived h ⊢
    cases pass_cases hpass with
    | ended result hnext hclosed hend =>
      refine ⟨fun hr => ?_, fun result' hr future hfuture => ?_⟩
      · simp at hr
      · simp only [Function.update_self, Option.some.injEq] at hr hfuture ⊢
        subst hr
        rw [hfuture hclosed, hreceived, hnone, List.append_nil, h.running hwas, List.append_nil, hend]
        simp
    | failed m rest e server' hnext hmsg =>
      refine ⟨fun hr => ?_, fun result' hr future hfuture => ?_⟩
      · simp at hr
      · simp only [Function.update_self, Option.some.injEq] at hr ⊢
        subst hr
        rw [hreceived, hnone, List.append_nil, h.running hwas, connection_next hnext, hmsg]
        simp
    | handled m rest response server' hnext hmsg =>
      refine ⟨fun hr future => ?_, fun result' hr => ?_⟩
      · simp only [Function.update_self] at hr ⊢
        rw [hreceived, hnone, List.append_nil, h.running hwas, connection_next hnext, hmsg]
        simp
      · simp only [Function.update_self] at hr
        rw [hwas] at hr
        cases hr

/-- On one connection alone the pieces do not matter: when its task has returned, its
result, what it has written and the server are those of `handle_kafka_connection`
on all its bytes at once. -/
theorem pieces_do_not_matter {i : ι} {tr} (hr : Run (Tasks.step kafka ipc json) (start server₀) tr s)
    (hi : Always (fun _ l => l.of = i) tr) {result : Except Fault Unit} (hresult : (s.task i).result = some result) :
    handle_kafka_connection kafka ipc json server₀ (received tr i) = (result, (s.task i).output, s.server) := by
  have halone : Alone kafka ipc json server₀ i tr s := by
    clear hresult
    induction hr with
    | nil =>
      refine ⟨fun _ future => ?_, fun _ h => by cases h⟩
      simp [received, start]
    | snoc hr hs ih =>
      rw [always_snoc] at hi
      exact (ih hi.1).step hi.2 hs
  have := halone.returned result hresult [] fun _ => rfl
  rwa [List.append_nil] at this

end

/-- A message that comes in two pieces. -/
theorem pieces_do_not_matter_two :
    let m := framed committed_request.message
    let labels : List (Label Unit) := [.arrive () (m.take 3), .arrive () (m.drop 3), .run (), .close (), .run ()]
    ∃ tr, ∃ s : State Unit UInt8 UInt8, Run (Tasks.step pocketKafka pocketIpc plainJson) (start (.new ⟨1⟩)) tr s ∧
      tr.map (·.2) = labels ∧
      handle_kafka_connection pocketKafka pocketIpc plainJson (.new ⟨1⟩) (received tr ()) =
        (.error (.Error (.Io .UnexpectedEof)), (s.task ()).output, s.server) := by
  intro m labels
  have hresult : (exec (Tasks.step pocketKafka pocketIpc plainJson) (start (.new ⟨1⟩)) labels).map
      (fun s : State Unit UInt8 UInt8 => (s.task ()).result) = some (some (.error (.Error (.Io .UnexpectedEof)))) := by
    decide +kernel
  obtain ⟨s, he, hs⟩ := Option.map_eq_some_iff.1 hresult
  obtain ⟨tr, hr, hl⟩ := Run.nil.exec he
  exact ⟨tr, s, hr, hl, pieces_do_not_matter hr (fun _ _ => rfl) hs⟩

end herbert.Tasks
