import Mathlib.Logic.Function.Basic
import Herbert.Client
import Herbert.Lib.Runs
/-!
# Producers

Any number of clients call `produce` for one topic, each one call after another.
A call writes its message to a connection of its own and returns, so the server
may handle the messages in flight in any order, next to any other requests.

`log` names the call behind each record of the topic. A client's records are in
call order as long as none of its messages overtakes an earlier one
(`in_call_order`).
-/
open Lib.Bytes Lib.Runs herbert.TopicManager

namespace herbert.Producers

variable {ι σ ρ : Type}

structure Setup (σ ρ : Type) where
  ipc : ArrowIpc σ ρ
  json : OffsetJson
  topic : String

structure State (ι σ ρ : Type) where
  server : Server σ ρ
  /-- The messages of the calls that returned. -/
  sent : ι → List String
  /-- The calls whose message was not handled yet. -/
  flying : ι → List Nat
  /-- The call of every record in the topic's log. -/
  log : List (ι × Nat)

def start (config : Config) : State ι σ ρ := ⟨.new config, fun _ => [], fun _ => [], []⟩

inductive Label (ι σ : Type) where
  | produce (i : ι) (message : String)
  | handle (i : ι) (n : Nat)
  | other (request : KafkaRequest)
  | create_topic (topic : String) (schema : Option σ)

section
variable [DecidableEq ι] [DecidableEq σ] (setup : Setup σ ρ)

def step (s : State ι σ ρ) : Label ι σ → Option (State ι σ ρ)
  | .produce i message =>
    some { s with
      sent := Function.update s.sent i (s.sent i ++ [message])
      flying := Function.update s.flying i (s.flying i ++ [(s.sent i).length]) }
  | .handle i n =>
    if n ∈ s.flying i then
      match (s.sent i)[n]? with
      | none => none
      | some message =>
        let flying := Function.update s.flying i ((s.flying i).filter (· ≠ n))
        match s.server.handle_kafka_request setup.ipc setup.json (Client.produce setup.topic message) with
        | (.ok _, server) => some { s with server, flying, log := s.log ++ [(i, n)] }
        | (.error _, server) => some { s with server, flying }
    else none
  | .other request =>
    if Server.elsewhere setup.topic request then
      some { s with server := (s.server.handle_kafka_request setup.ipc setup.json request).2 }
    else none
  | .create_topic topic schema =>
    some { s with server := s.server.handle_herbert_connection (Client.create_topic topic schema) }

end

/-- A message is handled after the client's earlier ones. -/
def InTurn (s : State ι σ ρ) : Label ι σ → Prop
  | .handle i n => ∀ m ∈ s.flying i, n ≤ m
  | _ => True

instance (s : State ι σ ρ) (l : Label ι σ) : Decidable (InTurn s l) :=
  match l with
  | .handle i n => inferInstanceAs (Decidable (∀ m ∈ s.flying i, n ≤ m))
  | .produce _ _ | .other _ | .create_topic _ _ => .isTrue trivial

/-- Every record is what its call sent, stored. -/
def Stands (ipc : ArrowIpc σ ρ) (sent : ι → List String) (r : StoredRecord σ ρ) (c : ι × Nat) : Prop :=
  ∃ message, (sent c.1)[c.2]? = some message ∧
    (r = .Raw (utf8 message) ∨ ∃ b bs, r = .Batch b ∧ ipc.read (utf8 message) = .ok (.ok b :: bs))

/-- The calls of a client whose messages are in the log, in log order. -/
def calls [DecidableEq ι] (s : State ι σ ρ) (i : ι) : List Nat := (s.log.filter (·.1 = i)).map (·.2)

/-- The records of the topic are those of the calls in `log`, and each client's are
in call order. -/
def InCallOrder [DecidableEq ι] (setup : Setup σ ρ) (s : State ι σ ρ) : Prop :=
  List.Forall₂ (Stands setup.ipc s.sent) (log_of s.server.topic_manager setup.topic) s.log ∧
    ∀ i, (calls s i).Pairwise (· < ·)

/-! ## Steps -/

section
variable [DecidableEq ι] {setup : Setup σ ρ} {s s' : State ι σ ρ}

/-- Calls made later do not change what a record stands for. -/
theorem Stands.produce {ipc : ArrowIpc σ ρ} {sent : ι → List String} {r : StoredRecord σ ρ} {c : ι × Nat}
    (h : Stands ipc sent r c) (i : ι) (message : String) :
    Stands ipc (Function.update sent i (sent i ++ [message])) r c := by
  obtain ⟨m, hm, hr⟩ := h
  refine ⟨m, ?_, hr⟩
  by_cases hi : c.1 = i
  · subst hi
    rw [Function.update_self, List.getElem?_append_left (List.getElem?_eq_some_iff.1 hm).1, hm]
  · rw [Function.update_of_ne hi, hm]

theorem calls_snoc {i : ι} {n : Nat} (h : s'.log = s.log ++ [(i, n)]) (j : ι) :
    calls s' j = calls s j ++ if i = j then [n] else [] := by
  rw [calls, calls, h, List.filter_append, List.map_append]
  by_cases hj : i = j <;> simp [hj]

variable (setup) in
/-- The log is that of the calls in it, which were made, as were those in flight. -/
structure Inv (s : State ι σ ρ) : Prop where
  stands : List.Forall₂ (Stands setup.ipc s.sent) (log_of s.server.topic_manager setup.topic) s.log
  flying : ∀ i, ∀ m ∈ s.flying i, m < (s.sent i).length
  called : ∀ i, ∀ n ∈ calls s i, n < (s.sent i).length

/-- A client's calls are in the log in order, before those in flight. -/
def InOrder (s : State ι σ ρ) : Prop :=
  ∀ i, (calls s i).Pairwise (· < ·) ∧ ∀ n ∈ calls s i, ∀ m ∈ s.flying i, n < m

theorem inv_start (config : Config) : Inv setup (start config : State ι σ ρ) where
  stands := .nil
  flying i m hm := by cases hm
  called i n hn := by cases hn

theorem inv_produce (hi : Inv setup s) (i : ι) (message : String) :
    Inv setup { s with
      sent := Function.update s.sent i (s.sent i ++ [message])
      flying := Function.update s.flying i (s.flying i ++ [(s.sent i).length]) } := by
  have hlen : ∀ j, (s.sent j).length ≤ (Function.update s.sent i (s.sent i ++ [message]) j).length := by
    intro j
    by_cases hj : j = i
    · subst hj
      simp
    · rw [Function.update_of_ne hj]
  refine ⟨hi.stands.imp fun _ _ h => h.produce i message, ?_, fun j n hn => (hi.called j n hn).trans_le (hlen j)⟩
  intro j m hm
  dsimp only at hm ⊢
  by_cases hj : j = i
  · subst hj
    rw [Function.update_self, List.mem_append, List.mem_singleton] at hm
    rw [Function.update_self, List.length_append, List.length_singleton]
    rcases hm with hm | rfl
    · exact Nat.lt_succ_of_lt (hi.flying j m hm)
    · exact Nat.lt_succ_self _
  · rw [Function.update_of_ne hj] at hm ⊢
    exact hi.flying j m hm

variable [DecidableEq σ]

/-- The message is rejected, or its record goes behind those of the topic. -/
theorem step_handle {i : ι} {n : Nat} (hs : step setup s (.handle i n) = some s') :
    n ∈ s.flying i ∧ s'.sent = s.sent ∧ s'.flying = Function.update s.flying i ((s.flying i).filter (· ≠ n)) ∧
      ((s'.log = s.log ∧
          log_of s'.server.topic_manager setup.topic = log_of s.server.topic_manager setup.topic) ∨
        ∃ r, Stands setup.ipc s.sent r (i, n) ∧ s'.log = s.log ++ [(i, n)] ∧
          log_of s'.server.topic_manager setup.topic = log_of s.server.topic_manager setup.topic ++ [r]) := by
  simp only [step] at hs
  split at hs
  · rename_i hmem
    split at hs
    · cases hs
    · rename_i message hmessage
      rcases log_of_add setup.ipc s.server.topic_manager setup.topic (utf8 message) with ⟨e, he⟩ | ⟨r, hr, hok, hlog⟩
      · have hreq : s.server.handle_kafka_request setup.ipc setup.json (Client.produce setup.topic message) =
            (.error e, s.server) := by
          simp only [Server.handle_kafka_request, Client.produce, handle_create_produce_request, he]
        rw [hreq] at hs
        cases hs
        exact ⟨hmem, rfl, rfl, .inl ⟨rfl, rfl⟩⟩
      · have hreq : s.server.handle_kafka_request setup.ipc setup.json (Client.produce setup.topic message) =
            (.ok none, { s.server with
              topic_manager := (s.server.topic_manager.add setup.ipc setup.topic (utf8 message)).2 }) := by
          have hadd : s.server.topic_manager.add setup.ipc setup.topic (utf8 message) = (.ok (), _) :=
            Prod.ext hok rfl
          simp only [Server.handle_kafka_request, Client.produce, handle_create_produce_request]
          rw [hadd]
        rw [hreq] at hs
        cases hs
        refine ⟨hmem, rfl, rfl, .inr ⟨r, ⟨message, hmessage, ?_⟩, rfl, ?_⟩⟩
        · rcases stored_record_cases hr with rfl | ⟨b, bs, rfl, hread, -⟩
          · exact .inl rfl
          · exact .inr ⟨b, bs, rfl, hread⟩
        · simpa using hlog setup.topic
  · cases hs

omit [DecidableEq σ] in
/-- What is still in flight was before. -/
theorem mem_flying_handle {i j : ι} {n m : Nat}
    (hflying : s'.flying = Function.update s.flying i ((s.flying i).filter (· ≠ n))) (hm : m ∈ s'.flying j) :
    m ∈ s.flying j ∧ (j = i → m ≠ n) := by
  rw [hflying] at hm
  by_cases hj : j = i
  · subst hj
    rw [Function.update_self] at hm
    simpa using hm
  · rw [Function.update_of_ne hj] at hm
    exact ⟨hm, fun h => absurd h hj⟩

theorem inv_handle (hi : Inv setup s) {i : ι} {n : Nat} (hs : step setup s (.handle i n) = some s') :
    Inv setup s' := by
  obtain ⟨hmem, hsent, hflying, hlog⟩ := step_handle hs
  refine ⟨?_, fun j m hm => hsent ▸ hi.flying j m (mem_flying_handle hflying hm).1, ?_⟩
  · rw [hsent]
    rcases hlog with ⟨hl, htm⟩ | ⟨r, hr, hl, htm⟩
    · rw [hl, htm]
      exact hi.stands
    · rw [hl, htm]
      exact List.rel_append hi.stands (.cons hr .nil)
  · intro j m hm
    rw [hsent]
    rcases hlog with ⟨hl, -⟩ | ⟨r, -, hl, -⟩
    · rw [calls, hl] at hm
      exact hi.called j m hm
    · rw [calls_snoc hl, List.mem_append] at hm
      rcases hm with hm | hm
      · exact hi.called j m hm
      · split at hm
        · rename_i hij
          subst hij
          rw [List.mem_singleton.1 hm]
          exact hi.flying i n hmem
        · cases hm

theorem inv_step (hi : Inv setup s) {l : Label ι σ} (hs : step setup s l = some s') : Inv setup s' := by
  cases l with
  | produce i message =>
    cases hs
    exact inv_produce hi i message
  | handle i n => exact inv_handle hi hs
  | other request =>
    simp only [step] at hs
    split at hs
    · rename_i helse
      cases hs
      have hlog := s.server.log_of_elsewhere setup.ipc setup.json helse
      exact ⟨by rw [hlog]; exact hi.stands, hi.flying, hi.called⟩
    · cases hs
  | create_topic t schema =>
    cases hs
    have hlog := log_of_create s.server.topic_manager t schema setup.topic
    exact ⟨by
      show List.Forall₂ _ (log_of (s.server.topic_manager.create t schema).2 setup.topic) _
      rw [hlog]
      exact hi.stands, hi.flying, hi.called⟩

omit [DecidableEq σ] in
theorem inOrder_produce (hi : Inv setup s) (ho : InOrder s) (i : ι) (message : String) :
    InOrder { s with
      sent := Function.update s.sent i (s.sent i ++ [message])
      flying := Function.update s.flying i (s.flying i ++ [(s.sent i).length]) } := by
  refine fun j => ⟨(ho j).1, fun n hn m hm => ?_⟩
  dsimp only at hm
  by_cases hj : j = i
  · subst hj
    rw [Function.update_self, List.mem_append, List.mem_singleton] at hm
    rcases hm with hm | rfl
    · exact (ho j).2 n hn m hm
    · exact hi.called j n hn
  · rw [Function.update_of_ne hj] at hm
    exact (ho j).2 n hn m hm

theorem inOrder_handle (ho : InOrder s) {i : ι} {n : Nat} (hl : InTurn s (.handle i n))
    (hs : step setup s (.handle i n) = some s') : InOrder s' := by
  obtain ⟨hmem, -, hflying, hlog⟩ := step_handle hs
  intro j
  by_cases hj : j = i
  · subst hj
    rcases hlog with ⟨hlog, -⟩ | ⟨r, -, hlog, -⟩
    · rw [calls, hlog]
      exact ⟨(ho j).1, fun c hc m hm => (ho j).2 c hc m (mem_flying_handle hflying hm).1⟩
    · rw [calls_snoc hlog, if_pos rfl]
      refine ⟨List.pairwise_append.2 ⟨(ho j).1, List.pairwise_singleton _ _, ?_⟩, ?_⟩
      · intro c hc m hm
        rw [List.mem_singleton.1 hm]
        exact (ho j).2 c hc n hmem
      · intro c hc m hm
        obtain ⟨hm, hne⟩ := mem_flying_handle hflying hm
        rcases List.mem_append.1 hc with hc | hc
        · exact (ho j).2 c hc m hm
        · rw [List.mem_singleton.1 hc]
          exact lt_of_le_of_ne (hl m hm) (Ne.symm (hne rfl))
  · have hcalls : calls s' j = calls s j := by
      rcases hlog with ⟨hlog, -⟩ | ⟨r, -, hlog, -⟩
      · rw [calls, hlog, calls]
      · rw [calls_snoc hlog, if_neg (Ne.symm hj), List.append_nil]
    rw [hcalls, hflying, Function.update_of_ne hj]
    exact ho j

theorem inOrder_step (hi : Inv setup s) (ho : InOrder s) {l : Label ι σ} (hl : InTurn s l)
    (hs : step setup s l = some s') : InOrder s' := by
  cases l with
  | produce i message =>
    cases hs
    exact inOrder_produce hi ho i message
  | handle i n => exact inOrder_handle ho hl hs
  | other request =>
    simp only [step] at hs
    split at hs
    · cases hs
      exact ho
    · cases hs
  | create_topic t schema =>
    cases hs
    exact ho

/-! ## Overtaking -/

/-- Without a schema every message is accepted. -/
theorem step_handle_raw (hi : Inv setup s) {i : ι} {n : Nat} (hn : n ∈ s.flying i)
    (hraw : ∀ name sch, s.server.topic_manager.topic_metadatas.lookup setup.topic ≠ some ⟨name, some sch⟩) :
    ∃ s', step setup s (.handle i n) = some s' ∧ s'.log = s.log ++ [(i, n)] ∧
      s'.flying = Function.update s.flying i ((s.flying i).filter (· ≠ n)) ∧
      s'.server.topic_manager.topic_metadatas = s.server.topic_manager.topic_metadatas := by
  obtain ⟨message, hmessage⟩ : ∃ message, (s.sent i)[n]? = some message :=
    ⟨_, List.getElem?_eq_getElem (hi.flying i n hn)⟩
  have hadd := add_log s.server.topic_manager (stored_record_no_schema hraw)
    (show WriteAheadLog.Writable setup.ipc (.Raw (utf8 message)) from trivial)
  simp only [step, if_pos hn, hmessage, Server.handle_kafka_request, Client.produce, handle_create_produce_request,
    hadd]
  refine ⟨_, rfl, rfl, rfl, ?_⟩
  dsimp only
  split <;> rfl

theorem inv_run {config : Config} {tr} (hr : Run (step setup) (start config) tr s) : Inv setup s :=
  hr.inv (Inv setup) (inv_start config) fun _ _ _ hi hs => inv_step hi hs

/-- While no message is handled before an earlier one of its client, each client's
messages are in the topic's log in call order. Where the topic has no schema and
a message in flight overtakes another one, they are not. -/
theorem in_call_order {config : Config} {tr} (hr : Run (step setup) (start config) tr s) :
    (Always InTurn tr → InCallOrder setup s) ∧
      ∀ i m n, m ∈ s.flying i → n ∈ s.flying i → m < n →
        (∀ name sch, s.server.topic_manager.topic_metadatas.lookup setup.topic ≠ some ⟨name, some sch⟩) →
        ∃ s', exec (step setup) s [.handle i n, .handle i m] = some s' ∧ ¬ InCallOrder setup s' := by
  have hi := inv_run hr
  constructor
  · intro hc
    have horder : Inv setup s ∧ InOrder s := hr.inv_while (fun s => Inv setup s ∧ InOrder s)
      ⟨inv_start config, fun i => ⟨.nil, fun n hn => by cases hn⟩⟩
      (fun _ _ _ h hl hs => ⟨inv_step h.1 hs, inOrder_step h.1 h.2 hl hs⟩) hc
    exact ⟨hi.stands, fun i => (horder.2 i).1⟩
  · intro i m n hm hn hlt hraw
    obtain ⟨s₁, h₁, hlog₁, hflying, hmeta⟩ := step_handle_raw hi hn hraw
    have hm₁ : m ∈ s₁.flying i := by
      rw [hflying, Function.update_self]
      simp [hm, hlt.ne]
    obtain ⟨s₂, h₂, hlog₂, -⟩ := step_handle_raw (inv_step hi h₁) hm₁ (hmeta ▸ hraw)
    refine ⟨s₂, by simp [exec, h₁, h₂], fun h => ?_⟩
    have hpair := h.2 i
    rw [calls_snoc hlog₂, calls_snoc hlog₁, if_pos rfl, List.append_assoc, List.pairwise_append] at hpair
    have := (List.pairwise_cons.1 hpair.2.1).1 m (by simp)
    omega

end

/-- Clients on the small codec. -/
def pocketSetup : Setup UInt8 UInt8 := ⟨pocketIpc, plainJson, "t"⟩

/-- Two clients, whose messages take turns, and a fetch in between. -/
theorem in_call_order_two :
    ∃ s : State (Fin 2) UInt8 UInt8, log_of s.server.topic_manager "t" = [.Raw [97], .Raw [99], .Raw [98]] ∧
      s.log = [(0, 0), (1, 0), (0, 1)] ∧ InCallOrder pocketSetup s := by
  let schedule : List (Label (Fin 2) UInt8) := [.produce 0 "a", .produce 0 "b", .produce 1 "c", .handle 0 0,
    .handle 1 0, .other (.Fetch (some (create_fetch_request "t" 100 0))), .handle 0 1]
  let run := execWhile (step pocketSetup) InTurn (start ⟨1⟩) schedule
  obtain ⟨s, hs⟩ : ∃ s, run = some s := Option.isSome_iff_exists.1 (by decide)
  have hlog : run.map (fun s => (log_of s.server.topic_manager "t", s.log)) =
      some ([.Raw [97], .Raw [99], .Raw [98]], [(0, 0), (1, 0), (0, 1)]) := by decide
  rw [hs] at hlog
  obtain ⟨hrecords, hcalls⟩ := Prod.ext_iff.1 (Option.some.inj hlog)
  obtain ⟨tr, hr, hc⟩ := run_execWhile Run.nil always_nil (show execWhile (step pocketSetup) _ _ _ = _ from hs)
  exact ⟨s, hrecords, hcalls, (in_call_order hr).1 hc⟩

/-- Not every run keeps the order: the second message is handled first. -/
theorem overtaken :
    ¬ ∀ tr (s : State (Fin 1) UInt8 UInt8), Run (step pocketSetup) (start ⟨1⟩) tr s → InCallOrder pocketSetup s := by
  intro h
  let schedule : List (Label (Fin 1) UInt8) := [.produce 0 "a", .produce 0 "b", .handle 0 1, .handle 0 0]
  let run := exec (step pocketSetup) (start ⟨1⟩) schedule
  obtain ⟨s, hs⟩ : ∃ s, run = some s := Option.isSome_iff_exists.1 (by decide)
  have hcalls : run.map (calls · 0) = some [1, 0] := by decide
  rw [hs] at hcalls
  obtain ⟨tr, hr, -⟩ := Run.nil.exec (show exec (step pocketSetup) _ _ = _ from hs)
  have hpair := (h _ s hr).2 0
  rw [show calls s 0 = [1, 0] from Option.some.inj hcalls] at hpair
  exact absurd hpair (by decide)

end herbert.Producers
