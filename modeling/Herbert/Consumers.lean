import Mathlib.Logic.Function.Basic
import Herbert.Client
import Herbert.Lib.Runs
/-!
# Consumers of a group

Any number of `consume` calls for one group and one topic, and producers next to
them. Each call opens a connection, on which messages stay in order; a message
may stay on its way for any time, so the server takes the first message of any
connection next. It handles one message at a time.

A call is a client's part of `consume`: it asks for the offset, fetches from
there, and sends a commit that is not answered. The topic has no schema, its
messages have no zero bytes, and nobody else commits for the group.
-/
open Lib.Runs herbert.Client

namespace herbert.Consumers

variable {ι σ ρ : Type}

/-- What the calls are made with. -/
structure Setup (ι σ ρ : Type) where
  ipc : ArrowIpc σ ρ
  json : OffsetJson
  consumer_group : String
  topic : String
  max_messages : ι → Int

/-- Where a call is in `consume`. -/
inductive Pc where
  | idle
  | offsetSent
  | fetchSent (initial_offset : Int)
  | returned (initial_offset : Int) (parts : List Bytes)
  | failed (e : HerbertError)
deriving DecidableEq

/-- A call, with the messages on the connection. A `none` to the client is the end
of a closed stream. -/
structure Call where
  pc : Pc
  toServer : List KafkaRequest
  toClient : List (Option KafkaResponse)
deriving DecidableEq

structure State (ι σ ρ : Type) where
  server : Server σ ρ
  call : ι → Call

/-- A server without topics and offsets, and no call made. -/
def start (config : Config) : State ι σ ρ := ⟨.new config, fun _ => ⟨.idle, [], []⟩⟩

inductive Label (ι σ : Type) where
  | begin (i : ι)
  | handle (i : ι)
  | receive (i : ι)
  | produce (topic : String) (record : Bytes)
  | commit (consumer_group topic : String) (offset : Int)
  | create_topic (topic : String) (schema : Option σ)

section
variable (setup : Setup ι σ ρ)

def offset_request : KafkaRequest :=
  .OffsetFetch (some (create_offset_fetch_request setup.consumer_group setup.topic))

def fetch_request (i : ι) (offset : Int) : KafkaRequest :=
  .Fetch (some (create_fetch_request setup.topic (setup.max_messages i) offset))

def commit_request (offset : Int) : KafkaRequest :=
  .OffsetCommit (some (create_offset_commit_request setup.consumer_group setup.topic offset))

/-- The end of `consume`: the parts it returns, and the commit it sends. -/
def finish (initial_offset : Int) : Except HerbertError Bytes → Pc × List KafkaRequest
  | .error e => (.failed e, [])
  | .ok records =>
    match Client.consume initial_offset records with
    | (parts, none) => (.returned initial_offset parts, [])
    | (parts, some offset) => (.returned initial_offset parts, [commit_request setup offset])

/-- `consume` from one response to the next request. -/
def answered (i : ι) : Pc → Option KafkaResponse → Option (Pc × List KafkaRequest)
  | .offsetSent, some (.OffsetFetch response) =>
    match get_offset response with
    | .error e => some (.failed e, [])
    | .ok initial_offset => some (.fetchSent initial_offset, [fetch_request setup i initial_offset])
  | .offsetSent, _ => some (.failed .Decode, [])
  | .fetchSent initial_offset, some (.Fetch response) => some (finish setup initial_offset (get_records (some response)))
  | .fetchSent initial_offset, none => some (finish setup initial_offset (get_records none))
  | .fetchSent _, _ => some (.failed .Decode, [])
  | _, _ => none

variable [DecidableEq ι] [DecidableEq σ]

/-- The server after a message whose sender waits for nothing. A `VecDeque` does
not grow to `2 ^ 63` elements. -/
def handled (s : State ι σ ρ) (server : Server σ ρ) : Option (State ι σ ρ) :=
  if (server.topic_manager.backend.queue setup.topic).length < 2 ^ 63 then some { s with server } else none

def step (s : State ι σ ρ) : Label ι σ → Option (State ι σ ρ)
  | .begin i =>
    match s.call i with
    | ⟨.idle, toServer, toClient⟩ =>
      some { s with call := Function.update s.call i ⟨.offsetSent, toServer ++ [offset_request setup], toClient⟩ }
    | _ => none
  | .handle i =>
    match s.call i with
    | ⟨_, [], _⟩ => none
    | ⟨pc, request :: toServer, toClient⟩ =>
      match s.server.handle_kafka_request setup.ipc setup.json request with
      | (.ok none, server) => some ⟨server, Function.update s.call i ⟨pc, toServer, toClient⟩⟩
      | (.ok (some response), server) =>
        some ⟨server, Function.update s.call i ⟨pc, toServer, toClient ++ [some response]⟩⟩
      -- the connection's task ends
      | (.error _, server) => some ⟨server, Function.update s.call i ⟨pc, [], toClient ++ [none]⟩⟩
  | .receive i =>
    match s.call i with
    | ⟨_, _, []⟩ => none
    | ⟨pc, toServer, response :: toClient⟩ =>
      match answered setup i pc response with
      | none => none
      | some (pc, requests) =>
        some { s with call := Function.update s.call i ⟨pc, toServer ++ requests, toClient⟩ }
  | .produce topic record =>
    if topic = setup.topic ∧ 0 ∈ record then none
    else handled setup s (s.server.handle_kafka_request setup.ipc setup.json
      (.Produce (some (create_produce_request topic record)))).2
  | .commit consumer_group topic offset =>
    if (consumer_group, topic) = (setup.consumer_group, setup.topic) then none
    else handled setup s (s.server.handle_kafka_request setup.ipc setup.json
      (.OffsetCommit (some (create_offset_commit_request consumer_group topic offset)))).2
  | .create_topic topic schema =>
    if topic = setup.topic ∧ schema ≠ none then none
    else handled setup s (s.server.handle_herbert_connection (Client.create_topic topic schema))

end

/-- A group on the small codec. -/
def pocketSetup : Setup ι UInt8 UInt8 := ⟨pocketIpc, plainJson, "g", "t", fun _ => 100⟩

/-! ## Received records -/

/-- The offset committed for the group. -/
def committed (setup : Setup ι σ ρ) (s : State ι σ ρ) : Int :=
  s.server.offset_manager.get_offset setup.consumer_group setup.topic

/-- The records of the topic that can be fetched. -/
def topicQueue (setup : Setup ι σ ρ) (s : State ι σ ρ) : List (StoredRecord σ ρ) :=
  s.server.topic_manager.backend.queue setup.topic

/-- The call's part at the record's place is the record. -/
def ReceivedBy (setup : Setup ι σ ρ) (s : State ι σ ρ) (i : ι) (idx : Nat) : Prop :=
  ∃ o parts m, (s.call i).pc = .returned o parts ∧ o ≤ idx ∧ parts[(idx - o).toNat]? = some m ∧
    (topicQueue setup s)[idx]? = some (.Raw m)

/-- Some call returned the record. -/
def Received (setup : Setup ι σ ρ) (s : State ι σ ρ) (idx : Nat) : Prop := ∃ i, ReceivedBy setup s i idx

end herbert.Consumers
