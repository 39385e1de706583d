import Herbert.Payload
import Herbert.Lib.Runs
/-!
# The in-memory queue

`InMemoryQueue` keeps a deque for each topic. `add` pushes to the front; `fetch`
ignores the offset, pops records from the back until the deque is empty, and
puts a zero byte behind each record that leaves others.

Beside a log that gets the same adds, the deque holds the records behind those
handed out (`Sim`), so a fetch returns what the log returns from their number
on (`queue_simulates`).
-/
open Lib.Runs herbert.InMemoryLog herbert.Fetch herbert.Payload

namespace herbert

variable {σ ρ : Type}

/-- The deques are lists from the front to the back. -/
structure InMemoryQueue (σ ρ : Type) where
  topics : HashMap String (List (StoredRecord σ ρ))

namespace InMemoryQueue

def new : InMemoryQueue σ ρ := ⟨∅⟩

/-- The topic's entry; `entry(topic).or_insert(VecDeque::new())`. -/
def queue (q : InMemoryQueue σ ρ) (topic : String) : List (StoredRecord σ ρ) := (q.topics.lookup topic).getD []

def add (q : InMemoryQueue σ ρ) (topic : String) (record : StoredRecord σ ρ) : InMemoryQueue σ ρ :=
  ⟨q.topics.insert topic (record :: q.queue topic)⟩

/-- What a record is sent as: a batch as a stream of its own. -/
def record_bytes (ipc : ArrowIpc σ ρ) : StoredRecord σ ρ → Except HerbertError Bytes
  | .Raw bytes => .ok bytes
  | .Batch batch =>
    match ipc.write batch.schema [batch] with
    | .ok buffer => .ok buffer
    | .error e => .error (.ArrowError e)

/-- The loop of `fetch` over the records in the order `pop_back` takes them, and
the records it leaves. One that cannot be written is popped. -/
def fetch_loop (ipc : ArrowIpc σ ρ) : List (StoredRecord σ ρ) → Bytes →
    Except HerbertError Bytes × List (StoredRecord σ ρ)
  | [], records => (.ok records, [])
  | stored_record :: queue, records =>
    match record_bytes ipc stored_record with
    | .error e => (.error e, queue)
    | .ok bytes => fetch_loop ipc queue (records ++ bytes ++ if queue.isEmpty then [] else [0])

def fetch (ipc : ArrowIpc σ ρ) (q : InMemoryQueue σ ρ) (topic : String) (_fetch_offset : Int) :
    Except HerbertError Bytes × InMemoryQueue σ ρ :=
  let (result, left) := fetch_loop ipc (q.queue topic).reverse []
  (result, ⟨q.topics.insert topic left.reverse⟩)

instance : RecordStorage (InMemoryQueue σ ρ) σ ρ where
  add q topic record := (.ok (), q.add topic record)
  fetch ipc q topic fetch_offset := q.fetch ipc topic fetch_offset

theorem queue_add (q : InMemoryQueue σ ρ) (t t' : String) (r : StoredRecord σ ρ) :
    (q.add t r).queue t' = if t' = t then r :: q.queue t else q.queue t' :=
  lookup_insert_getD _ _ _ _

theorem queue_fetch (ipc : ArrowIpc σ ρ) (q : InMemoryQueue σ ρ) (t t' : String) (o : Int) :
    (q.fetch ipc t o).2.queue t' =
      if t' = t then (fetch_loop ipc (q.queue t).reverse []).2.reverse else q.queue t' :=
  lookup_insert_getD _ _ _ _

/-- The loop leaves the records behind those it pops. -/
theorem fetch_loop_suffix (ipc : ArrowIpc σ ρ) (rs : List (StoredRecord σ ρ)) (records : Bytes) :
    (fetch_loop ipc rs records).2 <:+ rs := by
  induction rs generalizing records with
  | nil => exact List.suffix_rfl
  | cons r rs ih =>
    rw [fetch_loop]
    split
    · exact List.suffix_cons r rs
    · exact (ih _).trans (List.suffix_cons r rs)

/-- Raw records are popped to the last one, and come out joined by zero bytes. -/
theorem fetch_loop_raw (ipc : ArrowIpc σ ρ) (ms : List Bytes) (records : Bytes) :
    fetch_loop ipc (ms.map .Raw) records = (.ok (records ++ [0].intercalate ms), []) := by
  induction ms generalizing records with
  | nil => simp [fetch_loop]
  | cons m ms ih =>
    rw [List.map_cons, fetch_loop, record_bytes]
    dsimp only
    rw [ih]
    cases ms with
    | nil => simp
    | cons m' ms => simp [List.intercalate_cons_cons]

end InMemoryQueue

namespace Queue

/-! ## Queue and log -/

structure Pair (σ ρ : Type) where
  queue : InMemoryQueue σ ρ
  log : InMemoryLog σ ρ
  /-- The records that the queue's fetches have popped, in order. -/
  handed : String → List (StoredRecord σ ρ)

def start : Pair σ ρ := ⟨.new, .new, fun _ => []⟩

variable (ipc : ArrowIpc σ ρ)

/-- Every add is made on both, the fetches on the queue. -/
def step (s : Pair σ ρ) : LogOp σ ρ → Option (Pair σ ρ)
  | .add topic record => some { s with queue := s.queue.add topic record, log := s.log.add topic record }
  | .fetch topic fetch_offset =>
    let queue := (s.queue.fetch ipc topic fetch_offset.toInt).2
    let popped := (s.queue.queue topic).length - (queue.queue topic).length
    some { s with
      queue
      handed := Function.update s.handed topic (s.handed topic ++ (s.queue.queue topic).reverse.take popped) }

/-- The log holds the records handed out and behind them those in the queue. -/
def Sim (s : Pair σ ρ) : Prop :=
  ∃ h, Holds s.log h ∧ ∀ t, h.ofTopic t = s.handed t ++ (s.queue.queue t).reverse

variable {ipc}

theorem sim_start : Sim (start : Pair σ ρ) := ⟨[], holds_new, fun _ => rfl⟩

theorem sim_step {s s' : Pair σ ρ} {op : LogOp σ ρ} (h : Sim s) (hs : step ipc s op = some s') : Sim s' := by
  obtain ⟨h, hholds, hsim⟩ := h
  cases op with
  | add t r =>
    cases hs
    refine ⟨h ++ [(t, r)], hholds.add t r, fun t' => ?_⟩
    rw [History.ofTopic_append, History.ofTopic_singleton, hsim, InMemoryQueue.queue_add]
    by_cases ht : t' = t
    · subst ht; simp
    · simp [ht, Ne.symm ht]
  | fetch t o =>
    cases hs
    refine ⟨h, hholds, fun t' => ?_⟩
    dsimp only
    rw [hsim]
    by_cases ht : t' = t
    · subst ht
      obtain ⟨popped, hsplit⟩ := InMemoryQueue.fetch_loop_suffix ipc (s.queue.queue t').reverse []
      rw [Function.update_self, InMemoryQueue.queue_fetch, if_pos rfl, List.reverse_reverse, List.length_reverse]
      generalize (InMemoryQueue.fetch_loop ipc (s.queue.queue t').reverse []).2 = left at hsplit ⊢
      have hlen := congrArg List.length hsplit
      rw [List.length_append, List.length_reverse] at hlen
      rw [show (s.queue.queue t').length - left.length = popped.length by omega, ← hsplit, List.take_left,
        List.append_assoc]
    · rw [Function.update_of_ne ht, InMemoryQueue.queue_fetch, if_neg ht]

theorem sim_run {tr} {s : Pair σ ρ} (hr : Run (step ipc) start tr s) : Sim s :=
  hr.inv Sim sim_start fun _ _ _ => sim_step

/-- On a raw topic the queue's next fetch returns what the log returns from the
number of records handed out on. These are the first records added, the fetch
returns the others joined by zero bytes, and it hands out all of them. -/
theorem queue_simulates {tr} {s : Pair σ ρ} (hr : Run (step ipc) start tr s) {t : String} {bs : List Bytes}
    (hraw : s.log.queue t = bs.map .Raw) (o : Int64) :
    (∀ k : Int64, k.toInt = (s.handed t).length →
      (s.queue.fetch ipc t o.toInt).1 = (s.log.fetch ipc t k.toInt).1) ∧
    s.handed t = (bs.map .Raw).take (s.handed t).length ∧
    (s.queue.fetch ipc t o.toInt).1 = .ok ([0].intercalate (bs.drop (s.handed t).length)) ∧
    ∀ s', step ipc s (.fetch t o) = some s' → s'.handed t = s.log.queue t ∧ s'.queue.queue t = [] := by
  obtain ⟨h, hholds, hsim⟩ := sim_run hr
  have hlog : h.ofTopic t = bs.map .Raw := by rw [← hholds.queue, hraw]
  have hall := (hsim t).symm.trans hlog
  have hle : (s.handed t).length ≤ bs.length := by
    have := congrArg List.length hall
    rw [List.length_append, List.length_map] at this
    omega
  have hpending : (s.queue.queue t).reverse = (bs.drop (s.handed t).length).map .Raw := by
    rw [List.map_drop, ← hall, List.drop_left]
  have hfetch : (s.queue.fetch ipc t o.toInt).1 = .ok ([0].intercalate (bs.drop (s.handed t).length)) := by
    simp only [InMemoryQueue.fetch, hpending, InMemoryQueue.fetch_loop_raw, List.nil_append]
  refine ⟨fun k hk => ?_, by rw [← hall, List.take_left], hfetch, fun s' hs => ?_⟩
  · rw [hfetch, fetch_holds ipc hholds, hlog, readFrom_raw_le ipc bs (by omega) k.toInt_lt (by omega), hk,
      Int.toNat_natCast]
  · cases hs
    have hleft : (s.queue.fetch ipc t o.toInt).2.queue t = [] := by
      rw [InMemoryQueue.queue_fetch, if_pos rfl, hpending, InMemoryQueue.fetch_loop_raw, List.reverse_nil]
    refine ⟨?_, hleft⟩
    dsimp only
    rw [Function.update_self, hleft, List.length_nil, Nat.sub_zero, ← List.length_reverse, List.take_length, hall, hraw]

/-- Two fetches, with an empty record and records of another topic between. -/
theorem queue_simulates_two :
    ∃ s : Pair UInt8 UInt8, exec (step pocketIpc) start [.add "t" (.Raw [97]), .fetch "t" 7, .add "u" (.Raw [1]),
        .add "t" (.Raw []), .add "t" (.Raw [98])] = some s ∧
      (s.queue.fetch pocketIpc "t" 0).1 = (s.log.fetch pocketIpc "t" 1).1 ∧
      (s.queue.fetch pocketIpc "t" 0).1 = .ok [0, 98] := by
  obtain ⟨s, hs⟩ := Option.isSome_iff_exists.1 (show (exec (step pocketIpc) (start : Pair UInt8 UInt8)
    [.add "t" (.Raw [97]), .fetch "t" 7, .add "u" (.Raw [1]), .add "t" (.Raw []), .add "t" (.Raw [98])]).isSome
    from rfl)
  have hlook : (exec (step pocketIpc) (start : Pair UInt8 UInt8) [.add "t" (.Raw [97]), .fetch "t" 7,
      .add "u" (.Raw [1]), .add "t" (.Raw []), .add "t" (.Raw [98])]).map
      (fun s => (s.log.queue "t", (s.handed "t").length)) =
      some ([[97], [], [98]].map .Raw, 1) := by decide
  rw [hs, Option.map_some, Option.some.injEq, Prod.mk.injEq] at hlook
  obtain ⟨tr, hr, -⟩ := Run.nil.exec hs
  obtain ⟨hsame, -, hbytes, -⟩ := queue_simulates hr hlook.1 0
  refine ⟨s, hs, hsame 1 (by rw [hlook.2]; decide), ?_⟩
  rw [show ((0 : Int64).toInt) = 0 by decide, hlook.2] at hbytes
  exact hbytes

end Queue
end herbert
