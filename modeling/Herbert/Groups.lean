import Herbert.Serial
/-!
# Groups under concurrency

With at most one uncommitted message concurrent calls of the manager answer as if
they were made one after the other (`Serial`). With more they need not: an `add`
pushes its record while another one, whose group is full, has not drained the
buffer yet, and then the log gets more than a group at once. One after the other
the log only ever has whole groups.

So the calls are linearizable exactly for at most one uncommitted message
(`linearizable_iff`).
-/
open Lib Lib.Bytes Lib.Runs herbert.WriteAheadLog herbert.Managers herbert.Fetch
open herbert.TopicManager (stored_record)

namespace herbert.Groups

variable {σ ρ : Type}

/-! ## The calls -/

/-- `n + 1` producers of the same record, and a consumer. -/
def crowd (n i : ℕ) : Call σ := if i ≤ n then .add "t" [1] else .fetch "t" 0

/-- The record. -/
def one : String × StoredRecord σ ρ := ("t", .Raw [1])

/-- What a fetch gets from `k` of them. -/
theorem readFrom_ones (ipc : ArrowIpc σ ρ) (k : ℕ) :
    readFrom ipc (History.ofTopic "t" (List.replicate k one)) 0 = .ok ([0].intercalate (List.replicate k [1])) := by
  have hlog : History.ofTopic "t" (List.replicate k (one : String × StoredRecord σ ρ)) =
      (List.replicate k [1]).map .Raw := by
    induction k with
    | zero => rfl
    | succ k ih =>
      rw [List.replicate_succ, List.replicate_succ, List.map_cons, ← ih]
      rfl
  rw [hlog]
  cases k with
  | zero => exact readFrom_outside ipc _ (by omega) (by omega) (.inr (Int.le_of_eq rfl))
  | succ k => exact readFrom_raw ipc _ (by omega) (by omega) (by simp)

theorem length_ones (k : ℕ) : ([0].intercalate (List.replicate (k + 1) [(1 : UInt8)])).length = 2 * k + 1 := by
  induction k with
  | zero => rfl
  | succ k ih =>
    rw [List.replicate_succ, List.replicate_succ, List.intercalate_cons_cons, ← List.replicate_succ]
    simp only [List.length_append, ih, List.length_cons, List.length_nil]
    omega

/-- The answer tells how many there are. -/
theorem ones_injective {j k : ℕ} (h : [0].intercalate (List.replicate j [(1 : UInt8)]) =
    [0].intercalate (List.replicate k [(1 : UInt8)])) : j = k := by
  have hlen := congrArg List.length h
  cases j with
  | zero =>
    cases k with
    | zero => rfl
    | succ k => rw [length_ones] at hlen; simp at hlen
  | succ j =>
    cases k with
    | zero => rw [length_ones] at hlen; simp at hlen
    | succ k => rw [length_ones, length_ones] at hlen; omega

/-! ## One after the other -/

/-- Whole groups in the log, and fewer records than a group in the buffer. -/
structure Grouped (n : ℕ) (tm : TopicManager σ ρ (InMemoryLog σ ρ)) : Prop where
  log : ∃ m, Holds tm.backend (List.replicate (n * m) one)
  buffer : ∃ j < n, tm.wal.buffer = List.replicate j one
  size : tm.wal.config.num_uncommitted_messages = n
  topics : tm.topic_metadatas = ∅

section
variable [DecidableEq σ] {ipc : ArrowIpc σ ρ} {n : ℕ} {tm : TopicManager σ ρ (InMemoryLog σ ρ)}

variable (ipc) in
theorem stored_one {topic_metadatas : HashMap String (TopicMetadata σ)} (h : topic_metadatas = ∅) :
    stored_record ipc topic_metadatas "t" [1] = .ok (.Raw [1]) := by
  subst h
  rfl

theorem Grouped.add (h : Grouped n tm) : Grouped n (tm.add ipc "t" [1]).2 := by
  obtain ⟨⟨m, hlog⟩, ⟨j, hj, hbuffer⟩, hsize, htopics⟩ := h
  have hlater : tm.wal.buffer ++ [one] = List.replicate (j + 1) one := by
    rw [hbuffer, List.replicate_succ']
  rw [TopicManager.add_log tm (stored_one ipc htopics) trivial]
  have hneed : (tm.wal.logged ipc one).need_to_flush = true ↔ n ≤ j + 1 := by
    simp only [need_to_flush, logged, hsize, hlater, List.length_replicate, decide_eq_true_eq]
  by_cases hfull : n ≤ j + 1
  · rw [← one, if_pos (hneed.2 hfull)]
    refine ⟨⟨m + 1, ?_⟩, ⟨0, by omega, rfl⟩, hsize, htopics⟩
    have hgroup := hlog.addAll (List.replicate (j + 1) one)
    rw [← List.replicate_add, show n * m + (j + 1) = n * (m + 1) by rw [Nat.mul_succ]; omega] at hgroup
    dsimp only
    rwa [hlater]
  · rw [← one, if_neg fun hf => hfull (hneed.1 hf)]
    exact ⟨⟨m, hlog⟩, ⟨j + 1, by omega, hlater⟩, hsize, htopics⟩

theorem Grouped.call (h : Grouped n tm) (i : ℕ) : Grouped n (Serial.apply ipc (crowd n i) tm).2 := by
  unfold crowd
  split
  · exact h.add
  · obtain ⟨⟨m, hlog⟩, hbuffer, hsize, htopics⟩ := h
    exact ⟨⟨m, hlog.fetch ipc "t" 0⟩, hbuffer, hsize, htopics⟩

variable (ipc) in
theorem Grouped.after (h : Grouped n tm) (order : List ℕ) :
    Grouped n (Atomic.after (Serial.apply ipc) (crowd n) tm order) := by
  induction order using List.reverseRecOn with
  | nil => exact h
  | append_singleton order i ih =>
    rw [Atomic.after_snoc]
    exact ih.call i

/-! ## At once -/

variable (n) in
/-- The first `k` producers have pushed their records. -/
structure Pushed (k : ℕ) (s : State ℕ σ ρ) : Prop where
  topics : s.topic_metadatas = ∅
  buffer : s.threads.wal.buffer = List.replicate k one
  size : s.threads.wal.config.num_uncommitted_messages = n
  fileLock : s.threads.fileLock = none
  bufferLock : s.threads.bufferLock = none
  handed : s.threads.handed = []
  ready : ∀ i, k ≤ i → s.phase i = .ready (crowd n i) ∧ s.threads.pc i = .ready
  first : 0 < k → s.phase 0 = .adding "t" [1] ∅ ∧ s.threads.pc 0 = .adding .unlocked one

variable {s : State ℕ σ ρ} {k : ℕ}

/-- The steps of `Threads` that a producer takes. -/
theorem exec_inside {i : ℕ} {t : String} {record : Bytes} {read : HashMap String (TopicMetadata σ)} {is : List ℕ}
    {threads : Threads.State ℕ σ ρ} (his : ∀ j ∈ is, j = i) (hi : s.phase i = .adding t record read)
    (h : exec (Threads.step (setup ipc t record read)) s.threads is = some threads) :
    exec (Managers.step ipc) s is = some { s with threads } := by
  induction is generalizing s with
  | nil =>
    cases h
    rfl
  | cons j is ih =>
    obtain rfl := his j (.head _)
    rw [exec, Option.bind_eq_some_iff] at h
    obtain ⟨threads', hstep, hrest⟩ := h
    have hfirst : Managers.step ipc s j = some { s with threads := threads' } := by
      simp only [Managers.step, hi]
      split
      · rename_i e hpc
        simp [Threads.step, hpc] at hstep
      · rename_i e hpc
        simp [Threads.step, hpc] at hstep
      · rw [hstep]
        rfl
    rw [exec, hfirst, Option.bind_some]
    exact ih (fun j hj => his j (.tail _ hj)) hi hrest

variable (ipc) in
/-- The next producer enters, writes, pushes and unlocks. -/
theorem Pushed.next (h : Pushed n k s) (hk : k ≤ n) :
    ∃ s', exec (Managers.step ipc) s [k, k, k, k] = some s' ∧ Pushed n (k + 1) s' := by
  obtain ⟨hphase, hpc⟩ := h.ready k (Nat.le_refl k)
  rw [crowd, if_pos hk] at hphase
  let s₁ : State ℕ σ ρ := { s with
    readers := insert k s.readers, phase := Function.update s.phase k (.adding "t" [1] s.topic_metadatas) }
  have henter : Managers.step ipc s k = some s₁ := by simp only [Managers.step, hphase, s₁]
  let threads : Threads.State ℕ σ ρ := { s.threads with
    wal := { s.threads.wal with
      file := s.threads.wal.file.write (frame ipc one), buffer := s.threads.wal.buffer ++ [one] }
    pc := Function.update s.threads.pc k (.adding .unlocked one)
    logged := s.threads.logged ++ [(k, one)] }
  have hadd : exec (Threads.step (setup ipc "t" [1] s.topic_metadatas)) s₁.threads [k, k, k] = some threads := by
    have hfree := h.fileLock
    have hfree' := h.bufferLock
    have hstored := stored_one ipc h.topics
    have hone : ("t", StoredRecord.Raw [1]) = (one : String × StoredRecord σ ρ) := rfl
    have hframe : utf8 "t" ++ 10 :: 0 :: (le32 1 ++ [1]) = frame ipc (one : String × StoredRecord σ ρ) := rfl
    simp [exec, Threads.step, setup, s₁, hpc, hstored, hfree, hfree', serialize, hone, hframe, threads]
  refine ⟨{ s₁ with threads }, ?_, ?_⟩
  · rw [exec, henter, Option.bind_some]
    exact exec_inside (by simp) (Function.update_self k _ s.phase) hadd
  · refine ⟨h.topics, ?_, h.size, h.fileLock, h.bufferLock, h.handed, fun i hi => ?_, fun _ => ?_⟩
    · rw [List.replicate_succ', ← h.buffer]
    · have hne : i ≠ k := by omega
      dsimp only [s₁, threads]
      rw [Function.update_of_ne hne, Function.update_of_ne hne]
      exact h.ready i (by omega)
    · dsimp only [s₁, threads]
      by_cases hk0 : 0 = k
      · subst hk0
        rw [Function.update_self, Function.update_self, h.topics]
        exact ⟨rfl, rfl⟩
      · rw [Function.update_of_ne hk0, Function.update_of_ne hk0]
        exact h.first (by omega)

variable (ipc) in
theorem Pushed.all (h : Pushed n 0 s) (hk : k ≤ n + 1) :
    ∃ is s', exec (Managers.step ipc) s is = some s' ∧ Pushed n k s' := by
  induction k with
  | zero => exact ⟨[], s, rfl, h⟩
  | succ k ih =>
    obtain ⟨is, s', hexec, hpushed⟩ := ih (by omega)
    obtain ⟨s'', hnext, hpushed'⟩ := hpushed.next ipc (by omega)
    exact ⟨is ++ [k, k, k, k], s'', by rw [exec_append, hexec, Option.bind_some, hnext], hpushed'⟩

variable (ipc) in
/-- The first producer hands over what is left. -/
theorem drain (t : String) (record : Bytes) (read : HashMap String (TopicMetadata σ)) {e : String × StoredRecord σ ρ}
    {th : Threads.State ℕ σ ρ} (hpc : th.pc 0 = .adding .draining e) :
    ∃ th', exec (Threads.step (setup ipc t record read)) th (th.wal.buffer.map fun _ => 0) = some th' ∧
      th'.handed = th.handed ++ th.wal.buffer := by
  generalize hbuffer : th.wal.buffer = rest
  induction rest generalizing th with
  | nil => exact ⟨th, rfl, by rw [List.append_nil]⟩
  | cons x rest ih =>
    obtain ⟨topic, record'⟩ := x
    let th₁ : Threads.State ℕ σ ρ := { th with
      wal := { th.wal with buffer := rest }, backend := th.backend.add topic record',
      handed := th.handed ++ [(topic, record')] }
    have hstep : Threads.step (setup ipc t record read) th 0 = some th₁ := by
      simp only [Threads.step, hpc, hbuffer, th₁]
    obtain ⟨th', he, hhanded⟩ := @ih th₁ hpc rfl
    refine ⟨th', ?_, ?_⟩
    · rw [List.map_cons, exec, hstep, Option.bind_some, he]
    · rw [hhanded, List.append_assoc]
      rfl

variable (ipc) in
/-- When all have pushed, the first one hands over more than a group. -/
theorem Pushed.overfull (h : Pushed n (n + 1) s) :
    ∃ is s', exec (Managers.step ipc) s is = some s' ∧ s'.threads.handed = List.replicate (n + 1) one ∧
      s'.phase (n + 1) = .ready (.fetch "t" 0) := by
  obtain ⟨hphase, hpc⟩ := h.first (Nat.succ_pos n)
  let th : Threads.State ℕ σ ρ := { s.threads with
    wal := { s.threads.wal with file := s.threads.wal.file.flush }
    bufferLock := some 0
    pc := Function.update s.threads.pc 0 (.adding .draining one) }
  have hflush : exec (Threads.step (setup ipc "t" [1] ∅)) s.threads [0, 0, 0] = some th := by
    have hfree := h.fileLock
    have hfree' := h.bufferLock
    have hsize := h.size
    have hbuffer := h.buffer
    simp [exec, Threads.step, hpc, hfree, hfree', need_to_flush, hsize, hbuffer, th]
  have hdraining : th.pc 0 = .adding .draining one := Function.update_self 0 _ s.threads.pc
  obtain ⟨th', hdrain, hhanded⟩ := drain ipc "t" [1] ∅ hdraining
  have hall : exec (Threads.step (setup ipc "t" [1] ∅)) s.threads ([0, 0, 0] ++ th.wal.buffer.map fun _ => 0) =
      some th' := by
    rw [exec_append, hflush, Option.bind_some, hdrain]
  refine ⟨_, _, exec_inside (i := 0) (by simp) hphase hall, ?_, ?_⟩
  · dsimp only
    rw [hhanded, show th.handed = [] from h.handed, List.nil_append]
    exact h.buffer
  · refine (h.ready (n + 1) (Nat.le_refl _)).1.trans ?_
    rw [crowd, if_neg (by omega)]

/-! ## Exactly -/

variable (ipc) in
theorem not_linearizable {config : Config} (hn : 2 ≤ config.num_uncommitted_messages) :
    ∃ calls : ℕ → Call σ, ∃ tr, ∃ s : State ℕ σ ρ,
      Run (Managers.step ipc) (Managers.start (.new .new config []) calls) tr s ∧
        ∀ order,
          ¬ Atomic.Linear (Serial.apply ipc) calls Serial.outcome Serial.begun (.new .new config []) tr s order := by
  generalize hsize : config.num_uncommitted_messages = n at hn
  let tm : TopicManager σ ρ (InMemoryLog σ ρ) := .new .new config []
  have hstart : Pushed n 0 (Managers.start tm (crowd n)) :=
    ⟨rfl, rfl, hsize, rfl, rfl, rfl, fun _ _ => ⟨rfl, rfl⟩, fun h => absurd h (Nat.lt_irrefl 0)⟩
  obtain ⟨is, s, hpush, hpushed⟩ := hstart.all ipc (Nat.le_refl (n + 1))
  obtain ⟨is', s', hover, hhanded, hphase⟩ := hpushed.overfull ipc
  have hboth : exec (Managers.step ipc) (Managers.start tm (crowd n)) (is ++ is') = some s' := by
    rw [exec_append, hpush, Option.bind_some, hover]
  obtain ⟨tr, hr, -⟩ := Run.nil.exec hboth
  have hlog := (inv_run (recovered_new config) hr).ordered.backend
  rw [List.nil_append, hhanded] at hlog
  let last : State ℕ σ ρ := { s' with
    threads := { s'.threads with backend := (s'.threads.backend.fetch ipc "t" 0).2 }
    phase := Function.update s'.phase (n + 1) (.returned (.fetched (s'.threads.backend.fetch ipc "t" 0).1)) }
  have hfetch : Managers.step ipc s' (n + 1) = some last := by
    simp only [Managers.step, hphase]
    rfl
  have houtcome : Serial.outcome last (n + 1) = some (.fetched (s'.threads.backend.fetch ipc "t" 0).1) := by
    simp only [Serial.outcome, last, Function.update_self]
  refine ⟨crowd n, _, _, hr.snoc hfetch, fun order hlin => ?_⟩
  obtain ⟨front, back, -, hanswer⟩ := hlin.answers (n + 1) _ houtcome
  -- the log that the sequential fetch sees has whole groups
  have hgrouped : Grouped n tm := ⟨⟨0, holds_new⟩, ⟨0, by omega, rfl⟩, hsize, rfl⟩
  obtain ⟨⟨m, hm⟩, -⟩ := hgrouped.after ipc front
  have hseq : (Serial.apply ipc (crowd n (n + 1)) (Atomic.after (Serial.apply ipc) (crowd n) tm front)).1 =
      .fetched (readFrom ipc (History.ofTopic "t" (List.replicate (n * m) one)) 0) := by
    rw [crowd, if_neg (by omega), ← fetch_holds ipc hm]
    rfl
  rw [hseq, fetch_holds ipc hlog, readFrom_ones, readFrom_ones, Answer.fetched.injEq, Except.ok.injEq] at hanswer
  have hdvd : n ∣ n + 1 := ⟨m, ones_injective hanswer⟩
  have hone := Nat.le_of_dvd Nat.one_pos ((Nat.dvd_add_right (Nat.dvd_refl n)).1 hdvd)
  omega

/-- The calls of a new manager are linearizable exactly if it has at most one
uncommitted message: then for every program and every schedule there is an order,
and otherwise there are ones without. -/
theorem linearizable_iff (config : Config) :
    (∀ (calls : ℕ → Call σ) tr (s : State ℕ σ ρ),
      Run (Managers.step ipc) (Managers.start (.new .new config []) calls) tr s →
        ∃ order, Atomic.Linear (Serial.apply ipc) calls Serial.outcome Serial.begun (.new .new config []) tr s order) ↔
      config.num_uncommitted_messages ≤ 1 := by
  constructor
  · intro h
    by_contra hn
    obtain ⟨calls, tr, s, hr, hnone⟩ := not_linearizable ipc (Nat.lt_of_not_le hn)
    obtain ⟨order, hlin⟩ := h calls tr s hr
    exact hnone order hlin
  · intro hn calls tr s hr
    have hnew : Recovered ipc [] (.new .new config [] : TopicManager σ ρ (InMemoryLog σ ρ)) := recovered_new config
    obtain ⟨order, -, hlin, -⟩ := Atomic.Run.linear (Serial.Rel ipc config [] calls) (Serial.rel_start hnew calls)
      (fun _ _ _ _ => Serial.sim_step hn) (fun _ _ _ _ h => h.outcome) (fun _ _ _ h => h.not_begun) hr
    exact ⟨order, hlin⟩

end

end herbert.Groups
