import Herbert.Managers
import Herbert.Lib.Atomic
/-!
# Calls of the manager, one after the other

With one uncommitted message, which is the default, concurrent calls of `create`,
`add` and `fetch` answer as if they were made one after the other on one manager.
`Rel` ties the two, and `sim_step` says which step lets which call take effect:
`create` and `fetch` take effect in their one step, an `add` that refuses its
record when it does so. Any other `add` takes effect when its record is handed to
the backend, often by another thread: the k-th record handed over is the one of
the k-th frame, and the thread that wrote it has not returned before.
-/
open Lib Lib.Bytes Lib.Runs Lib.Mutex herbert.WriteAheadLog herbert.WalOrder herbert.Managers
open herbert.TopicManager (stored_record)

namespace herbert.Serial

variable {ι σ ρ : Type} [DecidableEq ι] [DecidableEq σ]

/-! ## Calls and answers -/

/-- A call that is alone. -/
def apply (ipc : ArrowIpc σ ρ) : Call σ → TopicManager σ ρ (InMemoryLog σ ρ) →
    Answer × TopicManager σ ρ (InMemoryLog σ ρ)
  | .create topic schema, tm =>
    let (result, tm) := tm.create topic schema
    (.created result, tm)
  | .add topic record, tm =>
    let (result, tm) := tm.add ipc topic record
    (.added result, tm)
  | .fetch topic fetch_offset, tm =>
    let (result, tm) := tm.fetch ipc topic fetch_offset
    (.fetched result, tm)

/-- The answer of a call that has returned. -/
def outcome (s : State ι σ ρ) (i : ι) : Option Answer :=
  match s.phase i with
  | .returned answer => some answer
  | _ => none

def begun (s : State ι σ ρ) (i : ι) : Prop := ∀ call, s.phase i ≠ .ready call

/-- The threads whose records are handed over. -/
def served (th : Threads.State ι σ ρ) : List ι := (th.logged.take th.handed.length).map (·.1)

/-- The answer of a call that has taken effect. -/
def effective (s : State ι σ ρ) (i : ι) : Option Answer :=
  match s.phase i, s.threads.pc i with
  | .returned answer, _ => some answer
  | .adding _ _ _, .failed e => some (.added (.error e))
  | .adding _ _ _, .adding _ _ => if i ∈ served s.threads then some (.added (.ok ())) else none
  | _, _ => none

/-! ## The relation -/

/-- The manager `a.obj` has flushed everything, and its log, its file and its
topics are those of the calls that have taken effect. -/
structure Rel (ipc : ArrowIpc σ ρ) (config : Config) (base : History σ ρ) (calls : ι → Call σ) (s : State ι σ ρ)
    (a : Atomic.State ι (TopicManager σ ρ (InMemoryLog σ ρ)) Answer) : Prop where
  inv : Inv ipc config base calls s
  answer : ∀ i, a.answer i = effective s i
  config : a.obj.wal.config = config
  topic_metadatas : a.obj.topic_metadatas = s.topic_metadatas
  log : Holds a.obj.backend (base ++ s.threads.handed)
  file : a.obj.wal.file.contents = (base ++ s.threads.handed).flatMap (frame ipc)
  drained : a.obj.wal.buffer = []

variable {ipc : ArrowIpc σ ρ} {config : Config} {base : History σ ρ} {calls : ι → Call σ} {s s' : State ι σ ρ}
  {a : Atomic.State ι (TopicManager σ ρ (InMemoryLog σ ρ)) Answer} {i : ι} {t : String} {record : Bytes}
  {read : HashMap String (TopicMetadata σ)}

theorem rel_start {tm : TopicManager σ ρ (InMemoryLog σ ρ)} (h : Recovered ipc base tm) (calls : ι → Call σ) :
    Rel ipc tm.wal.config base calls (Managers.start tm calls) (Atomic.start tm) where
  inv := inv_start h calls
  answer i := rfl
  config := rfl
  topic_metadatas := rfl
  log := by simpa [Managers.start, Atomic.start] using h.log
  file := by simpa [Managers.start, Atomic.start] using h.file.contents
  drained := h.buffer

/-- A step in which no call takes effect. -/
theorem Rel.keep (h : Rel ipc config base calls s a) (hs : Managers.step ipc s i = some s')
    (heff : ∀ j, effective s' j = effective s j) (hmeta : s'.topic_metadatas = s.topic_metadatas)
    (hhanded : s'.threads.handed = s.threads.handed) :
    ∃ ls a', exec (Atomic.step (apply ipc) calls) a ls = some a' ∧ Rel ipc config base calls s' a' := by
  refine ⟨[], a, rfl, Managers.inv_step h.inv hs, fun j => ?_, h.config, ?_, ?_, ?_, h.drained⟩
  · rw [h.answer, heff]
  · rw [hmeta, h.topic_metadatas]
  · rw [hhanded]
    exact h.log
  · rw [hhanded]
    exact h.file

/-- A step in which call `k` takes effect. -/
theorem Rel.effect (h : Rel ipc config base calls s a) {k : ι} (hs : Managers.step ipc s i = some s')
    (hnone : effective s k = none) (hk : effective s' k = some (apply ipc (calls k) a.obj).1)
    (heff : ∀ j, j ≠ k → effective s' j = effective s j)
    (hconfig : (apply ipc (calls k) a.obj).2.wal.config = a.obj.wal.config)
    (hmeta : (apply ipc (calls k) a.obj).2.topic_metadatas = s'.topic_metadatas)
    (hlog : Holds (apply ipc (calls k) a.obj).2.backend (base ++ s'.threads.handed))
    (hfile : (apply ipc (calls k) a.obj).2.wal.file.contents = (base ++ s'.threads.handed).flatMap (frame ipc))
    (hdrained : (apply ipc (calls k) a.obj).2.wal.buffer = []) :
    ∃ ls a', exec (Atomic.step (apply ipc) calls) a ls = some a' ∧ Rel ipc config base calls s' a' := by
  refine ⟨[k], Atomic.effect (apply ipc) calls a k, ?_, Managers.inv_step h.inv hs, fun j => ?_,
    hconfig.trans h.config, hmeta, hlog, hfile, hdrained⟩
  · simp [exec, Atomic.step, h.answer, hnone]
  · by_cases hj : j = k
    · subst hj
      simp only [Atomic.effect, Function.update_self, hk]
    · simp only [Atomic.effect, Function.update_of_ne hj, h.answer, heff j hj]

/-! ## One step -/

omit [DecidableEq σ] in
/-- A thread that stays where it is has the answer it had. -/
theorem effective_congr {j : ι} (hphase : s'.phase j = s.phase j) (hpc : s'.threads.pc j = s.threads.pc j)
    (hserved : j ∈ served s'.threads ↔ j ∈ served s.threads) : effective s' j = effective s j := by
  simp only [effective, hphase, hpc, hserved]

omit [DecidableEq σ] in
/-- A thread that changes its phase leaves the others alone. -/
theorem effective_other {p : Phase σ} (hphase : s'.phase = Function.update s.phase i p)
    (hpc : s'.threads.pc = s.threads.pc) (hserved : served s'.threads = served s.threads) {j : ι} (hj : j ≠ i) :
    effective s' j = effective s j :=
  effective_congr (by rw [hphase, Function.update_of_ne hj]) (by rw [hpc]) (by rw [hserved])

omit [DecidableEq σ] in
theorem effective_ready {call : Call σ} (hi : s.phase i = .ready call) : effective s i = none := by
  simp only [effective, hi]

omit [DecidableEq σ] in
theorem effective_returned {answer : Answer} (hi : s.phase i = .returned answer) :
    effective s i = some answer := by
  simp only [effective, hi]

omit [DecidableEq ι] [DecidableEq σ] in
theorem handed_le {th : Threads.State ι σ ρ} (h : Ordered ipc base th) : th.handed.length ≤ th.logged.length := by
  have := congrArg List.length h.take
  simp only [List.length_map, List.length_take] at this
  omega

omit [DecidableEq ι] [DecidableEq σ] in
/-- The next record to be handed over is the one of the next frame. -/
theorem next_served {th : Threads.State ι σ ρ} (h : Ordered ipc base th) {x : String × StoredRecord σ ρ} {rest}
    (hbuf : th.wal.buffer = x :: rest) :
    ∃ k, (k, x) ∈ th.logged ∧
      th.logged.take (th.handed.length + 1) = th.logged.take th.handed.length ++ [(k, x)] := by
  obtain ⟨front, hlog, hfront⟩ := h.order
  rw [hbuf] at hfront
  have hget : (front.map (·.2))[th.handed.length]? = some x := by
    rw [hfront, List.getElem?_append_right (Nat.le_refl _), Nat.sub_self]
    rfl
  rw [List.getElem?_map, Option.map_eq_some_iff] at hget
  obtain ⟨⟨k, y⟩, hk, rfl⟩ := hget
  have hlogged : th.logged[th.handed.length]? = some (k, y) := by
    rw [hlog, List.getElem?_append_left (List.getElem?_eq_some_iff.1 hk).1, hk]
  exact ⟨k, List.mem_of_getElem? hlogged, by rw [List.take_add_one, hlogged]; rfl⟩

omit [DecidableEq ι] [DecidableEq σ] in
/-- A frame once handed over is not the next one. -/
theorem not_served {th : Threads.State ι σ ρ} (h : Logged th) {k : ι} {x : String × StoredRecord σ ρ} {n : Nat}
    (hnext : th.logged.take (n + 1) = th.logged.take n ++ [(k, x)]) : k ∉ (th.logged.take n).map (·.1) := by
  have hnodup : ((th.logged.take (n + 1)).map (·.1)).Nodup := by
    rw [List.map_take]
    exact h.once.sublist (List.take_sublist _ _)
  rw [hnext, List.map_append, List.nodup_append] at hnodup
  intro hk
  exact hnodup.2.2 k hk k (by simp) rfl

/-- `create` and `fetch` take effect. -/
theorem sim_create (h : Rel ipc config base calls s a) (hs : Managers.step ipc s i = some s') {schema : Option σ}
    (hi : s.phase i = .ready (.create t schema))
    (hphase : s'.phase = Function.update s.phase i (.returned (.created (s.tm.create t schema).1)))
    (hthreads : s'.threads = s.threads) (hmeta : s'.topic_metadatas = (s.tm.create t schema).2.topic_metadatas) :
    ∃ ls a', exec (Atomic.step (apply ipc) calls) a ls = some a' ∧ Rel ipc config base calls s' a' := by
  have hcall : calls i = .create t schema := by
    have := h.inv.place i
    rw [hi] at this
    exact this.of_ready.1
  obtain ⟨hresult, htopics⟩ := create_same (show a.obj.topic_metadatas = s.tm.topic_metadatas from h.topic_metadatas)
    t schema
  have hother : ∀ j, j ≠ i → effective s' j = effective s j :=
    fun j hj => effective_other hphase (by rw [hthreads]) (by rw [hthreads]) hj
  refine h.effect hs (effective_ready hi) ?_ hother ?_ ?_ ?_ ?_ ?_
  · rw [effective_returned (by rw [hphase, Function.update_self]), hcall]
    exact congrArg (fun r => some (Answer.created r)) hresult.symm
  · rw [hcall]
    exact congrArg _ (TopicManager.wal_create a.obj t schema)
  · rw [hcall, hmeta]
    exact htopics
  · simp only [hcall, hthreads, apply, TopicManager.backend_create]
    exact h.log
  · simp only [hcall, hthreads, apply, TopicManager.wal_create]
    exact h.file
  · simp only [hcall, apply, TopicManager.wal_create]
    exact h.drained

theorem sim_fetch (h : Rel ipc config base calls s a) (hs : Managers.step ipc s i = some s') {o : Int}
    (hi : s.phase i = .ready (.fetch t o))
    (hphase : s'.phase = Function.update s.phase i (.returned (.fetched (s.threads.backend.fetch ipc t o).1)))
    (hthreads : s'.threads = { s.threads with backend := (s.threads.backend.fetch ipc t o).2 })
    (hmeta : s'.topic_metadatas = s.topic_metadatas) :
    ∃ ls a', exec (Atomic.step (apply ipc) calls) a ls = some a' ∧ Rel ipc config base calls s' a' := by
  have hcall : calls i = .fetch t o := by
    have := h.inv.place i
    rw [hi] at this
    exact this.of_ready.1
  have hother : ∀ j, j ≠ i → effective s' j = effective s j :=
    fun j hj => effective_other hphase (by rw [hthreads]) (by rw [hthreads]; rfl) hj
  refine h.effect hs (effective_ready hi) ?_ hother ?_ ?_ ?_ ?_ ?_
  · have hread : (a.obj.backend.fetch ipc t o).1 = (s.threads.backend.fetch ipc t o).1 := by
      rw [Fetch.fetch_holds ipc h.log, Fetch.fetch_holds ipc h.inv.ordered.backend]
    rw [effective_returned (by rw [hphase, Function.update_self]), hcall]
    exact congrArg (fun r => some (Answer.fetched r)) hread.symm
  all_goals simp only [hcall, hthreads]
  · rfl
  · rw [hmeta]
    exact h.topic_metadatas
  · exact h.log.fetch ipc t o
  · exact h.file
  · exact h.drained

/-- An `add` refuses its record. -/
theorem sim_refuse (h : Rel ipc config base calls s a) {e : HerbertError} (hi : s.phase i = .adding t record read)
    (hs : Managers.step ipc s i = some s') (hpc : s.threads.pc i = .ready) (he : Refuses ipc read t record e)
    (hs' : s' = { s with threads := { s.threads with pc := Function.update s.threads.pc i (.failed e) } }) :
    ∃ ls a', exec (Atomic.step (apply ipc) calls) a ls = some a' ∧ Rel ipc config base calls s' a' := by
  have hcall : calls i = .add t record := by
    have := h.inv.place i
    rw [hi] at this
    exact this.of_adding
  have hadd : a.obj.add ipc t record = (.error e, a.obj) := by
    rw [h.inv.current i t record read hi, ← h.topic_metadatas] at he
    exact he.add
  subst hs'
  refine h.effect hs (k := i) ?_ ?_ ?_ ?_ ?_ ?_ ?_ ?_
  all_goals try simp only [hcall, apply, hadd]
  · simp only [effective, hi, hpc]
  · simp only [effective, hi, Function.update_self]
  · intro j hj
    refine effective_congr rfl ?_ Iff.rfl
    exact Function.update_of_ne hj _ _
  · exact h.topic_metadatas
  · exact h.log
  · exact h.file
  · exact h.drained

/-- What is known of an `add` whose frame is written and whose record is not handed
over. -/
theorem unserved (hn : config.num_uncommitted_messages ≤ 1) (h : Rel ipc config base calls s a) {k : ι}
    {x : String × StoredRecord σ ρ} (hmem : (k, x) ∈ s.threads.logged) (hnot : k ∉ served s.threads) :
    ∃ record read place, calls k = .add x.1 record ∧ s.phase k = .adding x.1 record read ∧
      s.threads.pc k = .adding place x ∧ stored_record ipc s.topic_metadatas x.1 record = .ok x.2 ∧ Writable ipc x.2 := by
  obtain ⟨place, hpc⟩ := (h.inv.logged.logged k x).1 hmem
  have hplace := h.inv.place k
  generalize hp : s.phase k = phase at hplace
  generalize hc : calls k = call at hplace
  rw [hpc] at hplace
  cases hplace with
  | added t record e =>
    -- a call that has returned was handed over before
    have := h.inv.returned (by rw [h.inv.config]; exact hn) k x hpc
    exact absurd (List.mem_map_of_mem this) hnot
  | adding t record read r place hr hw =>
    rw [h.inv.current k t record read hp] at hr
    exact ⟨record, read, place, rfl, rfl, hpc, hr, hw⟩

/-- A thread hands over the next record, and the `add` that wrote it takes
effect. -/
theorem sim_hand (hn : config.num_uncommitted_messages ≤ 1) (h : Rel ipc config base calls s a)
    {x : String × StoredRecord σ ρ} {rest} (hs : Managers.step ipc s i = some s')
    (hbuf : s.threads.wal.buffer = x :: rest) (hs' : s' = { s with threads := { s.threads with
      wal := { s.threads.wal with buffer := rest }, backend := s.threads.backend.add x.1 x.2,
      handed := s.threads.handed ++ [x] } }) :
    ∃ ls a', exec (Atomic.step (apply ipc) calls) a ls = some a' ∧ Rel ipc config base calls s' a' := by
  obtain ⟨k, hmem, hnext⟩ := next_served h.inv.ordered hbuf
  have hnot : k ∉ served s.threads := not_served h.inv.logged hnext
  have hserved : served s'.threads = served s.threads ++ [k] := by
    subst hs'
    simp only [served, List.length_append, List.length_singleton, hnext, List.map_append, List.map_cons, List.map_nil]
  obtain ⟨record, read, place, hc, hp, hpc, hr, hw⟩ := unserved hn h hmem hnot
  rw [← h.topic_metadatas] at hr
  have hadd := TopicManager.add_full a.obj hr hw (by rw [h.config]; omega)
  subst hs'
  refine h.effect hs (k := k) ?_ ?_ ?_ ?_ ?_ ?_ ?_ ?_
  all_goals try simp only [hc, apply, hadd, h.drained, List.nil_append]
  · simp only [effective, hp, hpc, hnot, if_false]
  · simp only [effective, hp, hpc, hserved, List.mem_append, List.mem_singleton, or_true, if_true]
  · intro j hj
    refine effective_congr rfl rfl ?_
    simp [hserved, hj]
  · rfl
  · exact h.topic_metadatas
  · have := h.log.addAll [x]
    rwa [List.append_assoc] at this
  · simp [flushed, WriteAheadLog.logged, h.file]
  · rfl

/-- Any other step inside `add` is nobody's effect. -/
theorem sim_inside (hn : config.num_uncommitted_messages ≤ 1) (h : Rel ipc config base calls s a)
    (hs : Managers.step ipc s i = some s') {threads : Threads.State ι σ ρ} (hi : s.phase i = .adding t record read)
    (hstep : Threads.step (setup ipc t record read) s.threads i = some threads) (hs' : s' = { s with threads }) :
    ∃ ls a', exec (Atomic.step (apply ipc) calls) a ls = some a' ∧ Rel ipc config base calls s' a' := by
  subst hs'
  cases hpc : s.threads.pc i with
  | failed e =>
    rw [Threads.step, hpc] at hstep
    cases hstep
  | ready =>
    rcases first_step hpc hstep with ⟨e, he, rfl⟩ | ⟨r, hr, hw, rfl⟩
    · exact sim_refuse h hi hs hpc he rfl
    · -- the frame is the last one, so it is not handed over
      have htake : served { s.threads with
          wal := { s.threads.wal with file := s.threads.wal.file.write (frame ipc (t, r)) }, fileLock := some i,
          pc := Function.update s.threads.pc i (.adding .written (t, r)),
          logged := s.threads.logged ++ [(i, t, r)] } = served s.threads := by
        simp only [served, List.take_append_of_le_length (handed_le h.inv.ordered)]
      have hnot : i ∉ served s.threads := by
        intro hmem
        obtain ⟨⟨j, e⟩, he, rfl⟩ := List.mem_map.1 hmem
        obtain ⟨place, hp⟩ := (h.inv.logged.logged j e).1 (List.mem_of_mem_take he)
        rw [hpc] at hp
        cases hp
      refine h.keep hs (fun j => ?_) rfl rfl
      by_cases hj : j = i
      · subst hj
        simp only [effective, hi, hpc, Function.update_self, htake, hnot, if_false]
      · refine effective_congr rfl ?_ (by rw [htake])
        exact Function.update_of_ne hj _ _
  | adding place e =>
    obtain ⟨place', hpc', hlogged⟩ := later_step hpc hstep
    have hmoved : threads.handed = s.threads.handed →
        ∃ ls a', exec (Atomic.step (apply ipc) calls) a ls = some a' ∧
          Rel ipc config base calls { s with threads } a' := by
      intro hhanded
      have hserved : served threads = served s.threads := by rw [served, served, hlogged, hhanded]
      refine h.keep hs (fun j => ?_) rfl hhanded
      by_cases hj : j = i
      · subst hj
        simp only [effective, hi, hpc, hpc', Function.update_self, hserved]
      · exact effective_congr rfl (by rw [pc_inside hstep hj]) (by rw [hserved])
    cases Threads.step_move hstep with
    | hand e' x rest hp hbuf => exact sim_hand hn h hs hbuf rfl
    | fail e' hp => rw [hpc] at hp; cases hp
    | write r hp => rw [hpc] at hp; cases hp
    | _ => exact hmoved rfl

theorem sim_step (hn : config.num_uncommitted_messages ≤ 1) (h : Rel ipc config base calls s a)
    (hs : Managers.step ipc s i = some s') :
    ∃ ls a', exec (Atomic.step (apply ipc) calls) a ls = some a' ∧ Rel ipc config base calls s' a' := by
  cases step_move hs with
  | create t schema hi hfree => exact sim_create h hs hi rfl rfl rfl
  | fetch t o hi => exact sim_fetch h hs hi rfl rfl rfl
  | inside t record read threads hi hstep => exact sim_inside hn h hs hi hstep rfl
  | enter t record hi =>
    have hpc : s.threads.pc i = .ready := by
      have := h.inv.place i
      rw [hi] at this
      exact this.of_ready.2
    refine h.keep hs (fun j => ?_) rfl rfl
    by_cases hj : j = i
    · subst hj
      simp only [effective, hi, hpc, Function.update_self]
    · exact effective_congr (Function.update_of_ne hj _ _) rfl Iff.rfl
  | reject t record read e hi hpc =>
    refine h.keep hs (fun j => ?_) rfl rfl
    by_cases hj : j = i
    · subst hj
      simp only [effective, hi, hpc, Function.update_self]
    · exact effective_congr (Function.update_of_ne hj _ _) rfl Iff.rfl
  | accept t record read e hi hpc =>
    -- its record is handed over, for it is done
    have hmem : i ∈ served s.threads :=
      List.mem_map_of_mem (h.inv.returned (by rw [h.inv.config]; exact hn) i e hpc)
    refine h.keep hs (fun j => ?_) rfl rfl
    by_cases hj : j = i
    · subst hj
      simp only [effective, hi, hpc, Function.update_self, hmem, if_true]
    · exact effective_congr (Function.update_of_ne hj _ _) rfl Iff.rfl

/-! ## Whole runs -/

theorem Rel.outcome (h : Rel ipc config base calls s a) {r : Answer} (hr : outcome s i = some r) :
    a.answer i = some r := by
  unfold Serial.outcome at hr
  split at hr
  · rename_i answer hi
    rw [h.answer, effective_returned hi, hr]
  · cases hr

theorem Rel.not_begun (h : Rel ipc config base calls s a) (hb : ¬ begun s i) : a.answer i = none := by
  simp only [begun, not_forall, not_not] at hb
  obtain ⟨call, hcall⟩ := hb
  rw [h.answer, effective_ready hcall]

omit [DecidableEq ι] in
/-- When no `add` is going on, every frame is handed over. -/
theorem handed_all (hn : config.num_uncommitted_messages ≤ 1) (h : Inv ipc config base calls s)
    (hall : ∀ i, isAdding (s.phase i) = false) :
    s.threads.handed = s.threads.logged.map (·.2) ∧ s.threads.wal.buffer = [] := by
  have hidle : Idle s.threads := by
    intro i
    have hplace := h.place i
    have hi := hall i
    generalize s.threads.pc i = pc at hplace
    generalize s.phase i = phase at hplace hi
    generalize calls i = call at hplace
    cases hplace <;> simp [isAdding] at hi ⊢
  have hfew := hidle.few h.attended
  rw [h.config] at hfew
  have hbuf : s.threads.wal.buffer = [] := List.length_eq_zero_iff.1 (by omega)
  obtain ⟨front, hlog, hfront⟩ := h.ordered.order
  rcases unpushed_cases s.threads with hnil | ⟨i, e, -, -, hi⟩
  · rw [hnil, List.append_nil] at hlog
    rw [hbuf, List.append_nil] at hfront
    exact ⟨by rw [hlog, hfront], hbuf⟩
  · rcases hidle i with hp | ⟨e', hp⟩ | ⟨e', hp⟩ <;> rw [hi] at hp <;> cases hp

/-- When no `add` is going on, the manager is the one of the calls made one after
the other. -/
theorem Rel.final (hn : config.num_uncommitted_messages ≤ 1) (h : Rel ipc config base calls s a)
    (hall : ∀ i, isAdding (s.phase i) = false) :
    s.topic_metadatas = a.obj.topic_metadatas ∧ (∀ t, s.threads.backend.queue t = a.obj.backend.queue t) ∧
      s.threads.wal.buffer = a.obj.wal.buffer ∧ s.threads.wal.file.contents = a.obj.wal.file.contents := by
  obtain ⟨hhanded, hbuf⟩ := handed_all hn h.inv hall
  refine ⟨h.topic_metadatas.symm, fun t => ?_, ?_, ?_⟩
  · rw [h.log.queue]
    exact h.inv.ordered.backend.queue t
  · rw [h.drained]
    exact hbuf
  · rw [h.file, hhanded]
    exact h.inv.ordered.file

omit [DecidableEq ι] [DecidableEq σ] in
/-- The next `add` in the order of the frames. -/
theorem next_logged {th : Threads.State ι σ ρ} (h : Logged th) {n : Nat} (hn : n < th.logged.length) :
    ∃ k x, (k, x) ∈ th.logged ∧ th.logged.take (n + 1) = th.logged.take n ++ [(k, x)] ∧
      k ∉ (th.logged.take n).map (·.1) := by
  have htake : th.logged.take (n + 1) = th.logged.take n ++ [th.logged[n]] := by
    rw [List.take_add_one, List.getElem?_eq_getElem hn]
    rfl
  exact ⟨th.logged[n].1, th.logged[n].2, List.getElem_mem hn, htake, not_served h htake⟩

/-- The calls whose frames are written can all take effect at once: behind the
records handed over, the next `m` of the others. -/
theorem settle (hn : config.num_uncommitted_messages ≤ 1) (h : Rel ipc config base calls s a) (m : Nat)
    (hm : s.threads.handed.length + m ≤ s.threads.logged.length) :
    ∃ ls a', exec (Atomic.step (apply ipc) calls) a ls = some a' ∧ (∀ i ∈ ls, ∃ x, (i, x) ∈ s.threads.logged) ∧
      (∀ i ∉ (s.threads.logged.take (s.threads.handed.length + m)).map (·.1), a'.answer i = a.answer i) ∧
      a'.obj.topic_metadatas = s.topic_metadatas ∧ a'.obj.wal.config = config ∧ a'.obj.wal.buffer = [] ∧
      a'.obj.wal.file.contents =
        (base ++ (s.threads.logged.take (s.threads.handed.length + m)).map (·.2)).flatMap (frame ipc) := by
  induction m with
  | zero =>
    refine ⟨[], a, rfl, by simp, fun _ _ => rfl, h.topic_metadatas, h.config, h.drained, ?_⟩
    rw [Nat.add_zero, h.inv.ordered.take]
    exact h.file
  | succ m ih =>
    obtain ⟨ls, a', he, hls, hanswer, hmeta, hconfig, hdrained, hfile⟩ := ih (by omega)
    obtain ⟨k, x, hmem, htake, hnot⟩ := next_logged h.inv.logged (n := s.threads.handed.length + m) (by omega)
    have hnot' : k ∉ served s.threads := by
      refine fun hk => hnot ?_
      rw [served, List.map_take] at hk
      rw [List.map_take]
      exact List.mem_of_mem_take (i := s.threads.handed.length) (by rwa [List.take_take, Nat.min_eq_left (by omega)])
    obtain ⟨record, read, place, hc, hp, hpc, hr, hw⟩ := unserved hn h hmem hnot'
    rw [← hmeta] at hr
    have hadd := TopicManager.add_full a'.obj hr hw (by rw [hconfig]; omega)
    have hnone : a'.answer k = none := by
      rw [hanswer k hnot, h.answer]
      simp only [effective, hp, hpc, hnot', if_false]
    refine ⟨ls ++ [k], Atomic.effect (apply ipc) calls a' k, ?_, ?_, fun j hj => ?_, ?_, ?_, ?_, ?_⟩
    · rw [exec_append, he]
      simp [exec, Atomic.step, hnone]
    · simp only [List.mem_append, List.mem_singleton, or_imp, forall_and, forall_eq]
      exact ⟨hls, x, hmem⟩
    · rw [← Nat.add_assoc, htake, List.map_append, List.mem_append, not_or] at hj
      have hjk : j ≠ k := by simpa using hj.2
      exact (Function.update_of_ne hjk _ _).trans (hanswer j hj.1)
    all_goals simp only [Atomic.effect, hc, apply, hadd, hdrained, List.nil_append]
    · exact hmeta
    · exact hconfig
    · rfl
    · rw [← Nat.add_assoc, htake]
      simp [flushed, WriteAheadLog.logged, hfile]

end herbert.Serial
