import Herbert.Slices
import Herbert.Lib.Atomic
/-!
# The in-memory log is linearizable

Concurrent calls of `add` and `fetch` answer as if they were made one after the
other on one `InMemoryLog`. An `add` takes effect when it pushes its record, a
`fetch` when it finds no offset or when it reads. In between the index is ahead
of the queue, but then `offsets` is taken and nobody looks.
-/
open Lib Lib.Runs Lib.Mutex herbert.InMemoryLog herbert.Locks herbert.Slices

namespace herbert.Linear

variable {ι σ ρ : Type}

/-! ## Calls and answers -/

inductive Answer where
  | added
  | fetched (result : Except HerbertError Bytes)

/-- A call that is alone. -/
def apply (ipc : ArrowIpc σ ρ) : Call σ ρ → InMemoryLog σ ρ → Answer × InMemoryLog σ ρ
  | .add topic record, log => (.added, log.add topic record)
  | .fetch topic fetch_offset, log =>
    let (result, log) := log.fetch ipc topic fetch_offset
    (.fetched result, log)

/-- The answer of a call that has returned. -/
def outcome (s : State ι σ ρ) (i : ι) : Option Answer :=
  match s.pc i with
  | .added => some .added
  | .fetched result => some (.fetched result)
  | _ => none

def begun (s : State ι σ ρ) (i : ι) : Prop := ∀ call, s.pc i ≠ .ready call

/-- The answer of a call that has taken effect. -/
def effective : Pc σ ρ → Option Answer
  | .addDropped | .added => some .added
  | .fetchOffsets _ none => some (.fetched (.ok []))
  | .fetchBoth result | .fetchDropped result | .fetched result => some (.fetched result)
  | _ => none

/-- What a call that has not taken effect is about to do. -/
def Asks (log : InMemoryLog σ ρ) (call : Call σ ρ) : Pc σ ρ → Prop
  | .ready call' => call' = call
  | .addTopics t r | .addBoth t r => call = .add t r
  | .fetchOffsets t found => ∃ o, call = .fetch t o ∧ getOffset (log.offset_queue t) (asUsize o) = found
  | _ => True

/-! ## The relation -/

/-- `a.obj` has the records of the log, and the calls that have taken effect have
their answers. -/
structure Rel (calls : ι → Call σ ρ) (s : State ι σ ρ) (a : Atomic.State ι (InMemoryLog σ ρ) Answer) : Prop where
  indexed : Indexed s
  asks : ∀ i, Asks s.log (calls i) (s.pc i)
  answer : ∀ i, a.answer i = effective (s.pc i)
  holds : ∃ h, Holds a.obj h
  queue : ∀ t, s.log.queue t = a.obj.queue t

variable {ipc : ArrowIpc σ ρ} {calls : ι → Call σ ρ} {s s' : State ι σ ρ}
  {a : Atomic.State ι (InMemoryLog σ ρ) Answer} {i : ι} {t : String}

/-- While nothing is owed, both logs have the same index. -/
theorem Rel.index (h : Rel calls s a) (t : String) (howed : owed s t = []) :
    s.log.offset_queue t = a.obj.offset_queue t := by
  obtain ⟨hist, hh⟩ := h.holds
  rw [h.indexed.index, howed, List.append_nil, h.queue, hh.index, hh.queue]

theorem rel_start {log : InMemoryLog σ ρ} {h : History σ ρ} (hl : Holds log h) (calls : ι → Call σ ρ) :
    Rel calls (Locks.start log calls) (Atomic.start log) where
  indexed := {
    locks := inv_start log calls
    index := fun t => by
      rw [owed_free rfl, List.append_nil]
      exact (hl.index t).trans (by rw [← hl.queue t]; rfl)
    found := by simp [Locks.start] }
  asks i := rfl
  answer i := rfl
  holds := ⟨h, hl⟩
  queue t := rfl

/-- Nobody has looked up an offset while `offsets` is free. -/
theorem asks_of_free (h : Rel calls s a) (hfree : s.offsets = none) (log : InMemoryLog σ ρ) (j : ι) :
    Asks log (calls j) (s.pc j) := by
  have hasks := h.asks j
  cases hj : s.pc j with
  | fetchOffsets t found =>
    have hheld := (h.indexed.locks.offsets j).2 (by rw [hj]; rfl)
    rw [hfree] at hheld
    cases hheld
  | _ =>
    rw [hj] at hasks
    exact hasks

/-- What a call asks for depends on the index alone. -/
theorem Asks.congr {log log' : InMemoryLog σ ρ} {call : Call σ ρ} {p : Pc σ ρ} (h : Asks log call p)
    (hindex : ∀ t, log'.offset_queue t = log.offset_queue t) : Asks log' call p := by
  cases p with
  | fetchOffsets t found =>
    obtain ⟨o, hcall, hget⟩ := h
    exact ⟨o, hcall, by rw [hindex]; exact hget⟩
  | _ => exact h

variable [DecidableEq ι]

/-- A step of a call that does not take effect. -/
theorem Rel.keep (h : Rel calls s a) {p : Pc σ ρ} (hs : Locks.step ipc s i = some s')
    (hpc : s'.pc = Function.update s.pc i p) (heff : effective p = effective (s.pc i))
    (hasks : ∀ j, Asks s'.log (calls j) (s'.pc j)) (hq : ∀ t, s'.log.queue t = s.log.queue t) : Rel calls s' a where
  indexed := indexed_step h.indexed hs
  asks := hasks
  answer j := by
    rw [h.answer, hpc]
    by_cases hj : j = i
    · subst hj
      rw [Function.update_self, heff]
    · rw [Function.update_of_ne hj]
  holds := h.holds
  queue t := by rw [hq, h.queue]

/-- A step in which a call takes effect. -/
theorem Rel.effect (h : Rel calls s a) {p : Pc σ ρ} (hs : Locks.step ipc s i = some s')
    (hpc : s'.pc = Function.update s.pc i p) (hasks : ∀ j, Asks s'.log (calls j) (s'.pc j))
    (hnone : effective (s.pc i) = none) (hanswer : effective p = some (apply ipc (calls i) a.obj).1)
    (hholds : ∃ h, Holds (apply ipc (calls i) a.obj).2 h)
    (hq : ∀ t, s'.log.queue t = (apply ipc (calls i) a.obj).2.queue t) :
    ∃ ls a', exec (Atomic.step (apply ipc) calls) a ls = some a' ∧ Rel calls s' a' := by
  refine ⟨[i], Atomic.effect (apply ipc) calls a i, ?_, ?_⟩
  · simp [exec, Atomic.step, h.answer, hnone]
  · refine ⟨indexed_step h.indexed hs, hasks, fun j => ?_, hholds, hq⟩
    rw [hpc]
    by_cases hj : j = i
    · subst hj
      simp only [Atomic.effect, Function.update_self, hanswer]
    · simp only [Atomic.effect, Function.update_of_ne hj, h.answer]

/-- The others ask for what they asked for. -/
theorem asks_update (h : Rel calls s a) {p : Pc σ ρ} (hpc : s'.pc = Function.update s.pc i p)
    (hp : Asks s'.log (calls i) p) (hindex : ∀ t, s'.log.offset_queue t = s.log.offset_queue t) (j : ι) :
    Asks s'.log (calls j) (s'.pc j) := by
  rw [hpc]
  by_cases hj : j = i
  · subst hj
    rw [Function.update_self]
    exact hp
  · rw [Function.update_of_ne hj]
    exact (h.asks j).congr hindex

/-- A `fetch` that finds no offset has its answer. -/
theorem sim_look_up (h : Rel calls s a) (hs : Locks.step ipc s i = some s') {o : Int}
    (hpc : s.pc i = .ready (.fetch t o)) (hfree : s.offsets = none) (hq : ∀ t, s'.log.queue t = s.log.queue t)
    (hindex : ∀ t, s'.log.offset_queue t = s.log.offset_queue t)
    (hpc' : s'.pc = Function.update s.pc i (.fetchOffsets t (getOffset (s.log.offset_queue t) (asUsize o)))) :
    ∃ ls a', exec (Atomic.step (apply ipc) calls) a ls = some a' ∧ Rel calls s' a' := by
  obtain ⟨hist, hhist⟩ := h.holds
  have hi : calls i = .fetch t o := by
    have := h.asks i
    rw [hpc] at this
    exact this.symm
  have hasks : ∀ j, Asks s'.log (calls j) (s'.pc j) := asks_update h hpc' ⟨o, hi, by rw [hindex]⟩ hindex
  have hnone : effective (s.pc i) = none := by rw [hpc]; rfl
  cases hget : getOffset (s.log.offset_queue t) (asUsize o) with
  | none =>
    rw [hget] at hpc'
    have hfetch := fetch_none ipc (by rw [← h.index t (owed_free hfree t)]; exact hget)
    refine h.effect hs hpc' hasks hnone ?_ ?_ ?_
    · simp only [hi, apply, hfetch]
      rfl
    · simp only [hi, apply]
      exact ⟨hist, hhist.fetch ipc t o⟩
    · intro t'
      simp only [hi, apply, queue_fetch, hq, h.queue]
  | some ro =>
    rw [hget] at hpc'
    exact ⟨[], a, rfl, h.keep hs hpc' hnone.symm hasks hq⟩

theorem sim_step (h : Rel calls s a) (hs : Locks.step ipc s i = some s') :
    ∃ ls a', exec (Atomic.step (apply ipc) calls) a ls = some a' ∧ Rel calls s' a' := by
  obtain ⟨hist, hhist⟩ := h.holds
  have hi := h.asks i
  have hstutter : Rel calls s' a → ∃ ls a', exec (Atomic.step (apply ipc) calls) a ls = some a' ∧ Rel calls s' a' :=
    fun h' => ⟨[], a, rfl, h'⟩
  cases step_move hs with
  | @take_topics t r hpc =>
    rw [hpc] at hi
    refine hstutter (h.keep hs rfl (by rw [hpc]; rfl) (asks_update h rfl hi.symm fun _ => rfl) fun _ => ?_)
    exact lookup_insert_self _ _ _
  | @push_offsets t r hpc hfree =>
    rw [hpc] at hi
    refine hstutter (h.keep hs rfl (by rw [hpc]; rfl) (fun j => ?_) fun _ => rfl)
    by_cases hj : j = i
    · subst hj
      simpa [Asks] using hi
    · simpa [Function.update_of_ne hj] using asks_of_free h hfree _ j
  | @push_record t r hpc =>
    rw [hpc] at hi
    refine h.effect hs rfl (asks_update h rfl trivial fun _ => rfl) (by rw [hpc]; rfl) (by rw [hi]; rfl) ?_ ?_
    · exact ⟨_, by rw [hi]; exact hhist.add t r⟩
    · intro t'
      rw [hi]
      show (s.log.push_record t r).queue t' = (a.obj.add t r).queue t'
      rw [queue_push_record, queue_add, h.queue, h.queue]
  | added hpc => exact hstutter (h.keep hs rfl (by rw [hpc]; rfl) (asks_update h rfl trivial fun _ => rfl) fun _ => rfl)
  | look_up hpc hfree => exact sim_look_up h hs hpc hfree (fun _ => rfl) (fun _ => lookup_insert_self _ _ _) rfl
  | not_found hpc => exact hstutter (h.keep hs rfl (by rw [hpc]; rfl) (asks_update h rfl trivial fun _ => rfl) fun _ => rfl)
  | @read t ro hpc hfree =>
    rw [hpc] at hi
    obtain ⟨o, hcall, hget⟩ := hi
    have howed : owed s t = [] := by
      rw [owed_held ((h.indexed.locks.offsets i).2 (by rw [hpc]; rfl)), hpc]
      rfl
    have hget' : getOffset (a.obj.offset_queue t) (asUsize o) = some ro := by rwa [← h.index t howed]
    have hfetch := fetch_some ipc hget'
    refine h.effect hs rfl (asks_update h rfl trivial fun _ => rfl) (by rw [hpc]; rfl) ?_ ?_ ?_
    · simp only [hcall, apply, hfetch, h.queue]
      rfl
    · simp only [hcall, apply]
      exact ⟨hist, hhist.fetch ipc t o⟩
    · intro t'
      simp only [hcall, apply, queue_fetch, ← h.queue]
      exact lookup_insert_self _ _ _
  | drop_topics hpc =>
    exact hstutter (h.keep hs rfl (by rw [hpc]; rfl) (asks_update h rfl trivial fun _ => rfl) fun _ => rfl)
  | fetched hpc => exact hstutter (h.keep hs rfl (by rw [hpc]; rfl) (asks_update h rfl trivial fun _ => rfl) fun _ => rfl)

omit [DecidableEq ι] in
/-- A call that has returned has taken effect. -/
theorem Rel.outcome (h : Rel calls s a) {r : Answer} (hr : outcome s i = some r) : a.answer i = some r := by
  rw [h.answer]
  unfold Linear.outcome at hr
  split at hr
  · rename_i hpc
    rw [hpc]
    exact hr
  · rename_i result hpc
    rw [hpc]
    exact hr
  · cases hr

omit [DecidableEq ι] in
theorem Rel.not_begun (h : Rel calls s a) (hb : ¬ begun s i) : a.answer i = none := by
  simp only [begun, not_forall, not_not] at hb
  obtain ⟨call, hcall⟩ := hb
  rw [h.answer, hcall]
  rfl

/-- For any calls and any interleaving there is one order of the calls in which
each has the answer that the log gives when they are made one after the other,
and in which no call stands before one that returned before it began. The queues
are then those of this sequential run, and while no `add` holds both locks so is
the index. -/
theorem log_linearizable (ipc : ArrowIpc σ ρ) {log : InMemoryLog σ ρ} {h : History σ ρ} (hl : Holds log h)
    (calls : ι → Call σ ρ) {tr} {s : State ι σ ρ} (hr : Run (Locks.step ipc) (Locks.start log calls) tr s) :
    ∃ order, Atomic.Linear (apply ipc) calls outcome begun log tr s order ∧
      (∀ t, s.log.queue t = (Atomic.after (apply ipc) calls log order).queue t) ∧
      (¬ AddHoldsBoth s → ∀ t,
        s.log.offset_queue t = (Atomic.after (apply ipc) calls log order).offset_queue t) := by
  obtain ⟨order, a, hlin, hrel, hobj⟩ := Atomic.Run.linear (Rel calls) (rel_start hl calls)
    (fun _ _ _ _ => sim_step) (fun _ _ _ _ h => h.outcome) (fun _ _ _ h => h.not_begun) hr
  refine ⟨order, hlin, fun t => ?_, fun hboth t => ?_⟩
  · rw [← hobj]
    exact hrel.queue t
  · rw [← hobj]
    exact hrel.index t (owed_eq_nil hrel.indexed.locks hboth t)

/-- The fetch looks up its offset while the add still holds `topics`. -/
theorem log_linearizable_pocket :
    let calls : Fin 2 → Call UInt8 UInt8 := fun i => if i = 0 then .add "t" (.Raw [2]) else .fetch "t" 0
    let log : InMemoryLog UInt8 UInt8 := InMemoryLog.new.add "t" (.Raw [1])
    ∃ tr s, Run (Locks.step pocketIpc) (Locks.start log calls) tr s ∧
      outcome s 0 = some .added ∧ outcome s 1 = some (.fetched (.ok [1, 0, 2])) ∧
      ∃ order, Atomic.Linear (apply pocketIpc) calls outcome begun log tr s order := by
  intro calls log
  have he : exec (Locks.step pocketIpc) (Locks.start log calls) [0, 0, 0, 1, 0, 1, 1, 1] = some _ := rfl
  obtain ⟨tr, hr, -⟩ := Run.nil.exec he
  obtain ⟨order, hlin, -⟩ := log_linearizable pocketIpc (holds_new.add "t" (.Raw [1])) calls hr
  exact ⟨_, _, hr, rfl, rfl, order, hlin⟩

end herbert.Linear
