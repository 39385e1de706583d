import Herbert.Storage
import Herbert.Lib.Runs
import Herbert.Lib.Mutex
/-!
# The two locks of the in-memory log

`add` takes `topics`, then `offsets`; `fetch` takes `offsets` and, if the offset
exists, `topics`. Any number of calls take one step for each lock they take or
give back, with the code up to the next such point. Guards are dropped in
reverse order. Alone, a call does what `InMemoryLog.add` or `InMemoryLog.fetch`
does (`solo_add`, `solo_fetch`).

A state is stuck exactly if an `add` holds `topics` while a `fetch` that found
its offset holds `offsets` (`stuck_iff_crossed`). This does happen, and
`never_stuck_iff` says which steps lead there.
-/
open Lib.Runs Lib.Mutex herbert.InMemoryLog

namespace herbert.Locks

variable {ι σ ρ : Type} [DecidableEq ι] (ipc : ArrowIpc σ ρ)

/-! ## The system -/

inductive Call (σ ρ : Type) where
  | add (topic : String) (record : StoredRecord σ ρ)
  | fetch (topic : String) (fetch_offset : Int)

/-- Where a call is. -/
inductive Pc (σ ρ : Type) where
  | ready (call : Call σ ρ)
  /-- `add` holds `topics`. -/
  | addTopics (topic : String) (record : StoredRecord σ ρ)
  /-- `add` holds both locks and has pushed the offsets. -/
  | addBoth (topic : String) (record : StoredRecord σ ρ)
  /-- `add` has pushed the record and holds `topics`. -/
  | addDropped
  | added
  /-- `fetch` holds `offsets` and has looked up the offset. -/
  | fetchOffsets (topic : String) (record_offset : Option RecordOffset)
  /-- `fetch` holds both locks and has read the records. -/
  | fetchBoth (result : Except HerbertError Bytes)
  /-- `fetch` holds `offsets`. -/
  | fetchDropped (result : Except HerbertError Bytes)
  | fetched (result : Except HerbertError Bytes)

structure State (ι σ ρ : Type) where
  log : InMemoryLog σ ρ
  topics : Option ι
  offsets : Option ι
  pc : ι → Pc σ ρ

/-- All calls are about to begin, on any log. -/
def start (log : InMemoryLog σ ρ) (calls : ι → Call σ ρ) : State ι σ ρ := ⟨log, none, none, fun i => .ready (calls i)⟩

/-- The next step of call `i`; `none` if it waits for a lock or is done. -/
def step (s : State ι σ ρ) (i : ι) : Option (State ι σ ρ) :=
  let go (pc : Pc σ ρ) := Function.update s.pc i pc
  match s.pc i with
  | .ready (.add t r) =>
    if s.topics = none then
      some { s with
        topics := some i, log := { s.log with topics := s.log.topics.insert t (s.log.queue t) },
        pc := go (.addTopics t r) }
    else none
  | .addTopics t r =>
    if s.offsets = none then
      some { s with offsets := some i, log := s.log.push_offsets t r, pc := go (.addBoth t r) }
    else none
  | .addBoth t r => some { s with offsets := none, log := s.log.push_record t r, pc := go .addDropped }
  | .addDropped => some { s with topics := none, pc := go .added }
  | .ready (.fetch t o) =>
    if s.offsets = none then
      some { s with
        offsets := some i, log := { s.log with offsets := s.log.offsets.insert t (s.log.offset_queue t) },
        pc := go (.fetchOffsets t (getOffset (s.log.offset_queue t) (asUsize o))) }
    else none
  | .fetchOffsets _ none => some { s with offsets := none, pc := go (.fetched (.ok [])) }
  | .fetchOffsets t (some record_offset) =>
    if s.topics = none then
      some { s with
        topics := some i, log := { s.log with topics := s.log.topics.insert t (s.log.queue t) },
        pc := go (.fetchBoth (fetch_records ipc (s.log.queue t) record_offset)) }
    else none
  | .fetchBoth result => some { s with topics := none, pc := go (.fetchDropped result) }
  | .fetchDropped result => some { s with offsets := none, pc := go (.fetched result) }
  | .added => none
  | .fetched _ => none

/-! ## One call alone -/

theorem solo_add {s : State ι σ ρ} {i : ι} {t : String} {r : StoredRecord σ ρ} (hi : s.pc i = .ready (.add t r))
    (ht : s.topics = none) (ho : s.offsets = none) :
    exec (step ipc) s [i, i, i, i] =
      some { s with log := s.log.add t r, pc := Function.update s.pc i .added } := by
  simp [exec, step, hi, ht, ho, InMemoryLog.add, push_record, push_offsets, queue, offset_queue]

theorem solo_fetch {s : State ι σ ρ} {i : ι} {t : String} {o : Int} (hi : s.pc i = .ready (.fetch t o))
    (ht : s.topics = none) (ho : s.offsets = none) :
    exec (step ipc) s (match getOffset (s.log.offset_queue t) (asUsize o) with
      | none => [i, i]
      | some _ => [i, i, i, i]) =
      some { s with log := (s.log.fetch ipc t o).2, pc := Function.update s.pc i (.fetched (s.log.fetch ipc t o).1) } := by
  cases h : getOffset (s.log.offset_queue t) (asUsize o) with
  | none => simp [exec, step, hi, ho, h, fetch_none ipc h]
  | some ro => simp [exec, step, hi, ht, ho, h, fetch_some ipc h, queue]

/-! ## One step -/

/-- What a step of call `i` can be. -/
inductive Move (s : State ι σ ρ) (i : ι) : State ι σ ρ → Prop
  | take_topics {t : String} {r : StoredRecord σ ρ} (hi : s.pc i = .ready (.add t r)) (free : s.topics = none) :
    Move s i { s with
      topics := some i, log := { s.log with topics := s.log.topics.insert t (s.log.queue t) },
      pc := Function.update s.pc i (.addTopics t r) }
  | push_offsets {t : String} {r : StoredRecord σ ρ} (hi : s.pc i = .addTopics t r) (free : s.offsets = none) :
    Move s i { s with
      offsets := some i, log := s.log.push_offsets t r, pc := Function.update s.pc i (.addBoth t r) }
  | push_record {t : String} {r : StoredRecord σ ρ} (hi : s.pc i = .addBoth t r) :
    Move s i { s with offsets := none, log := s.log.push_record t r, pc := Function.update s.pc i .addDropped }
  | added (hi : s.pc i = .addDropped) : Move s i { s with topics := none, pc := Function.update s.pc i .added }
  | look_up {t : String} {o : Int} (hi : s.pc i = .ready (.fetch t o)) (free : s.offsets = none) :
    Move s i { s with
      offsets := some i, log := { s.log with offsets := s.log.offsets.insert t (s.log.offset_queue t) },
      pc := Function.update s.pc i (.fetchOffsets t (getOffset (s.log.offset_queue t) (asUsize o))) }
  | not_found {t : String} (hi : s.pc i = .fetchOffsets t none) :
    Move s i { s with offsets := none, pc := Function.update s.pc i (.fetched (.ok [])) }
  | read {t : String} {ro : RecordOffset} (hi : s.pc i = .fetchOffsets t (some ro)) (free : s.topics = none) :
    Move s i { s with
      topics := some i, log := { s.log with topics := s.log.topics.insert t (s.log.queue t) },
      pc := Function.update s.pc i (.fetchBoth (fetch_records ipc (s.log.queue t) ro)) }
  | drop_topics {result : Except HerbertError Bytes} (hi : s.pc i = .fetchBoth result) :
    Move s i { s with topics := none, pc := Function.update s.pc i (.fetchDropped result) }
  | fetched {result : Except HerbertError Bytes} (hi : s.pc i = .fetchDropped result) :
    Move s i { s with offsets := none, pc := Function.update s.pc i (.fetched result) }

variable {ipc} {s s' : State ι σ ρ} {i : ι}

theorem step_move (hs : step ipc s i = some s') : Move ipc s i s' := by
  unfold step at hs
  cases hi : s.pc i with
  | ready call =>
    cases call with
    | add t r =>
      simp only [hi, Option.ite_none_right_eq_some, Option.some.injEq] at hs
      obtain ⟨hfree, rfl⟩ := hs
      exact .take_topics hi hfree
    | fetch t o =>
      simp only [hi, Option.ite_none_right_eq_some, Option.some.injEq] at hs
      obtain ⟨hfree, rfl⟩ := hs
      exact .look_up hi hfree
  | addTopics t r =>
    simp only [hi, Option.ite_none_right_eq_some, Option.some.injEq] at hs
    obtain ⟨hfree, rfl⟩ := hs
    exact .push_offsets hi hfree
  | addBoth t r =>
    simp only [hi, Option.some.injEq] at hs
    exact hs ▸ .push_record hi
  | addDropped =>
    simp only [hi, Option.some.injEq] at hs
    exact hs ▸ .added hi
  | fetchOffsets t found =>
    cases found with
    | none =>
      simp only [hi, Option.some.injEq] at hs
      exact hs ▸ .not_found hi
    | some ro =>
      simp only [hi, Option.ite_none_right_eq_some, Option.some.injEq] at hs
      obtain ⟨hfree, rfl⟩ := hs
      exact .read hi hfree
  | fetchBoth result =>
    simp only [hi, Option.some.injEq] at hs
    exact hs ▸ .drop_topics hi
  | fetchDropped result =>
    simp only [hi, Option.some.injEq] at hs
    exact hs ▸ .fetched hi
  | added => simp [hi] at hs
  | fetched result => simp [hi] at hs

/-! ## Who holds what -/

def holdsTopics : Pc σ ρ → Bool
  | .addTopics _ _ | .addBoth _ _ | .addDropped | .fetchBoth _ => true
  | _ => false

def holdsOffsets : Pc σ ρ → Bool
  | .addBoth _ _ | .fetchOffsets _ _ | .fetchBoth _ | .fetchDropped _ => true
  | _ => false

structure Inv (s : State ι σ ρ) : Prop where
  topics : Guards s.topics holdsTopics s.pc
  offsets : Guards s.offsets holdsOffsets s.pc

omit [DecidableEq ι] in
theorem inv_start (log : InMemoryLog σ ρ) (calls : ι → Call σ ρ) : Inv (start log calls) :=
  ⟨guards_free fun _ => rfl, guards_free fun _ => rfl⟩

theorem inv_step (h : Inv s) (hs : step ipc s i = some s') : Inv s' := by
  obtain ⟨ht, ho⟩ := h
  cases step_move hs with
  | take_topics hi hfree =>
    rw [hfree] at ht
    exact ⟨ht.acquire rfl, ho.keep (by rw [hi]; rfl)⟩
  | push_offsets hi hfree =>
    rw [hfree] at ho
    exact ⟨ht.keep (by rw [hi]; rfl), ho.acquire rfl⟩
  | push_record hi => exact ⟨ht.keep (by rw [hi]; rfl), ho.release (by rw [hi]; rfl) rfl⟩
  | added hi => exact ⟨ht.release (by rw [hi]; rfl) rfl, ho.keep (by rw [hi]; rfl)⟩
  | look_up hi hfree =>
    rw [hfree] at ho
    exact ⟨ht.keep (by rw [hi]; rfl), ho.acquire rfl⟩
  | not_found hi => exact ⟨ht.keep (by rw [hi]; rfl), ho.release (by rw [hi]; rfl) rfl⟩
  | read hi hfree =>
    rw [hfree] at ht
    exact ⟨ht.acquire rfl, ho.keep (by rw [hi]; rfl)⟩
  | drop_topics hi => exact ⟨ht.release (by rw [hi]; rfl) rfl, ho.keep (by rw [hi]; rfl)⟩
  | fetched hi => exact ⟨ht.keep (by rw [hi]; rfl), ho.release (by rw [hi]; rfl) rfl⟩

/-! ## Stuck states -/

/-- `add` waits for `offsets`, holding `topics`. -/
def waitsForOffsets : Pc σ ρ → Bool
  | .addTopics _ _ => true
  | _ => false

/-- `fetch` waits for `topics`, holding `offsets`. -/
def waitsForTopics : Pc σ ρ → Bool
  | .fetchOffsets _ (some _) => true
  | _ => false

def Unfinished : Pc σ ρ → Prop
  | .added | .fetched _ => False
  | _ => True

variable (ipc) in
/-- A call is not finished, and none can take a step. -/
def Stuck (s : State ι σ ρ) : Prop := (∃ i, Unfinished (s.pc i)) ∧ ∀ i, step ipc s i = none

/-- Each of the two holds the lock the other one waits for. -/
def Crossed (s : State ι σ ρ) : Prop := Somewhere waitsForOffsets s.pc ∧ Somewhere waitsForTopics s.pc

/-- What call `i` waits for is taken, or it is done. -/
def Blocked (s : State ι σ ρ) (i : ι) : Prop :=
  match s.pc i with
  | .ready (.add _ _) | .fetchOffsets _ (some _) => s.topics ≠ none
  | .ready (.fetch _ _) | .addTopics _ _ => s.offsets ≠ none
  | .added | .fetched _ => True
  | _ => False

theorem step_eq_none : step ipc s i = none ↔ Blocked s i := by
  unfold step Blocked
  cases s.pc i with
  | ready call => cases call <;> simp
  | fetchOffsets t found => cases found <;> simp
  | _ => simp

theorem Crossed.stuck (h : Inv s) (hc : Crossed s) : Stuck ipc s := by
  obtain ⟨⟨i, hi⟩, j, hj⟩ := hc
  have hiT : holdsTopics (s.pc i) = true := by
    revert hi; cases s.pc i <;> simp [waitsForOffsets, holdsTopics]
  have hjO : holdsOffsets (s.pc j) = true := by
    revert hj; cases s.pc j <;> simp [waitsForTopics, holdsOffsets]
  have hT := h.topics.ne_none hiT
  have hO := h.offsets.ne_none hjO
  refine ⟨⟨i, ?_⟩, fun k => step_eq_none.2 ?_⟩
  · revert hi; cases s.pc i <;> simp [waitsForOffsets, Unfinished]
  · -- a call that waits for nothing would be `i` or `j`
    have hki : holdsTopics (s.pc k) = true → waitsForOffsets (s.pc k) = true := by
      intro hk; rwa [h.topics.unique hk hiT]
    have hkj : holdsOffsets (s.pc k) = true → waitsForTopics (s.pc k) = true := by
      intro hk; rwa [h.offsets.unique hk hjO]
    unfold Blocked
    revert hki hkj
    cases s.pc k with
    | ready call => cases call <;> simp [hT, hO]
    | fetchOffsets t found => cases found <;> simp [holdsOffsets, waitsForTopics, hT]
    | _ => simp [holdsTopics, holdsOffsets, waitsForOffsets, waitsForTopics, hO]

theorem Stuck.crossed (h : Inv s) (hs : Stuck ipc s) : Crossed s := by
  obtain ⟨⟨i, hi⟩, hall⟩ := hs
  have hblocked : ∀ k, Blocked s k := fun k => step_eq_none.1 (hall k)
  have hT : s.topics ≠ none → Somewhere waitsForOffsets s.pc ∧ s.offsets ≠ none := by
    intro hne
    obtain ⟨a, ha⟩ := Option.ne_none_iff_exists'.1 hne
    have hb := hblocked a
    have hh := (h.topics a).1 ha
    have hres : waitsForOffsets (s.pc a) = true ∧ s.offsets ≠ none := by
      revert hb hh
      unfold Blocked
      cases s.pc a <;> simp [holdsTopics, waitsForOffsets]
    exact ⟨⟨a, hres.1⟩, hres.2⟩
  have hO : s.offsets ≠ none → Somewhere waitsForTopics s.pc ∧ s.topics ≠ none := by
    intro hne
    obtain ⟨b, hb⟩ := Option.ne_none_iff_exists'.1 hne
    have hbl := hblocked b
    have hh := (h.offsets b).1 hb
    have hres : waitsForTopics (s.pc b) = true ∧ s.topics ≠ none := by
      revert hbl hh
      unfold Blocked
      cases s.pc b with
      | fetchOffsets t found => cases found <;> simp +contextual [waitsForTopics]
      | _ => simp [holdsOffsets]
    exact ⟨⟨b, hres.1⟩, hres.2⟩
  have hsome : s.topics ≠ none ∨ s.offsets ≠ none := by
    have hb := hblocked i
    revert hb hi
    unfold Blocked
    cases s.pc i with
    | ready call => cases call <;> simp +contextual
    | fetchOffsets t found => cases found <;> simp +contextual
    | _ => simp +contextual [Unfinished]
  rcases hsome with hne | hne
  · exact ⟨(hT hne).1, (hO (hT hne).2).1⟩
  · exact ⟨(hT (hO hne).2).1, (hO hne).1⟩

theorem stuck_iff_crossed (h : Inv s) : Stuck ipc s ↔ Crossed s := ⟨Stuck.crossed h, Crossed.stuck h⟩

/-! ## The steps that lead there -/

/-- An `add` takes `topics` only while no `fetch` that found its offset waits
for it, and such a `fetch` takes `offsets` only while no `add` waits for it. -/
def Careful (s : State ι σ ρ) (i : ι) : Prop :=
  match s.pc i with
  | .ready (.add _ _) => ¬ Somewhere waitsForTopics s.pc
  | .ready (.fetch t o) =>
    getOffset (s.log.offset_queue t) (asUsize o) ≠ none → ¬ Somewhere waitsForOffsets s.pc
  | _ => True

/-- A step to a place where the call waits for no lock crosses nothing. -/
theorem not_crossed_update {p : Pc σ ρ} (hpc : s'.pc = Function.update s.pc i p) (hO : waitsForOffsets p = false)
    (hT : waitsForTopics p = false) (h : ¬ Crossed s) : ¬ Crossed s' := by
  rintro ⟨h1, h2⟩
  rw [hpc] at h1 h2
  exact h ⟨h1.before hO, h2.before hT⟩

theorem crossed_step (h : ¬ Crossed s) (hs : step ipc s i = some s') : ¬ Crossed s' ↔ Careful s i := by
  unfold Careful
  cases step_move hs with
  | take_topics hi =>
    rw [hi]
    refine not_congr ⟨fun hc => hc.2.before rfl, fun hw => ⟨somewhere_here rfl, hw.after ?_⟩⟩
    rw [hi]; rfl
  | @look_up t o hi =>
    rw [hi]
    cases hg : getOffset (s.log.offset_queue t) (asUsize o) with
    | none => exact iff_of_true (not_crossed_update rfl rfl rfl h) (by simp [hg])
    | some ro =>
      have hcross : Crossed { s with
          offsets := some i, log := { s.log with offsets := s.log.offsets.insert t (s.log.offset_queue t) },
          pc := Function.update s.pc i (.fetchOffsets t (some ro)) } ↔ Somewhere waitsForOffsets s.pc := by
        refine ⟨fun hc => hc.1.before rfl, fun hw => ⟨hw.after ?_, somewhere_here rfl⟩⟩
        rw [hi]; rfl
      simpa [hg] using not_congr hcross
  | push_offsets hi | push_record hi | added hi | not_found hi | read hi | drop_topics hi | fetched hi =>
    rw [hi]
    exact iff_of_true (not_crossed_update rfl rfl rfl h) trivial

/-- No state of a run is stuck if and only if every step of it is careful. -/
theorem never_stuck_iff (ipc : ArrowIpc σ ρ) (log : InMemoryLog σ ρ) (calls : ι → Call σ ρ) {tr}
    {s : State ι σ ρ} (hr : Run (step ipc) (start log calls) tr s) :
    Throughout (fun s => ¬ Stuck ipc s) tr s ↔ Always Careful tr := by
  refine hr.iff_while Inv _ (inv_start log calls) (fun _ _ _ => inv_step) ?_ ?_
  · rw [stuck_iff_crossed (inv_start log calls)]
    rintro ⟨⟨i, hi⟩, -⟩
    cases hi
  · intro s i s' h hns hs
    rw [stuck_iff_crossed h] at hns
    rw [stuck_iff_crossed (inv_step h hs)]
    exact crossed_step hns hs

/-- A fetch of a record that is there begins while an add still holds `topics`. -/
theorem never_stuck_iff_two :
    let calls : Bool → Call UInt8 UInt8 := fun b => if b then .add "t" (.Raw [1]) else .fetch "t" 0
    ∃ tr s, Run (step pocketIpc) (start (new.add "t" (.Raw [0])) calls) tr s ∧
      tr.map (·.2) = [true, true, true, false, true, false, false, false] ∧
      (∀ b, s.pc b = if b then .added else .fetched (.ok [0, 0, 1])) ∧ Throughout (fun s => ¬ Stuck pocketIpc s) tr s := by
  intro calls
  have hr : Run (step pocketIpc) (start (new.add "t" (.Raw [0])) calls) _ _ :=
    (((((((Run.nil.snoc (l := true) rfl).snoc (l := true) rfl).snoc (l := true) rfl).snoc (l := false) rfl).snoc
      (l := true) rfl).snoc (l := false) rfl).snoc (l := false) rfl).snoc (l := false) rfl
  refine ⟨_, _, hr, rfl, fun b => by cases b <;> rfl, (never_stuck_iff pocketIpc _ _ hr).2 ?_⟩
  simp only [always_snoc, always_nil, true_and]
  refine ⟨⟨⟨⟨⟨⟨⟨?_, trivial⟩, trivial⟩, fun _ => ?_⟩, trivial⟩, trivial⟩, trivial⟩, trivial⟩
  · rintro ⟨b, hb⟩
    cases b <;> cases hb
  · rintro ⟨b, hb⟩
    cases b <;> cases hb

/-- An add and a fetch of a record that is there can block each other. -/
theorem add_and_fetch_deadlock :
    ¬ ∀ (log : InMemoryLog UInt8 UInt8) (calls : Bool → Call UInt8 UInt8) (s : State Bool UInt8 UInt8),
      Reachable (step pocketIpc) (start log calls) s → ¬ Stuck pocketIpc s := by
  intro h
  have hs : Reachable (step pocketIpc) (start (new.add "t" (.Raw [0])) fun b : Bool =>
      if b then .add "t" (.Raw [1]) else .fetch "t" 0) _ :=
    reachable_exec (show exec _ _ [true, false] = some _ from rfl)
  refine h _ _ _ hs ⟨⟨true, trivial⟩, fun i => ?_⟩
  cases i <;> rfl

end herbert.Locks
