import Herbert.Threads
/-!
# WAL order is log order

`Inv` holds in every reachable state: the frames written are those of the
records handed to the backend, then of those in the WAL buffer, then of the
record whose writer has not pushed it yet. From it follow what the WAL buffer
holds between calls, and what an `Ok` means when one uncommitted message is
enough for a flush.
-/
open Lib Lib.Bytes Lib.Runs Lib.Mutex herbert.WriteAheadLog herbert.Threads

namespace herbert.WalOrder

variable {ι σ ρ : Type}

/-! ## The locks -/

def holdsFile : Pc σ ρ → Bool
  | .adding .written _ | .adding .pushed _ => true
  | _ => false

def holdsBuffer : Pc σ ρ → Bool
  | .adding .draining _ => true
  | _ => false

structure Locked (s : State ι σ ρ) : Prop where
  file : Guards s.fileLock holdsFile s.pc
  buffer : Guards s.bufferLock holdsBuffer s.pc

/-- The record of the thread that holds the file lock, if it has not pushed it. -/
def unpushed (s : State ι σ ρ) : List (ι × String × StoredRecord σ ρ) :=
  match s.fileLock with
  | none => []
  | some i =>
    match s.pc i with
    | .adding .written e => [(i, e)]
    | _ => []

variable {setup : Setup ι σ ρ} {s s' : State ι σ ρ} {i : ι}

theorem unpushed_written (h : Locked s) {e : String × StoredRecord σ ρ} (hi : s.pc i = .adding .written e) :
    unpushed s = [(i, e)] := by
  have hl := (h.file i).2 (by rw [hi]; rfl)
  simp [unpushed, hl, hi]

theorem unpushed_pushed (h : Locked s) {e : String × StoredRecord σ ρ} (hi : s.pc i = .adding .pushed e) :
    unpushed s = [] := by
  have hl := (h.file i).2 (by rw [hi]; rfl)
  simp [unpushed, hl, hi]

theorem unpushed_none (hl : s.fileLock = none) : unpushed s = [] := by simp [unpushed, hl]

variable [DecidableEq ι]

/-- A thread that does not hold the file lock leaves the unpushed record alone. -/
theorem unpushed_other (h : Locked s) {p : Pc σ ρ} (hi : holdsFile (s.pc i) = false)
    (hlock : s'.fileLock = s.fileLock) (hpc : s'.pc = Function.update s.pc i p) : unpushed s' = unpushed s := by
  unfold unpushed
  rw [hlock, hpc]
  cases hl : s.fileLock with
  | none => rfl
  | some j =>
    have hj := (h.file j).1 hl
    have hne : j ≠ i := by
      rintro rfl
      rw [hi] at hj
      cases hj
    simp only [Function.update_of_ne hne]

variable [DecidableEq σ]

theorem locked_step (h : Locked s) (hm : Move setup s i s') : Locked s' := by
  obtain ⟨hf, hb⟩ := h
  cases hm with
  | fail e hi => exact ⟨hf.keep (by rw [hi]; rfl), hb.keep (by rw [hi]; rfl)⟩
  | write r hi hfree =>
    rw [hfree] at hf
    exact ⟨hf.acquire rfl, hb.keep (by rw [hi]; rfl)⟩
  | push e hi => exact ⟨hf.keep (by rw [hi]; rfl), hb.keep (by rw [hi]; rfl)⟩
  | unlock e hi => exact ⟨hf.release (by rw [hi]; rfl) rfl, hb.keep (by rw [hi]; rfl)⟩
  | enough e hi => exact ⟨hf.keep (by rw [hi]; rfl), hb.keep (by rw [hi]; rfl)⟩
  | few e hi => exact ⟨hf.keep (by rw [hi]; rfl), hb.keep (by rw [hi]; rfl)⟩
  | flush e hi => exact ⟨hf.keep (by rw [hi]; rfl), hb.keep (by rw [hi]; rfl)⟩
  | drain e hi hfree =>
    rw [hfree] at hb
    exact ⟨hf.keep (by rw [hi]; rfl), hb.acquire rfl⟩
  | hand e x rest hi => exact ⟨hf, hb⟩
  | finish e hi => exact ⟨hf.keep (by rw [hi]; rfl), hb.release (by rw [hi]; rfl) rfl⟩

/-! ## The order -/

/-- The frames written are those handed over, buffered and unpushed, in this
order; they are in the file, and those handed over are in the backend. -/
structure Ordered (ipc : ArrowIpc σ ρ) (base : History σ ρ) (s : State ι σ ρ) : Prop where
  order : ∃ front, s.logged = front ++ unpushed s ∧ front.map (·.2) = s.handed ++ s.wal.buffer
  file : s.wal.file.contents = (base ++ s.logged.map (·.2)).flatMap (frame ipc)
  backend : Holds s.backend (base ++ s.handed)

omit [DecidableEq ι] [DecidableEq σ] in
theorem Ordered.keep {base : History σ ρ} (h : Ordered setup.ipc base s) (hlog : s'.logged = s.logged)
    (hunpushed : unpushed s' = unpushed s) (hhanded : s'.handed = s.handed) (hbuffer : s'.wal.buffer = s.wal.buffer)
    (hfile : s'.wal.file.contents = s.wal.file.contents) (hback : s'.backend = s.backend) :
    Ordered setup.ipc base s' where
  order := by rw [hlog, hunpushed, hhanded, hbuffer]; exact h.order
  file := by rw [hfile, hlog]; exact h.file
  backend := by rw [hback, hhanded]; exact h.backend

theorem ordered_step {base : History σ ρ} (hl : Locked s) (h : Ordered setup.ipc base s) (hm : Move setup s i s') :
    Ordered setup.ipc base s' := by
  obtain ⟨front, hlog, hfront⟩ := h.order
  have hother : ∀ {p : Pc σ ρ}, holdsFile (s.pc i) = false → s'.fileLock = s.fileLock →
      s'.pc = Function.update s.pc i p → unpushed s' = unpushed s := unpushed_other hl
  cases hm with
  | fail e hi => exact h.keep rfl (hother (by rw [hi]; rfl) rfl rfl) rfl rfl rfl rfl
  | write r hi hfree =>
    have hnone := unpushed_none hfree
    refine ⟨⟨front, ?_, hfront⟩, ?_, h.backend⟩
    · rw [hnone, List.append_nil] at hlog
      simp [unpushed, hlog]
    · simp [h.file]
  | push e hi =>
    have hone := unpushed_written hl hi
    have hlock := (hl.file i).2 (by rw [hi]; rfl)
    refine ⟨⟨front ++ [(i, e)], ?_, ?_⟩, h.file, h.backend⟩
    · simp only [unpushed, hlock, Function.update_self, List.append_nil]
      rw [hlog, hone]
    · simp [hfront]
  | unlock e hi =>
    have hnone := unpushed_pushed hl hi
    refine ⟨⟨front, ?_, hfront⟩, h.file, h.backend⟩
    rw [unpushed_none rfl, hlog, hnone]
  | enough e hi => exact h.keep rfl (hother (by rw [hi]; rfl) rfl rfl) rfl rfl rfl rfl
  | few e hi => exact h.keep rfl (hother (by rw [hi]; rfl) rfl rfl) rfl rfl rfl rfl
  | flush e hi => exact h.keep rfl (hother (by rw [hi]; rfl) rfl rfl) rfl rfl (BufWriter.contents_flush _) rfl
  | drain e hi => exact h.keep rfl (hother (by rw [hi]; rfl) rfl rfl) rfl rfl rfl rfl
  | hand e x rest hi hbuf =>
    refine ⟨⟨front, hlog, ?_⟩, h.file, ?_⟩
    · rw [hfront, hbuf]; simp
    · rw [← List.append_assoc]
      exact h.backend.add x.1 x.2
  | finish e hi => exact h.keep rfl (hother (by rw [hi]; rfl) rfl rfl) rfl rfl rfl rfl

/-! ## The threads' records -/

/-- A thread writes one frame, and this makes it an `add` in progress or done. -/
structure Logged (s : State ι σ ρ) : Prop where
  logged : ∀ i e, (i, e) ∈ s.logged ↔ ∃ place, s.pc i = .adding place e
  once : (s.logged.map (·.1)).Nodup

omit [DecidableEq ι] [DecidableEq σ] in
theorem Logged.keep (h : Logged s) (hlog : s'.logged = s.logged)
    (hadding : ∀ j e, (∃ p, s'.pc j = .adding p e) ↔ ∃ p, s.pc j = .adding p e) : Logged s' := by
  constructor
  · intro j e
    rw [hlog, h.logged, hadding]
  · rw [hlog]
    exact h.once

omit [DecidableEq σ] in
/-- A thread moves on with its record. -/
theorem Logged.move (h : Logged s) {place place' : Place} {e : String × StoredRecord σ ρ}
    (hi : s.pc i = .adding place e) (hlog : s'.logged = s.logged)
    (hpc : s'.pc = Function.update s.pc i (.adding place' e)) : Logged s' := by
  refine h.keep hlog fun j e' => ?_
  rw [hpc]
  by_cases hj : j = i
  · subst hj
    simp [hi]
  · rw [Function.update_of_ne hj]

theorem logged_step (h : Logged s) (hm : Move setup s i s') : Logged s' := by
  cases hm with
  | fail e hi =>
    refine h.keep rfl fun j e' => ?_
    by_cases hj : j = i
    · subst hj
      simp [hi]
    · simp only [Function.update_of_ne hj]
  | write r hi hfree hr =>
    have hnew : ∀ e, (i, e) ∉ s.logged := by
      intro e he
      obtain ⟨p, hp⟩ := (h.logged i e).1 he
      rw [hi] at hp
      cases hp
    constructor
    · intro j e'
      by_cases hj : j = i
      · subst hj
        simp [hnew, eq_comm]
      · simp [h.logged, hj]
    · rw [List.map_append, List.nodup_append]
      refine ⟨h.once, by simp, ?_⟩
      simp only [List.mem_map, List.map_cons, List.map_nil, List.mem_singleton]
      rintro _ ⟨⟨j, e⟩, he, rfl⟩ _ rfl rfl
      exact hnew e he
  | push e hi => exact h.move hi rfl rfl
  | unlock e hi => exact h.move hi rfl rfl
  | enough e hi => exact h.move hi rfl rfl
  | few e hi => exact h.move hi rfl rfl
  | flush e hi => exact h.move hi rfl rfl
  | drain e hi => exact h.move hi rfl rfl
  | hand e x rest hi hbuf => exact ⟨h.logged, h.once⟩
  | finish e hi => exact h.move hi rfl rfl

/-- Every thread writes one frame, of the record its call asks for. -/
structure Threaded (setup : Setup ι σ ρ) (s : State ι σ ρ) : Prop extends Logged s where
  call : ∀ i place e, s.pc i = .adding place e → e.1 = (setup.calls i).1 ∧
    TopicManager.stored_record setup.ipc setup.topic_metadatas (setup.calls i).1 (setup.calls i).2 = .ok e.2

theorem threaded_step (h : Threaded setup s) (hm : Move setup s i s') : Threaded setup s' := by
  refine ⟨logged_step h.toLogged hm, fun j p e hj => ?_⟩
  cases hm with
  | write r hi hfree hr =>
    rcases moved hj with ⟨rfl, hp⟩ | hj
    · cases hp
      exact ⟨rfl, hr⟩
    · exact h.call j p e hj
  | hand e' x rest hi hbuf => exact h.call j p e hj
  | fail e' hi =>
    rcases moved hj with ⟨rfl, hp⟩ | hj
    · cases hp
    · exact h.call j p e hj
  | push e' hi | unlock e' hi | enough e' hi | few e' hi | flush e' hi | drain e' hi | finish e' hi =>
    rcases moved hj with ⟨rfl, hp⟩ | hj
    · cases hp
      exact h.call j _ e hi
    · exact h.call j p e hj

/-! ## Between the calls -/

/-- The thread will look at the WAL buffer again. -/
def willDrain : Pc σ ρ → Bool
  | .adding .pushed _ | .adding .unlocked _ | .adding .flushing _ | .adding .flushed _
  | .adding .draining _ => true
  | _ => false

/-- If the WAL buffer is full, some thread will drain it. -/
def Attended (s : State ι σ ρ) : Prop :=
  max s.wal.config.num_uncommitted_messages 1 ≤ s.wal.buffer.length → Somewhere willDrain s.pc

theorem attended_step (h : Attended s) (hm : Move setup s i s') : Attended s' := by
  unfold Attended at h ⊢
  cases hm with
  | fail e hi => exact fun hn => (h hn).after (by rw [hi]; rfl)
  | write r hi => exact fun hn => (h hn).after (by rw [hi]; rfl)
  | push e hi => exact fun _ => somewhere_here rfl
  | unlock e hi => exact fun _ => somewhere_here rfl
  | enough e hi => exact fun _ => somewhere_here rfl
  | few e hi hlt => intro hn; dsimp only at hn; omega
  | flush e hi => exact fun _ => somewhere_here rfl
  | drain e hi => exact fun _ => somewhere_here rfl
  | hand e x rest hi hbuf => exact fun _ => ⟨i, by simp [hi, willDrain]⟩
  | finish e hi hbuf => intro hn; simp [hbuf] at hn

/-- If one record is enough for a flush, a record whose `add` has returned is
among those handed over. -/
def Returned (s : State ι σ ρ) : Prop :=
  s.wal.config.num_uncommitted_messages ≤ 1 → ∀ i e, s.pc i = .adding .done e →
    (i, e) ∈ s.logged.take s.handed.length

theorem mem_take_mono {α : Type} {l l' : List α} {k k' : Nat} {x : α} (hl : l <+: l') (hk : k ≤ k')
    (hx : x ∈ l.take k) : x ∈ l'.take k' := by
  obtain ⟨tail, rfl⟩ := hl
  have h1 : l.take k <+: (l ++ tail).take k' := by
    rw [List.take_append]
    exact (List.take_prefix_take_left hk).trans (List.prefix_append _ _)
  exact h1.subset hx

omit [DecidableEq ι] [DecidableEq σ] in
/-- With nothing in the WAL buffer, every frame is handed over but the one
whose writer holds the file lock. -/
theorem returned_here {ipc : ArrowIpc σ ρ} {base : History σ ρ} (hl : Locked s) (ho : Ordered ipc base s)
    (ht : Logged s) {place : Place} {e : String × StoredRecord σ ρ} (hi : s.pc i = .adding place e)
    (hf : holdsFile (s.pc i) = false) (hbuf : s.wal.buffer = []) : (i, e) ∈ s.logged.take s.handed.length := by
  obtain ⟨front, hlog, hfront⟩ := ho.order
  have hlen : s.handed.length = front.length := by
    rw [hbuf, List.append_nil] at hfront
    rw [← hfront, List.length_map]
  have hmem : (i, e) ∈ s.logged := (ht.logged i e).2 ⟨place, hi⟩
  rw [hlen, hlog, List.take_left]
  rw [hlog, List.mem_append] at hmem
  rcases hmem with hmem | hmem
  · exact hmem
  · unfold unpushed at hmem
    split at hmem
    · cases hmem
    · rename_i j hj
      have hjf := (hl.file j).1 hj
      split at hmem
      · simp only [List.mem_singleton, Prod.mk.injEq] at hmem
        rw [← hmem.1, hf] at hjf
        cases hjf
      · cases hmem

omit [DecidableEq σ] in
/-- Only a thread that returns has to be looked at. -/
theorem Returned.move (h : Returned s) {p : Pc σ ρ} (hconfig : s'.wal.config = s.wal.config)
    (hlog : s.logged <+: s'.logged) (hhanded : s.handed.length ≤ s'.handed.length)
    (hpc : s'.pc = Function.update s.pc i p)
    (hp : s.wal.config.num_uncommitted_messages ≤ 1 → ∀ e, p = .adding .done e →
      (i, e) ∈ s.logged.take s.handed.length) : Returned s' := by
  intro hn j e hj
  rw [hconfig] at hn
  rw [hpc] at hj
  apply mem_take_mono hlog hhanded
  rcases moved hj with ⟨rfl, hdone⟩ | hj
  · exact hp hn e hdone
  · exact h hn j e hj

theorem returned_step {ipc : ArrowIpc σ ρ} {base : History σ ρ} (hl : Locked s) (ho : Ordered ipc base s)
    (ht : Logged s) (h : Returned s) (hm : Move setup s i s') : Returned s' := by
  have hp := List.prefix_refl s.logged
  have hk := Nat.le_refl s.handed.length
  cases hm with
  | fail e hi => exact h.move rfl hp hk rfl (by simp)
  | write r hi => exact h.move rfl (List.prefix_append _ _) hk rfl (by simp)
  | push e hi => exact h.move rfl hp hk rfl (by simp)
  | unlock e hi => exact h.move rfl hp hk rfl (by simp)
  | enough e hi => exact h.move rfl hp hk rfl (by simp)
  | few e hi hlt =>
    refine h.move rfl hp hk rfl ?_
    intro hn e' he
    cases he
    have hbuf : s.wal.buffer = [] := List.length_eq_zero_iff.1 (by omega)
    exact returned_here hl ho ht hi (by rw [hi]; rfl) hbuf
  | flush e hi => exact h.move rfl hp hk rfl (by simp)
  | drain e hi => exact h.move rfl hp hk rfl (by simp)
  | hand e x rest hi =>
    intro hn j e' hj
    exact mem_take_mono hp (by simp) (h hn j e' hj)
  | finish e hi hbuf =>
    refine h.move rfl hp hk rfl ?_
    intro _ e' he
    cases he
    exact returned_here hl ho ht hi (by rw [hi]; rfl) hbuf

/-! ## Every reachable state -/

structure Inv (setup : Setup ι σ ρ) (config : Config) (base : History σ ρ) (s : State ι σ ρ) : Prop where
  config : s.wal.config = config
  locked : Locked s
  ordered : Ordered setup.ipc base s
  threaded : Threaded setup s
  attended : Attended s
  returned : Returned s

omit [DecidableEq ι] in
theorem inv_start (setup : Setup ι σ ρ) (config : Config) (base : History σ ρ) :
    Inv setup config base (start setup.ipc config base) where
  config := rfl
  locked := ⟨guards_free fun _ => rfl, guards_free fun _ => rfl⟩
  ordered := by
    refine ⟨⟨[], rfl, rfl⟩, by simp [start, WriteAheadLog.new, BufWriter.contents], ?_⟩
    have := (holds_new (σ := σ) (ρ := ρ)).addAll base
    simpa [start] using this
  threaded := ⟨⟨by simp [start], by simp [start]⟩, by simp [start]⟩
  attended := by simp [Attended, start, WriteAheadLog.new]
  returned := by simp [Returned, start]

theorem inv_step {config : Config} {base : History σ ρ} (h : Inv setup config base s)
    (hs : step setup s i = some s') : Inv setup config base s' := by
  have hm := step_move hs
  obtain ⟨hc, hl, ho, ht, ha, hr⟩ := h
  have hconfig : s'.wal.config = s.wal.config := by cases hm <;> rfl
  exact ⟨hconfig.trans hc, locked_step hl hm, ordered_step hl ho hm, threaded_step ht hm, attended_step ha hm,
    returned_step hl ho ht.toLogged hr hm⟩

theorem inv_run {config : Config} {base : History σ ρ} {tr} (h : Run (step setup) (start setup.ipc config base) tr s) :
    Inv setup config base s :=
  h.inv (Inv setup config base) (inv_start setup config base) fun _ _ _ => inv_step

/-- No `add` is in progress. -/
def Idle (s : State ι σ ρ) : Prop :=
  ∀ i, s.pc i = .ready ∨ (∃ e, s.pc i = .failed e) ∨ ∃ e, s.pc i = .adding .done e

omit [DecidableEq ι] [DecidableEq σ] in
theorem Idle.few (h : Idle s) (ha : Attended s) :
    s.wal.buffer.length < max s.wal.config.num_uncommitted_messages 1 := by
  by_contra hn
  obtain ⟨i, hi⟩ := ha (Nat.le_of_not_lt hn)
  rcases h i with h | ⟨e, h⟩ | ⟨e, h⟩ <;> simp [h, willDrain] at hi

omit [DecidableEq ι] [DecidableEq σ] in
theorem unpushed_cases (s : State ι σ ρ) :
    unpushed s = [] ∨ ∃ i e, unpushed s = [(i, e)] ∧ s.fileLock = some i ∧ s.pc i = .adding .written e := by
  cases hl : s.fileLock with
  | none => exact .inl (unpushed_none hl)
  | some i =>
    unfold unpushed
    rw [hl]
    dsimp only
    split
    · rename_i e hi
      exact .inr ⟨i, e, rfl, rfl, hi⟩
    · exact .inl rfl

omit [DecidableEq ι] [DecidableEq σ] in
/-- The first frames are those of the records handed over. -/
theorem Ordered.take {ipc : ArrowIpc σ ρ} {base : History σ ρ} (h : Ordered ipc base s) :
    (s.logged.take s.handed.length).map (·.2) = s.handed := by
  obtain ⟨front, hlog, hfront⟩ := h.order
  rw [List.map_take, hlog, List.map_append, hfront, List.append_assoc, List.take_left]

/-- In every reachable state the frames written are those of the records handed
to the backend, then of the WAL buffer, then of at most the one record whose
writer holds the file lock and has not pushed it; a thread writes one frame, of
the record its call asks for. Between calls the WAL buffer holds fewer than
`max n 1` records, and for `n ≤ 1` the record of every `add` that returned `Ok`
is in the backend. -/
theorem wal_order {config : Config} {base : History σ ρ}
    (h : Reachable (step setup) (start setup.ipc config base) s) :
    (∃ tail, s.logged.map (·.2) = s.handed ++ s.wal.buffer ++ tail ∧ (tail = [] ∨
      ∃ i e, tail = [e] ∧ s.fileLock = some i ∧ s.pc i = .adding .written e)) ∧
    s.wal.file.contents = (base ++ s.logged.map (·.2)).flatMap (frame setup.ipc) ∧
    Holds s.backend (base ++ s.handed) ∧
    (s.logged.map (·.1)).Nodup ∧
    (∀ i e, (i, e) ∈ s.logged ↔ ∃ place, s.pc i = .adding place e) ∧
    (∀ i place e, s.pc i = .adding place e → e.1 = (setup.calls i).1 ∧ TopicManager.stored_record setup.ipc
      setup.topic_metadatas (setup.calls i).1 (setup.calls i).2 = .ok e.2) ∧
    (Idle s → s.wal.buffer.length < max config.num_uncommitted_messages 1) ∧
    (config.num_uncommitted_messages ≤ 1 → ∀ i e, s.pc i = .adding .done e →
      (i, e) ∈ s.logged.take s.handed.length ∧ e ∈ s.handed) := by
  obtain ⟨tr, hr⟩ := h
  obtain ⟨hc, hl, ho, ht, ha, hret⟩ := inv_run hr
  refine ⟨?_, ho.file, ho.backend, ht.once, ht.logged, ht.call, ?_, ?_⟩
  · obtain ⟨front, hlog, hfront⟩ := ho.order
    refine ⟨(unpushed s).map (·.2), by rw [← hfront, ← List.map_append, ← hlog], ?_⟩
    rcases unpushed_cases s with hnil | ⟨i, e, hone, hlock, hi⟩
    · exact .inl (by rw [hnil]; rfl)
    · exact .inr ⟨i, e, by rw [hone]; rfl, hlock, hi⟩
  · intro hidle
    rw [← hc]
    exact hidle.few ha
  · intro hn i e hi
    rw [← hc] at hn
    have hmem := hret hn i e hi
    refine ⟨hmem, ?_⟩
    rw [← ho.take]
    exact List.mem_map_of_mem hmem

/-- Two threads, the second of which has not pushed its record yet. -/
theorem wal_order_two :
    let setup : Setup Bool UInt8 UInt8 := ⟨pocketIpc, ∅, fun b => if b then ("t", [1]) else ("u", [2])⟩
    ∃ s, exec (step setup) (start pocketIpc ⟨2⟩ []) [true, true, true, false] = some s ∧
      s.wal.buffer = [("t", .Raw [1])] ∧ ∃ tail, s.logged.map (·.2) = s.handed ++ s.wal.buffer ++ tail := by
  intro setup
  obtain ⟨s, hs⟩ := Option.isSome_iff_exists.1
    (show (exec (step setup) (start pocketIpc ⟨2⟩ []) [true, true, true, false]).isSome by decide)
  have hbuf : (exec (step setup) (start pocketIpc ⟨2⟩ []) [true, true, true, false]).map (·.wal.buffer) =
      some [("t", .Raw [1])] := by decide
  rw [hs] at hbuf
  obtain ⟨⟨tail, htail, -⟩, -⟩ := wal_order (reachable_exec hs)
  exact ⟨s, hs, Option.some.inj hbuf, tail, htail⟩

end herbert.WalOrder
