import Herbert.Managers
import Herbert.Durability
/-!
# Kills at any point of concurrent calls

One process after another works on the same WAL file, each with threads of its
own that call one manager. A kill may come between any two steps, with calls in
the middle of a frame's way to the file or of a drain. `base` is what the process
read off the file when it started, and `written` what it is accountable for: this
and the records whose frames it wrote.
-/
open Lib Lib.Bytes Lib.Runs herbert.WriteAheadLog herbert.Recovery herbert.Managers herbert.Metadata herbert.Crash
open herbert.TopicManager (stored_record StoresLoggable storesLoggable_of)
open herbert.Durability (Durable)

namespace herbert.Lifetimes

variable {ι σ ρ : Type}

structure Life (ι σ ρ : Type) where
  base : History σ ρ
  state : Managers.State ι σ ρ

inductive Label (ι σ : Type) where
  | thread (i : ι)
  | kill (config : Config) (calls : ι → Managers.Call σ)

/-- The first process, on an empty file. -/
def start (config : Config) (calls : ι → Managers.Call σ) : Life ι σ ρ :=
  ⟨[], Managers.start (.new .new config []) calls⟩

/-- The records on the file and on their way there. -/
def written (l : Life ι σ ρ) : History σ ρ := l.base ++ l.state.threads.logged.map (·.2)

/-- What a kill leaves. -/
def Life.file (l : Life ι σ ρ) : Bytes := l.state.threads.wal.file.inner

section
variable [DecidableEq ι] [DecidableEq σ] (ipc : ArrowIpc σ ρ)

def step (l : Life ι σ ρ) : Label ι σ → Option (Life ι σ ρ)
  | .thread i => (Managers.step ipc l.state i).map fun state => { l with state }
  | .kill config calls => some ⟨recovered ipc l.file, Managers.start (restart ipc config l.file).2 calls⟩

/-- Whatever the topics are, what the call stores can be logged. -/
def Admissible : Managers.Call σ → Prop
  | .add topic record => ∀ read, StoresLoggable ipc read topic record
  | _ => True

/-- The calls of a new process are. -/
def Admits (_ : Life ι σ ρ) : Label ι σ → Prop
  | .kill _ calls => ∀ i, Admissible ipc (calls i)
  | .thread _ => True

/-- The first frames written are in the file, those read off it at least, and
these can be read again. -/
structure Inv (l : Life ι σ ρ) : Prop where
  managers : ∃ config calls, Managers.Inv ipc config l.base calls l.state ∧ ∀ i, Admissible ipc (calls i)
  shaped : AllShaped l.base l.state
  file : ∃ k, l.base.length ≤ k ∧ l.state.threads.wal.file.Holds (frame ipc) (written l) k
  clean : ∀ e ∈ written l, Clean ipc e

variable {ipc} {l l' : Life ι σ ρ} {i : ι}

omit [DecidableEq ι] in
theorem inv_start {config : Config} {calls : ι → Managers.Call σ} (ha : ∀ i, Admissible ipc (calls i)) :
    Inv ipc (start config calls : Life ι σ ρ) where
  managers := ⟨config, calls, Managers.inv_start (recovered_new config) calls, ha⟩
  shaped t := shaped_nil _
  file := ⟨0, Nat.le_refl _, Nat.le_refl _, rfl, rfl⟩
  clean := by simp [written, start, Managers.start]

/-! ## One step -/

/-- A step writes a frame, of a record that `add` accepted, or none. -/
theorem logged_cases (hipc : ipc.Lawful) (h : Inv ipc l) {s' : Managers.State ι σ ρ}
    (hs : Managers.step ipc l.state i = some s') :
    (s'.threads.logged = l.state.threads.logged ∧ (s'.threads.wal.file = l.state.threads.wal.file ∨
      s'.threads.wal.file = l.state.threads.wal.file.flush)) ∨
    ∃ e, Clean ipc e ∧ s'.threads.logged = l.state.threads.logged ++ [(i, e)] ∧
      s'.threads.wal.file = l.state.threads.wal.file.write (frame ipc e) := by
  obtain ⟨config, calls, hinv, hadm⟩ := h.managers
  cases step_move hs with
  | inside t record read threads hi hstep =>
    cases hpc : l.state.threads.pc i with
    | ready =>
      rcases first_step hpc hstep with ⟨e, -, rfl⟩ | ⟨r, hr, -, rfl⟩
      · exact .inl ⟨rfl, .inl rfl⟩
      · have hcall : calls i = .add t record := by
          have := hinv.place i
          rw [hi] at this
          exact this.of_adding
        have ha := hadm i
        rw [hcall] at ha
        obtain ⟨hname, hlen⟩ := (ha read r hr).delimited
        exact .inr ⟨(t, r), ⟨hname, hlen, readable_of_lawful hipc r⟩, rfl, rfl⟩
    | failed e =>
      rw [Threads.step, hpc] at hstep
      cases hstep
    | adding place e =>
      cases Threads.step_move hstep with
      | write r hp => rw [hpc] at hp; cases hp
      | flush e' hp => exact .inl ⟨rfl, .inr rfl⟩
      | _ => exact .inl ⟨rfl, .inl rfl⟩
  | _ => exact .inl ⟨rfl, .inl rfl⟩

theorem inv_thread (hipc : ipc.Lawful) (h : Inv ipc l) {s' : Managers.State ι σ ρ}
    (hs : Managers.step ipc l.state i = some s') : Inv ipc { l with state := s' } := by
  obtain ⟨config, calls, hinv, hadm⟩ := h.managers
  obtain ⟨k, hk, hfile⟩ := h.file
  have hmanagers : ∃ config calls, Managers.Inv ipc config l.base calls s' ∧ ∀ i, Admissible ipc (calls i) :=
    ⟨config, calls, Managers.inv_step hinv hs, hadm⟩
  have hshaped := allShaped_step hinv h.shaped hs
  rcases logged_cases hipc h hs with ⟨hlog, hsame⟩ | ⟨e, he, hlog, hwrite⟩
  · have hwritten : written { l with state := s' } = written l := by rw [written, hlog, written]
    refine ⟨hmanagers, hshaped, ?_, by rw [hwritten]; exact h.clean⟩
    rw [hwritten]
    rcases hsame with hsame | hflush
    · exact ⟨k, hk, by rw [hsame]; exact hfile⟩
    · exact ⟨_, hk.trans hfile.1, by rw [hflush]; exact hfile.flush⟩
  · have hwritten : written { l with state := s' } = written l ++ [e] := by simp [written, hlog]
    refine ⟨hmanagers, hshaped, ?_, ?_⟩
    · obtain ⟨k', hk', hfile'⟩ := hfile.write e
      rw [hwritten]
      exact ⟨k', hk.trans hk', by rw [hwrite]; exact hfile'⟩
    · rw [hwritten]
      simp only [List.mem_append, List.mem_singleton, or_imp, forall_and, forall_eq]
      exact ⟨h.clean, he⟩

omit [DecidableEq ι] in
/-- What the next process reads off the file. -/
theorem Inv.recovered (h : Inv ipc l) :
    ∃ k, l.base.length ≤ k ∧ recovered ipc l.file = (written l).take k ∧
      l.file = ((written l).take k).flatMap (frame ipc) ∧ ∀ e ∈ (written l).take k, Clean ipc e := by
  obtain ⟨k, hk, hfile⟩ := h.file
  have hclean : ∀ e ∈ (written l).take k, Clean ipc e := fun e he => h.clean e (List.mem_of_mem_take he)
  have hrec := recovered_frames hclean []
  rw [List.append_nil, ← hfile.2.1] at hrec
  exact ⟨k, hk, by simpa [Recovery.recovered, records, Life.file] using hrec, hfile.2.1, hclean⟩

omit [DecidableEq ι] [DecidableEq σ] in
/-- A restart on whole frames. -/
theorem recovered_restart (config : Config) {es : History σ ρ} (hclean : ∀ e ∈ es, Clean ipc e) :
    Recovered ipc es (restart ipc config (es.flatMap (frame ipc))).2 where
  log := (restart_frames config hclean).2
  file := by
    rw [restart_wal]
    exact ⟨Nat.le_refl _, by simp [WriteAheadLog.new], by simp [WriteAheadLog.new]⟩
  buffer := by rw [restart_wal]; rfl

omit [DecidableEq ι] in
/-- The topics a restart finds fit the records it finds. -/
theorem Inv.shaped_restart (h : Inv ipc l) (config : Config) (t : String) :
    Shaped ((restart ipc config l.file).2.topic_metadatas.lookup t) ((Recovery.recovered ipc l.file).ofTopic t) := by
  obtain ⟨k, -, hrec, -, -⟩ := h.recovered
  have hp : Recovery.recovered ipc l.file <+: written l := by
    rw [hrec]
    exact List.take_prefix _ _
  rw [lookup_restart]
  exact ((h.shaped t).of_isPrefix (History.ofTopic_isPrefix t hp)).rebuilt t

omit [DecidableEq ι] in
/-- The next process holds what it reads. -/
theorem Inv.recovered_next (h : Inv ipc l) (config : Config) :
    Recovered ipc (Recovery.recovered ipc l.file) (restart ipc config l.file).2 := by
  obtain ⟨k, -, hrec, hfile, hclean⟩ := h.recovered
  rw [hrec, hfile]
  exact recovered_restart config hclean

omit [DecidableEq ι] in
theorem inv_kill (h : Inv ipc l) (config : Config) {calls : ι → Managers.Call σ} (ha : ∀ i, Admissible ipc (calls i)) :
    Inv ipc ⟨Recovery.recovered ipc l.file, Managers.start (restart ipc config l.file).2 calls⟩ := by
  obtain ⟨k, -, hrec, -, hclean⟩ := h.recovered
  have hstart := h.recovered_next config
  refine ⟨⟨_, calls, Managers.inv_start hstart calls, ha⟩, fun t => ?_, ?_, ?_⟩
  · simpa [Managers.start] using h.shaped_restart config t
  · exact ⟨_, Nat.le_refl _, by simpa [written, Managers.start] using hstart.file⟩
  · intro e he
    simp only [written, Managers.start, List.map_nil, List.append_nil, hrec] at he
    exact hclean e he

theorem inv_step (hipc : ipc.Lawful) (h : Inv ipc l) {label : Label ι σ} (ha : Admits ipc l label)
    (hs : step ipc l label = some l') : Inv ipc l' := by
  cases label with
  | thread i =>
    obtain ⟨s', hs', rfl⟩ := Option.map_eq_some_iff.1 hs
    exact inv_thread hipc h hs'
  | kill config calls =>
    cases hs
    exact inv_kill h config ha

/-! ## Every restart -/

omit [DecidableEq ι] [DecidableEq σ] in
/-- If the file has the frames of what fetch sees, the first `k` records written
include it. -/
theorem visible_le {k : Nat} (hfile : l.file = ((written l).take k).flatMap (frame ipc))
    (hordered : WalOrder.Ordered ipc l.base l.state.threads) (hd : Durable ipc l.base l.state.threads) :
    l.base ++ l.state.threads.handed <+: (written l).take k := by
  have hp : l.base ++ l.state.threads.handed <+: written l := by
    rw [written, List.prefix_append_right_inj, ← hordered.take, List.map_take]
    exact List.take_prefix _ _
  obtain ⟨tail, htail⟩ := hp
  rw [← htail] at hfile ⊢
  have hlen : (l.base ++ l.state.threads.handed).length ≤ k := by
    by_contra hlt
    rw [not_le] at hlt
    -- then the frames in the file are a proper prefix of those of what fetch sees
    rw [List.take_append_of_le_length hlt.le] at hfile
    have hle := hd.length_le
    rw [show l.state.threads.wal.file.inner = l.file from rfl, hfile] at hle
    have hsplit := congrArg List.length (congrArg (List.flatMap (frame ipc))
      (List.take_append_drop k (l.base ++ l.state.threads.handed)))
    rw [List.flatMap_append, List.length_append, List.drop_eq_getElem_cons hlt, List.flatMap_cons,
      List.length_append] at hsplit
    have hpos : 0 < (frame ipc (l.base ++ l.state.threads.handed)[k]).length := by
      rw [frame, List.length_append, List.length_cons]
      omega
    omega
  rw [List.take_append, List.take_of_length_le hlen]
  exact List.prefix_append _ _

/-- Processes with concurrent calls and kills at any points. Whenever the process
is killed, the next one starts: it holds the first records written, in the order
of their frames, and at least those the process itself started with; its topics
fit them; and if the file had the frames of all that fetch saw, every offset that
was valid denotes the same record or row. -/
theorem restarts (hipc : ipc.Lawful) {config : Config} {calls : ι → Managers.Call σ}
    (ha : ∀ i, Admissible ipc (calls i)) {tr} {l : Life ι σ ρ} (hr : Run (step ipc) (start config calls) tr l)
    (hadm : Always (Admits ipc) tr) (config' : Config) :
    let next := restart ipc config' l.file
    next.1 = .ok () ∧
    (∃ k, l.base.length ≤ k ∧ Holds next.2.backend ((written l).take k) ∧
      ∀ t, Shaped (next.2.topic_metadatas.lookup t) (next.2.backend.queue t)) ∧
    (Durable ipc l.base l.state.threads →
      ∀ t o x, denotes l.state.threads.backend t o = some x → denotes next.2.backend t o = some x) := by
  intro next
  have h : Inv ipc l := hr.inv_while (Inv ipc) (inv_start ha) (fun _ _ _ hi hc => inv_step hipc hi hc) hadm
  obtain ⟨k, hk, hrec, hfile, hclean⟩ := h.recovered
  obtain ⟨hok, hnext⟩ := restart_frames config' hclean
  rw [← hfile] at hok hnext
  refine ⟨hok, ⟨k, hk, hnext, fun t => ?_⟩, fun hd t o x hx => ?_⟩
  · rw [hnext.queue, ← hrec]
    exact h.shaped_restart config' t
  · obtain ⟨_, _, hinv, -⟩ := h.managers
    obtain ⟨rest, hrest⟩ := visible_le hfile hinv.ordered hd
    rw [← hrest] at hnext
    exact denotes_append hinv.ordered.backend hnext hx

end

/-- A kill while one record is in the backend, a second one in the WAL buffer, and
the frame of a third one in the `BufWriter`. -/
theorem restarts_pocket :
    let calls : Fin 3 → Managers.Call UInt8
      | 0 => .add "t" [1]
      | 1 => .add "u" [2]
      | 2 => .add "t" [3]
    ∃ tr, ∃ l : Life (Fin 3) UInt8 UInt8, Run (step pocketIpc) (start ⟨1⟩ calls) tr l ∧
      (written l).map (·.1) = ["t", "u", "t"] ∧ l.state.threads.backend.queue "t" = [.Raw [1]] ∧
      (restart pocketIpc ⟨1⟩ l.file).1 = .ok () := by
  intro calls
  have he : exec (step pocketIpc) (start ⟨1⟩ calls)
      ([0, 0, 0, 0, 0, 0, 0, 0, 0, 1, 1, 1, 1, 2, 2].map .thread) = some _ := rfl
  obtain ⟨tr, hr, hl⟩ := Run.nil.exec he
  have ha : ∀ i, Admissible pocketIpc (calls i) := by
    intro i
    match i with
    | 0 | 1 | 2 =>
      exact fun read => storesLoggable_of (by decide) fun b bs hread => by cases hread
  have hadm : Always (Admits pocketIpc) tr := by
    rintro ⟨l, label⟩ hx
    have hlabel := List.mem_map_of_mem (f := (·.2)) hx
    rw [hl] at hlabel
    obtain ⟨i, -, rfl⟩ := List.mem_map.1 hlabel
    trivial
  exact ⟨tr, _, hr, rfl, rfl, (restarts pocketIpc_framed.toLawful ha hr hadm ⟨1⟩).1⟩

end herbert.Lifetimes
