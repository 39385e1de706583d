import Herbert.WalOrder
/-!
# Durability of visible records

`flush` gives the file lock back before it takes the buffer lock. A record that
another thread pushes in between is drained with the others, and is visible
while its frame is still in the `BufWriter` (`visible_not_written`). `durable`
says when this cannot happen: if a flush starts to drain only when no record in
the WAL buffer has a pending frame, every visible record is in the file. A drain
that starts otherwise leads on to a visible record that is not.
-/
open Lib Lib.Bytes Lib.Runs Lib.Mutex herbert.WriteAheadLog herbert.Threads herbert.WalOrder

namespace herbert.Durability

variable {ι σ ρ : Type} (ipc : ArrowIpc σ ρ) (base : History σ ρ)

/-- The file starts with the frames of all records handed to the backend. -/
def Durable (s : State ι σ ρ) : Prop := (base ++ s.handed).flatMap (frame ipc) <+: s.wal.file.inner

/-- The file starts with these and the frames of the records in the WAL buffer. -/
def WrittenOut (s : State ι σ ρ) : Prop :=
  (base ++ s.handed ++ s.wal.buffer).flatMap (frame ipc) <+: s.wal.file.inner

/-- A thread takes the buffer lock to drain only if the frame of every record in
the WAL buffer has left the `BufWriter`. -/
def Careful (s : State ι σ ρ) (i : ι) : Prop := (∃ e, s.pc i = .adding .flushed e) → WrittenOut ipc base s

instance (s : State ι σ ρ) (i : ι) : Decidable (∃ e, s.pc i = .adding .flushed e) :=
  decidable_of_iff ((match s.pc i with | .adding .flushed _ => true | _ => false) = true) (by split <;> simp_all)

instance (s : State ι σ ρ) (i : ι) : Decidable (Careful ipc base s i) :=
  have : Decidable (WrittenOut ipc base s) := inferInstanceAs (Decidable (_ <+: _))
  inferInstanceAs (Decidable (_ → _))

/-- A thread that drains hands over records that are in the file. -/
structure Inv (s : State ι σ ρ) : Prop where
  durable : Durable ipc base s
  draining : Somewhere holdsBuffer s.pc → WrittenOut ipc base s

variable {ipc base} {s s' : State ι σ ρ} {i : ι}

theorem WrittenOut.isDurable (h : WrittenOut ipc base s) : Durable ipc base s := by
  unfold WrittenOut at h
  rw [List.flatMap_append] at h
  exact (List.prefix_append _ _).trans h

/-- More in the file, and no thread newly draining. -/
theorem Inv.grow (h : Inv ipc base s) (hfile : s.wal.file.inner <+: s'.wal.file.inner)
    (hhanded : s'.handed = s.handed) (hbuf : s'.wal.buffer = s.wal.buffer)
    (hpc : Somewhere holdsBuffer s'.pc → Somewhere holdsBuffer s.pc) : Inv ipc base s' := by
  constructor
  · rw [Durable, hhanded]
    exact h.durable.trans hfile
  · intro hs
    rw [WrittenOut, hhanded, hbuf]
    exact (h.draining (hpc hs)).trans hfile

variable [DecidableEq ι] [DecidableEq σ] {setup : Setup ι σ ρ}

theorem inv_step (hl : Locked s) (h : Inv setup.ipc base s) (hc : Careful setup.ipc base s i)
    (hm : Move setup s i s') : Inv setup.ipc base s' := by
  have hsame := List.prefix_refl s.wal.file.inner
  cases hm with
  | fail e hi => exact h.grow hsame rfl rfl fun hs => hs.before rfl
  | write r hi => exact h.grow (BufWriter.inner_write _ _) rfl rfl fun hs => hs.before rfl
  | push e hi hfree =>
    refine ⟨h.durable, fun hs => ?_⟩
    -- nobody drains while the buffer lock is free
    obtain ⟨j, hj⟩ : Somewhere holdsBuffer s.pc := hs.before rfl
    have := hl.buffer
    rw [hfree] at this
    rw [this.outside j] at hj
    cases hj
  | unlock e hi => exact h.grow hsame rfl rfl fun hs => hs.before rfl
  | enough e hi => exact h.grow hsame rfl rfl fun hs => hs.before rfl
  | few e hi => exact h.grow hsame rfl rfl fun hs => hs.before rfl
  | flush e hi => exact h.grow (BufWriter.inner_contents _) rfl rfl fun hs => hs.before rfl
  | drain e hi => exact ⟨h.durable, fun _ => hc ⟨e, hi⟩⟩
  | hand e x rest hi hbuf =>
    have hout : WrittenOut setup.ipc base s := h.draining ⟨i, by rw [hi]; rfl⟩
    have hout' : WrittenOut setup.ipc base { s with
        wal := { s.wal with buffer := rest }, backend := s.backend.add x.1 x.2, handed := s.handed ++ [x] } := by
      unfold WrittenOut at hout ⊢
      rw [hbuf] at hout
      simpa using hout
    exact ⟨WrittenOut.isDurable hout', fun _ => hout'⟩
  | finish e hi => exact h.grow hsame rfl rfl fun hs => hs.before rfl

/-- Runs in which a drain starts only when no record in the WAL buffer has a
pending frame: every visible record is in the file, and with one uncommitted
message the record of every `add` that returned `Ok`. A drain that starts
otherwise can be continued to a visible record that is not in the file. -/
theorem durable {config : Config} {base : History σ ρ} {tr}
    (hr : Run (step setup) (start setup.ipc config base) tr s) :
    (Always (Careful setup.ipc base) tr →
      Holds s.backend (base ++ s.handed) ∧ Durable setup.ipc base s ∧
      (config.num_uncommitted_messages = 1 → ∀ i e, s.pc i = .adding .done e → ∃ k,
        (i, e) ∈ s.logged.take k ∧
          (base ++ (s.logged.take k).map (·.2)).flatMap (frame setup.ipc) <+: s.wal.file.inner)) ∧
    (∀ i s', step setup s i = some s' → ¬ Careful setup.ipc base s i →
      ∃ ls s'', exec (step setup) s' ls = some s'' ∧ ¬ Durable setup.ipc base s'') := by
  have hinv := inv_run hr
  constructor
  · intro hc
    have hd : WalOrder.Inv setup config base s ∧ Inv setup.ipc base s := by
      refine hr.inv_while (fun s => WalOrder.Inv setup config base s ∧ Inv setup.ipc base s)
        ⟨inv_start setup config base, ?_⟩ (fun s i s' h hc hs => ?_) hc
      · constructor
        · simp [Durable, start, WriteAheadLog.new]
        · rintro ⟨i, hi⟩
          cases hi
      · exact ⟨WalOrder.inv_step h.1 hs, inv_step h.1.locked h.2 hc (step_move hs)⟩
    refine ⟨hinv.ordered.backend, hd.2.durable, ?_⟩
    intro hn i e hi
    refine ⟨s.handed.length, ?_, ?_⟩
    · exact hinv.returned (by rw [hinv.config]; omega) i e hi
    · rw [hinv.ordered.take]
      exact hd.2.durable
  · intro i s' hs hnc
    simp only [Careful, not_forall] at hnc
    obtain ⟨⟨e, hi⟩, hout⟩ := hnc
    have hm := step_move hs
    cases hm with
    | drain e' hi' =>
      refine ⟨_, _, drain_all (i := i) (e := e') (by simp), ?_⟩
      unfold Durable
      rw [← List.append_assoc]
      exact hout
    | _ => simp_all

/-- The first thread flushes and drains what both have logged, and the second one
finds nothing to flush. Both records are visible and in the file. -/
theorem durable_two :
    let setup : Setup Bool UInt8 UInt8 := ⟨pocketIpc, ∅, fun b => ("t", [if b then 1 else 2])⟩
    ∃ s, Reachable (step setup) (start pocketIpc ⟨1⟩ []) s ∧ (∀ b, ∃ e, s.pc b = .adding .done e) ∧
      s.backend.queue "t" = [.Raw [1], .Raw [2]] ∧ s.handed = [("t", .Raw [1]), ("t", .Raw [2])] ∧
      Durable pocketIpc [] s := by
  intro setup
  let schedule := [true, true, true, false, false, false, true, true, true, true, true, true, false]
  let run := execWhile (step setup) (Careful pocketIpc []) (start pocketIpc ⟨1⟩ []) schedule
  obtain ⟨s, hs⟩ : ∃ s, run = some s := Option.isSome_iff_exists.1 (by decide)
  have hsee : run.map (fun s => (s.handed, s.backend.queue "t")) =
      some ([("t", .Raw [1]), ("t", .Raw [2])], [.Raw [1], .Raw [2]]) := by decide
  have hpc : ∀ b : Bool, run.map (·.pc b) = some (.adding .done ("t", .Raw [if b then 1 else 2])) := by
    intro b
    cases b <;> rfl
  simp only [hs, Option.map_some, Option.some.injEq] at hpc
  rw [hs, Option.map_some, Option.some.injEq, Prod.mk.injEq] at hsee
  obtain ⟨tr, hr, hcareful⟩ := run_execWhile .nil always_nil hs
  exact ⟨s, ⟨tr, hr⟩, fun b => ⟨_, hpc b⟩, hsee.2, hsee.1, ((durable hr).1 hcareful).2.1⟩

/-- A thread between its flush and its drain, and another one that logs a record
and finds nothing to flush: its `add` returns `Ok`, its record is visible, and
its frame is not in the file. -/
theorem visible_not_written :
    let setup : Setup Bool UInt8 UInt8 := ⟨pocketIpc, ∅, fun b => ("t", [if b then 1 else 2])⟩
    (¬ ∀ s, Reachable (step setup) (start pocketIpc ⟨1⟩ []) s → Durable pocketIpc [] s) ∧
    ∃ s, Reachable (step setup) (start pocketIpc ⟨1⟩ []) s ∧ (∀ b, ∃ e, s.pc b = .adding .done e) ∧
      s.backend.queue "t" = [.Raw [1], .Raw [2]] ∧ s.wal.file.inner = frame pocketIpc ("t", .Raw [1]) := by
  intro setup
  let schedule := [true, true, true, true, true, false, false, false, true, true, true, true, false]
  obtain ⟨s, hs⟩ := Option.isSome_iff_exists.1
    (show (exec (step setup) (start pocketIpc ⟨1⟩ []) schedule).isSome by decide)
  have hsee : (exec (step setup) (start pocketIpc ⟨1⟩ []) schedule).map
      (fun s => (s.handed, s.backend.queue "t", s.wal.file.inner)) =
      some ([("t", .Raw [1]), ("t", .Raw [2])], [.Raw [1], .Raw [2]], frame pocketIpc ("t", .Raw [1])) := by decide
  have hpc : ∀ b : Bool, (exec (step setup) (start pocketIpc ⟨1⟩ []) schedule).map (·.pc b) =
      some (.adding .done ("t", .Raw [if b then 1 else 2])) := by
    intro b
    cases b <;> rfl
  simp only [hs, Option.map_some, Option.some.injEq] at hpc
  rw [hs, Option.map_some, Option.some.injEq, Prod.mk.injEq, Prod.mk.injEq] at hsee
  obtain ⟨hhanded, hqueue, hfile⟩ := hsee
  refine ⟨fun h => ?_, s, reachable_exec hs, fun b => ⟨_, hpc b⟩, hqueue, hfile⟩
  have hd := (h s (reachable_exec hs)).length_le
  rw [hhanded, hfile] at hd
  revert hd
  decide

end herbert.Durability
