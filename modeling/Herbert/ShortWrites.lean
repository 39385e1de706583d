import Herbert.Faults
/-!
# Whole frames

`WriteAheadLog::add` takes a frame for logged when the `BufWriter` took some of
it. Small frames are buffered whole; one that is as long as the buffer goes to
the file in one write, which may take only its first bytes.

`Whole` says that the file and the pending bytes are the frames of the accepted
records, and a run keeps it exactly as long as no write is short.
-/
open Lib Lib.Faulty Lib.Runs herbert.WriteAheadLog

namespace herbert.Faults

variable {σ ρ : Type} (ipc : ArrowIpc σ ρ)

/-- The file takes only a part of the frame, which is too large to be buffered. -/
def CutShort (wal : WriteAheadLog σ ρ) (e : String × StoredRecord σ ρ) : Prop :=
  ∃ w, serialize ipc e.1 e.2 = .ok w ∧ wal.file.Short w

/-- What an `add` returns and what it leaves of the log, in terms of the bytes. -/
theorem contents_add (wal : WriteAheadLog σ ρ) (e : String × StoredRecord σ ρ) :
    (∃ err, (wal.add ipc e.1 e.2).1 = .error err ∧ (wal.add ipc e.1 e.2).2.file.contents = wal.file.contents ∧
      ¬ CutShort ipc wal e) ∨
    ∃ w n, (wal.add ipc e.1 e.2).1 = .ok () ∧ serialize ipc e.1 e.2 = .ok w ∧ n ≤ w.length ∧
      (wal.add ipc e.1 e.2).2.file.contents = wal.file.contents ++ w.take n ∧ (n < w.length ↔ CutShort ipc wal e) := by
  cases hs : serialize ipc e.1 e.2 with
  | error err =>
    left
    refine ⟨err, by rw [WriteAheadLog.add_unserialized hs], by rw [WriteAheadLog.add_unserialized hs], ?_⟩
    rintro ⟨w, hw, -⟩
    rw [hs] at hw
    cases hw
  | ok w =>
    have hcut : CutShort ipc wal e ↔ wal.file.Short w := by
      constructor
      · rintro ⟨w', hw', hshort⟩
        rw [hs] at hw'
        cases hw'
        exact hshort
      · exact fun hshort => ⟨w, hs, hshort⟩
    cases hw : (wal.file.write w).1 with
    | error err =>
      have hwrite : wal.file.write w = (.error err, (wal.file.write w).2) := Prod.ext hw rfl
      obtain ⟨k, hk⟩ := BufWriter.write_error hwrite
      left
      rw [WriteAheadLog.add_unwritten hs hwrite]
      refine ⟨_, rfl, hk.contents, fun h => ?_⟩
      obtain ⟨n, hn⟩ := (hcut.1 h).write
      rw [hw] at hn
      cases hn
    | ok n =>
      have hwrite : wal.file.write w = (.ok n, (wal.file.write w).2) := Prod.ext hw rfl
      obtain ⟨hle, hcontents, -, hshort⟩ := BufWriter.write_ok hwrite
      right
      rw [WriteAheadLog.add_written hs hwrite]
      exact ⟨w, n, rfl, rfl, hle, hcontents, hshort.trans hcut.symm⟩

/-- An `add` that returns `Ok` has logged the whole frame, unless it was cut
short. -/
theorem add_whole_iff (wal : WriteAheadLog σ ρ) (e : String × StoredRecord σ ρ) :
    ((wal.add ipc e.1 e.2).1 = .ok () → ∃ w, serialize ipc e.1 e.2 = .ok w ∧
      (wal.add ipc e.1 e.2).2.file.contents = wal.file.contents ++ w) ↔ ¬ CutShort ipc wal e := by
  rcases contents_add ipc wal e with ⟨err, herr, -, hcut⟩ | ⟨w, n, hok, hs, hle, hcontents, hcut⟩
  · simp [herr, hcut]
  · rw [← hcut, hok, hs, hcontents]
    constructor
    · intro h hlt
      obtain ⟨w', hw', heq⟩ := h rfl
      cases hw'
      have hlen := congrArg List.length ((List.append_right_inj _).1 heq)
      rw [List.length_take] at hlen
      omega
    · intro h _
      exact ⟨w, rfl, by rw [List.take_of_length_le (by omega)]⟩

/-! ## Runs -/

structure Session (σ ρ : Type) where
  wal : WriteAheadLog σ ρ
  /-- The records whose `add` returned `Ok`. -/
  accepted : History σ ρ

inductive Call (σ ρ : Type) where
  | add (topic : String) (records : StoredRecord σ ρ)
  /-- A flush with any backend: the buffer is drained if the file took the
  pending bytes. -/
  | flush

/-- The log on a file that holds `file`. -/
def opened (config : Config) (file : Bytes) (answers : List (Answer IoError)) : Session σ ρ :=
  ⟨.new config file answers, []⟩

def step (s : Session σ ρ) : Call σ ρ → Option (Session σ ρ)
  | .add topic records =>
    match s.wal.add ipc topic records with
    | (.error _, wal) => some { s with wal }
    | (.ok (), wal) => some ⟨wal, s.accepted ++ [(topic, records)]⟩
  | .flush =>
    match s.wal.file.flush with
    | (.error _, file) => some { s with wal := { s.wal with file } }
    | (.ok (), file) => some { s with wal := { s.wal with file, buffer := [] } }

/-- The log is the file it was opened on and the accepted records' frames. -/
def Whole (file : Bytes) (s : Session σ ρ) : Prop :=
  s.wal.file.contents = file ++ s.accepted.flatMap (frame ipc)

/-- The call is not a write that is cut short. -/
def Uncut (s : Session σ ρ) : Call σ ρ → Prop
  | .add topic records => ¬ CutShort ipc s.wal (topic, records)
  | .flush => True

theorem whole_step {file : Bytes} {s s' : Session σ ρ} {call : Call σ ρ} (h : Whole ipc file s)
    (hs : step ipc s call = some s') : Whole ipc file s' ↔ Uncut ipc s call := by
  cases call with
  | add t r =>
    have hcases := contents_add ipc s.wal (t, r)
    rw [step] at hs
    split at hs
    · rename_i err wal hadd
      cases hs
      rw [hadd] at hcases
      rcases hcases with ⟨-, -, hcontents, hcut⟩ | ⟨w, n, hok, -⟩
      · exact iff_of_true (hcontents.trans h) hcut
      · cases hok
    · rename_i wal hadd
      cases hs
      rw [hadd] at hcases
      rcases hcases with ⟨err, herr, -⟩ | ⟨w, n, -, hser, hle, hcontents, hcut⟩
      · cases herr
      · rw [Uncut, ← hcut, Whole, hcontents, h, serialize_ok ipc hser]
        simp only [List.flatMap_append, List.flatMap_cons, List.flatMap_nil, List.append_nil, List.append_assoc,
          List.append_cancel_left_eq, List.take_eq_self_iff, not_lt]
  | flush =>
    have hcontents := Faulty.BufWriter.contents_flush s.wal.file
    rw [step] at hs
    split at hs
    · rename_i err file' hflush
      cases hs
      rw [hflush] at hcontents
      exact iff_of_true (hcontents.trans h) trivial
    · rename_i file' hflush
      cases hs
      rw [hflush] at hcontents
      exact iff_of_true (hcontents.trans h) trivial

/-- An `add` that returns `Ok` has made the log longer by exactly the frame, if
and only if the file did not cut it short; and the log of a run stays a
sequence of whole frames exactly as long as no call is cut short. -/
theorem whole_iff {config : Config} {file : Bytes} {answers : List (Answer IoError)} {tr} {s : Session σ ρ}
    (hr : Run (step ipc) (opened config file answers) tr s) :
    (∀ (wal : WriteAheadLog σ ρ) (t : String) (r : StoredRecord σ ρ),
      ((wal.add ipc t r).1 = .ok () → ∃ w, serialize ipc t r = .ok w ∧
        (wal.add ipc t r).2.file.contents = wal.file.contents ++ w) ↔ ¬ CutShort ipc wal (t, r)) ∧
    (Throughout (Whole ipc file) tr s ↔ Always (Uncut ipc) tr) := by
  refine ⟨fun wal t r => add_whole_iff ipc wal (t, r), ?_⟩
  exact hr.iff_while (fun _ => True) (Whole ipc file) trivial (fun _ _ _ _ _ => trivial)
    (by simp [Whole, opened, WriteAheadLog.new, Faulty.BufWriter.contents]) fun s l s' _ hw hs => whole_step ipc hw hs

/-- A frame that is shorter than the buffer is never cut. -/
theorem not_cutShort {wal : WriteAheadLog σ ρ} {t : String} {r : StoredRecord σ ρ}
    (h : (frame ipc (t, r)).length < wal.file.capacity) : ¬ CutShort ipc wal (t, r) := by
  rintro ⟨w, hw, hbig, -⟩
  rw [serialize_ok ipc hw] at hbig
  exact absurd hbig (Nat.not_le.2 h)

/-- A small frame is buffered, and a flush writes it in two pieces. -/
theorem whole_iff_small :
    ∃ s : Session UInt8 UInt8, exec (step pocketIpc) (opened ⟨1⟩ [] [.took 0]) [.add "t" (.Raw [1, 2]), .flush] = some s ∧
      s.wal.file.contents = [116, 10, 0, 2, 0, 0, 0, 1, 2] := by
  obtain ⟨s₁, h₁⟩ := Option.isSome_iff_exists.1 (show (step pocketIpc
    (opened ⟨1⟩ [] [.took 0] : Session UInt8 UInt8) (.add "t" (.Raw [1, 2]))).isSome by decide)
  obtain ⟨s, h₂⟩ := Option.isSome_iff_exists.1 (show (step pocketIpc s₁ .flush).isSome by
    rw [step]; split <;> rfl)
  have hexec : exec (step pocketIpc) (opened ⟨1⟩ [] [.took 0]) [.add "t" (.Raw [1, 2]), .flush] = some s := by
    simp [exec, h₁, h₂]
  have hacc : (exec (step pocketIpc) (opened ⟨1⟩ [] [.took 0] : Session UInt8 UInt8)
      [.add "t" (.Raw [1, 2]), .flush]).map (·.accepted) = some [("t", .Raw [1, 2])] := by decide
  rw [hexec, Option.map_some, Option.some.injEq] at hacc
  have hc : Always (Uncut pocketIpc) [((opened ⟨1⟩ [] [.took 0] : Session UInt8 UInt8), .add "t" (.Raw [1, 2])),
      (s₁, .flush)] := by
    simp only [Always, List.forall_mem_cons, List.not_mem_nil, false_imp_iff, implies_true, and_true]
    exact ⟨not_cutShort pocketIpc (by decide), trivial⟩
  have hwhole : Whole pocketIpc [] s := ((whole_iff pocketIpc ((Run.nil.snoc h₁).snoc h₂)).2.2 hc).2
  refine ⟨s, hexec, ?_⟩
  rw [hwhole, hacc]
  decide

/-- Of a frame of 8199 bytes the file takes one, and `add` returns `Ok`. -/
theorem tail_dropped :
    ¬ (((WriteAheadLog.new ⟨1⟩ [] [.took 0] : WriteAheadLog UInt8 UInt8).add pocketIpc "t"
        (.Raw (List.replicate 8192 7))).1 = .ok () →
      ∃ w, serialize pocketIpc "t" (.Raw (List.replicate 8192 7)) = .ok w ∧
        ((WriteAheadLog.new ⟨1⟩ [] [.took 0] : WriteAheadLog UInt8 UInt8).add pocketIpc "t"
          (.Raw (List.replicate 8192 7))).2.file.contents =
          (WriteAheadLog.new ⟨1⟩ [] [.took 0] : WriteAheadLog UInt8 UInt8).file.contents ++ w) := by
  have hbs : (List.replicate 8192 (7 : UInt8)).length = 8192 := List.length_replicate
  generalize List.replicate 8192 (7 : UInt8) = bs at hbs ⊢
  have hlen : 8192 < (frame pocketIpc ("t", .Raw bs)).length := by
    simp only [frame, payload, List.length_append, List.length_cons]
    omega
  intro h
  refine (add_whole_iff pocketIpc _ ("t", .Raw bs)).1 h ⟨_, serialize_writable pocketIpc (r := .Raw bs) trivial "t", ?_⟩
  exact ⟨hlen.le, rfl, 0, [], rfl, by omega⟩

end herbert.Faults
