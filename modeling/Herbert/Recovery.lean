import Herbert.TopicManager
/-!
# Recovery reads back what was logged

`next_frame` inverts `frame` on every clean record (`frames_decodes`) and fails
on every frame that is cut short (`frames_refuses`). On the in-memory log
`recover` is a fold over the frames it reads (`recover_loop_eq`). `restart` is a
process that starts on the WAL file another one left: on whole frames it
succeeds and holds their records (`restart_frames`).
-/
open Lib Lib.Bytes herbert.WriteAheadLog herbert.TopicManager

namespace herbert.Recovery

variable {σ ρ : Type} {ipc : ArrowIpc σ ρ}

/-! ## Frames -/

/-- Arrow reads back the stream it writes for a batch. Raw records need no Arrow. -/
def Readable (ipc : ArrowIpc σ ρ) : StoredRecord σ ρ → Prop
  | .Raw _ => True
  | .Batch batch => ∃ w, ipc.write batch.schema [batch] = .ok w ∧ ipc.read w = .ok [.ok batch]

theorem readable_of_lawful (hipc : ipc.Lawful) (r : StoredRecord σ ρ) : Readable ipc r := by
  cases r with
  | Raw bytes => trivial
  | Batch batch => exact hipc.read_write batch.schema [batch] (by simp)

/-- The name has no newline, the payload's length fits its four bytes, and the
payload can be read back. -/
def Clean (ipc : ArrowIpc σ ρ) (e : String × StoredRecord σ ρ) : Prop :=
  10 ∉ utf8 e.1 ∧ (payload ipc e.2).length < 2 ^ 32 ∧ Readable ipc e.2

theorem read_record_payload {r : StoredRecord σ ρ} (hr : Readable ipc r) (rest : Bytes) :
    read_record ipc (indicator r) (payload ipc r).length (payload ipc r ++ rest) = .ok (some r, rest) := by
  cases r with
  | Raw bytes => simp [read_record, indicator, payload, readExact_append]
  | Batch batch =>
    obtain ⟨w, hw, hread⟩ := hr
    simp [read_record, indicator, payload, hw, Except.toOption, readExact_append, hread]

/-- A frame's header tells `read_record` what to read. -/
theorem next_frame_header {t : String} (ht : 10 ∉ utf8 t) (ind : UInt8) (n : Nat) (rest : Bytes) :
    next_frame ipc (utf8 t ++ 10 :: ind :: (le32 n ++ rest)) =
      match read_record ipc ind (n % 2 ^ 32) rest with
      | .error e => .error e
      | .ok (record, rest) => .ok ((t, record), rest) := by
  cases hrec : read_record ipc ind (n % 2 ^ 32) rest with
  | error e =>
    simp only [next_frame, readUntil_delim ht, List.dropLast_concat, fromUtf8_utf8, readLe32_le32, hrec]
  | ok r =>
    simp only [next_frame, readUntil_delim ht, List.dropLast_concat, fromUtf8_utf8, readLe32_le32, hrec]

theorem frames_decodes : (frames ipc).Decodes (frame ipc) (fun e => (e.1, some e.2)) (Clean ipc) := by
  rintro ⟨t, r⟩ rest ⟨ht, hn, hr⟩
  show next_frame ipc _ = _
  rw [frame, List.append_assoc, List.cons_append, List.cons_append, List.append_assoc, next_frame_header ht,
    Nat.mod_eq_of_lt hn, read_record_payload hr]

/-- Inside the name there is no newline yet, and nothing follows. -/
theorem next_frame_name {p : Bytes} (h : 10 ∉ p) : ∃ e, next_frame ipc p = .error e := by
  simp only [next_frame, readUntil_end h]
  cases fromUtf8 p.dropLast <;> exact ⟨_, rfl⟩

variable (ipc) in
theorem read_record_short (r : StoredRecord σ ρ) {n : Nat} {input : Bytes} (h : input.length < n) :
    ∃ e, read_record ipc (indicator r) n input = .error e := by
  cases r <;> simp [read_record, indicator, readExact_short h]

/-- A cut inside a frame leaves part of the name, the newline, part of the
header, or the header and part of the payload. -/
theorem frame_prefix_cases {e : String × StoredRecord σ ρ} {p : Bytes} (h : p <+: frame ipc e) :
    p <+: utf8 e.1 ∨ p = utf8 e.1 ++ [10] ∨
      (∃ q, q.length < 4 ∧ p = utf8 e.1 ++ 10 :: indicator e.2 :: q) ∨
      ∃ q, q <+: payload ipc e.2 ∧
        p = utf8 e.1 ++ 10 :: indicator e.2 :: (le32 (payload ipc e.2).length ++ q) := by
  rcases prefix_append_cases h with h₁ | ⟨p, rfl, h₁⟩
  · exact .inl h₁
  rcases List.prefix_cons_iff.1 h₁ with rfl | ⟨p, rfl, h₂⟩
  · exact .inl (by simp)
  rcases List.prefix_cons_iff.1 h₂ with rfl | ⟨p, rfl, h₃⟩
  · exact .inr (.inl rfl)
  by_cases hlen : p.length < 4
  · exact .inr (.inr (.inl ⟨p, hlen, rfl⟩))
  rcases prefix_append_cases h₃ with h₄ | ⟨q, rfl, h₄⟩
  · refine .inr (.inr (.inr ⟨[], by simp, ?_⟩))
    rw [h₄.eq_of_length_le (by simpa using Nat.le_of_not_lt hlen), List.append_nil]
  · exact .inr (.inr (.inr ⟨q, h₄, rfl⟩))

theorem frames_refuses : (frames ipc).Refuses (frame ipc) (Clean ipc) := by
  rintro ⟨t, r⟩ p ⟨ht, hn, -⟩ hp hnil hne
  show ∃ e, next_frame ipc p = .error e
  rcases frame_prefix_cases hp with h | rfl | ⟨q, hq, rfl⟩ | ⟨q, hq, rfl⟩
  · exact next_frame_name fun hm => ht (h.subset hm)
  · simp [next_frame, readUntil_delim ht, fromUtf8_utf8]
  · simp [next_frame, readUntil_delim ht, fromUtf8_utf8, readLe32_short hq]
  · have hlt : q.length < (payload ipc r).length := by
      apply Nat.lt_of_le_of_ne hq.length_le
      intro he
      apply hne
      rw [hq.eq_of_length he]
      rfl
    obtain ⟨e, he⟩ := read_record_short ipc r hlt
    rw [next_frame_header ht, Nat.mod_eq_of_lt hn, he]
    exact ⟨e, rfl⟩

/-! ## Installing frames -/

variable (ipc) (tm : TopicManager σ ρ (InMemoryLog σ ρ))

/-- The manager after a frame; the in-memory log takes every record. -/
def installed (e : String × Option (StoredRecord σ ρ)) : TopicManager σ ρ (InMemoryLog σ ρ) := (tm.install e).2

/-- The records of the frames. -/
def records (es : List (String × Option (StoredRecord σ ρ))) : History σ ρ :=
  es.filterMap fun e => e.2.map (Prod.mk e.1)

/-- Installing a frame succeeds, adds its record to the log and leaves the WAL
alone. -/
theorem install_log (e : String × Option (StoredRecord σ ρ)) :
    tm.install e = (.ok (), installed tm e) ∧ (installed tm e).wal = tm.wal ∧
      (installed tm e).backend = tm.backend.addAll (records [e]) := by
  obtain ⟨t, r⟩ := e
  match r with
  | none => exact ⟨rfl, rfl, rfl⟩
  | some (.Raw buf) => exact ⟨rfl, rfl, rfl⟩
  | some (.Batch b) =>
    cases h : tm.topic_exists t <;>
      refine ⟨?_, ?_, ?_⟩ <;> simp [installed, install, create, h] <;> rfl

theorem recover_loop_eq (input : Bytes) :
    recover_loop ipc tm input =
      (((frames ipc).readAll input).2, ((frames ipc).readAll input).1.foldl installed tm) := by
  induction h : input.length using Nat.strong_induction_on generalizing input tm with
  | _ n ih =>
    by_cases hnil : input = []
    · subst hnil; simp [recover_loop]
    rw [recover_loop, if_neg hnil]
    split
    · rename_i e he
      rw [Reader.readAll_error (frames ipc) hnil he]
      rfl
    · rename_i e rest he
      have hlt := next_frame_shrinks ipc he
      rw [(install_log tm e).1, Reader.readAll_ok (frames ipc) he]
      exact ih rest.length (h ▸ hlt) (installed tm e) rest rfl

theorem records_cons (e : String × Option (StoredRecord σ ρ)) (es) :
    records (e :: es) = records [e] ++ records es := by
  rw [records, records, records, ← List.filterMap_append]; rfl

theorem installed_wal (es : List (String × Option (StoredRecord σ ρ))) :
    (es.foldl installed tm).wal = tm.wal := by
  induction es generalizing tm with
  | nil => rfl
  | cons e es ih => rw [List.foldl_cons, ih, (install_log tm e).2.1]

theorem holds_installed {tm} {h : History σ ρ} (hl : Holds tm.backend h) (es) :
    Holds (es.foldl installed tm).backend (h ++ records es) := by
  induction es generalizing tm h with
  | nil => simpa [records] using hl
  | cons e es ih =>
    have hl' : Holds (installed tm e).backend (h ++ records [e]) := by
      rw [(install_log tm e).2.2]; exact hl.addAll _
    rw [records_cons, ← List.append_assoc]
    exact ih hl'

/-! ## A new process -/

/-- A process that starts on a WAL file: an empty log, no topics, `recover`. -/
def restart (config : Config) (file : Bytes) : Except HerbertError Unit × TopicManager σ ρ (InMemoryLog σ ρ) :=
  recover ipc (.new .new config file)

/-- The records a restart reads off the file. -/
def recovered (file : Bytes) : History σ ρ := records ((frames ipc).readAll file).1

theorem restart_fst (config : Config) (file : Bytes) :
    (restart ipc config file).1 = ((frames ipc).readAll file).2 := by
  rw [restart, recover, recover_loop_eq]; rfl

theorem restart_wal (config : Config) (file : Bytes) : (restart ipc config file).2.wal = .new config file := by
  rw [restart, recover, recover_loop_eq, installed_wal]; rfl

/-- The log holds what was read, whether or not the restart succeeded. -/
theorem holds_restart (config : Config) (file : Bytes) :
    Holds (restart ipc config file).2.backend (recovered ipc file) := by
  rw [restart, recover, recover_loop_eq]
  let fresh : TopicManager σ ρ (InMemoryLog σ ρ) := .new .new config file
  have hfresh : Holds fresh.backend [] := holds_new
  exact holds_installed hfresh _

theorem records_some (es : History σ ρ) : records (es.map fun e => (e.1, some e.2)) = es := by
  induction es with
  | nil => rfl
  | cons e es ih => rw [List.map_cons, records_cons, ih]; rfl

variable {ipc}

theorem readAll_frames {es : History σ ρ} (h : ∀ e ∈ es, Clean ipc e) (rest : Bytes) :
    (frames ipc).readAll (es.flatMap (frame ipc) ++ rest) =
      (es.map (fun e => (e.1, some e.2)) ++ ((frames ipc).readAll rest).1, ((frames ipc).readAll rest).2) :=
  Reader.readAll_encoded frames_decodes h rest

theorem recovered_frames {es : History σ ρ} (h : ∀ e ∈ es, Clean ipc e) (rest : Bytes) :
    recovered ipc (es.flatMap (frame ipc) ++ rest) = es ++ recovered ipc rest := by
  rw [recovered, readAll_frames h, records, List.filterMap_append]
  exact congrArg (· ++ _) (records_some es)

/-- A restart on whole clean frames succeeds and holds their records. -/
theorem restart_frames (config : Config) {es : History σ ρ} (h : ∀ e ∈ es, Clean ipc e) :
    (restart ipc config (es.flatMap (frame ipc))).1 = .ok () ∧
      Holds (restart ipc config (es.flatMap (frame ipc))).2.backend es := by
  have hr := readAll_frames h []
  have hh := recovered_frames h []
  simp only [List.append_nil, Reader.readAll_nil] at hr
  rw [List.append_nil, show recovered ipc [] = [] by simp [recovered, records], List.append_nil] at hh
  refine ⟨by rw [restart_fst, hr], ?_⟩
  have := holds_restart ipc config (es.flatMap (frame ipc))
  rwa [hh] at this

end herbert.Recovery
