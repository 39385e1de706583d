import Herbert.Recovery
/-!
# A crash in the middle of a write

The WAL file is cut after `n` bytes. `recover` reads every frame that lies
wholly inside the prefix and fails on the one that is cut, whichever of its
parts the cut falls into, so it succeeds exactly at the frame boundaries
(`tolerates_iff_boundary`). A payload of `2 ^ 32` bytes or more is a second way
to go wrong: its length does not fit the field, and what is read back is
shorter.
-/
open Lib Lib.Bytes herbert.WriteAheadLog herbert.TopicManager herbert.Recovery

namespace herbert.TornTail

variable {σ ρ : Type} (ipc : ArrowIpc σ ρ)

/-- `WriteAheadLog::add` of every record. -/
def appendAll (wal : WriteAheadLog σ ρ) (es : History σ ρ) : WriteAheadLog σ ρ :=
  es.foldl (fun wal e => (wal.add ipc e.1 e.2).2) wal

/-- The WAL file after the records were appended to an empty one. -/
def walFile (config : Config) (es : History σ ρ) : Bytes := (appendAll ipc (.new config []) es).file.flush.inner

/-- A restart on the first `n` bytes of the file succeeds, and the backend holds
the records whose frames lie inside them. -/
def Tolerates (config : Config) (es : History σ ρ) (n : Nat) : Prop :=
  (restart ipc config ((walFile ipc config es).take n)).1 = .ok () ∧
    Holds (restart ipc config ((walFile ipc config es).take n)).2.backend (Reader.whole (frame ipc) es n)

/-- The prefix ends between two frames, whose lengths fit their fields. -/
def Boundary (es : History σ ρ) (n : Nat) : Prop :=
  (es.flatMap (frame ipc)).take n = (Reader.whole (frame ipc) es n).flatMap (frame ipc) ∧
    ∀ e ∈ Reader.whole (frame ipc) es n, (payload ipc e.2).length < 2 ^ 32

instance (es : History σ ρ) (n : Nat) : Decidable (Boundary ipc es n) := inferInstanceAs (Decidable (_ ∧ _))

/-- Names without a newline. Batches are written as streams below `2 ^ 32` bytes. -/
def Plain (e : String × StoredRecord σ ρ) : Prop :=
  10 ∉ utf8 e.1 ∧ ∀ b, e.2 = .Batch b → (payload ipc e.2).length < 2 ^ 32

variable {ipc}

theorem walFile_eq (hipc : ipc.Lawful) (config : Config) (es : History σ ρ) :
    walFile ipc config es = es.flatMap (frame ipc) := by
  have h : ∀ wal : WriteAheadLog σ ρ,
      (appendAll ipc wal es).file.contents = wal.file.contents ++ es.flatMap (frame ipc) := by
    induction es with
    | nil => simp [appendAll]
    | cons e es ih =>
      intro wal
      have hadd := add_writable ipc (writable_of_lawful hipc e.2) wal e.1
      have := ih (wal.logged ipc e)
      rw [appendAll, List.foldl_cons, hadd]
      simpa [appendAll, logged] using this
  simpa [walFile, BufWriter.contents, WriteAheadLog.new] using h (.new config [])

/-! ## At a boundary -/

theorem Boundary.tolerates (hipc : ipc.Lawful) (config : Config) {es : History σ ρ} {n : Nat}
    (hnames : ∀ e ∈ es, 10 ∉ utf8 e.1) (h : Boundary ipc es n) : Tolerates ipc config es n := by
  obtain ⟨hcut, hfit⟩ := h
  rw [Tolerates, walFile_eq hipc, hcut]
  apply restart_frames config
  intro e he
  exact ⟨hnames e ((Reader.whole_isPrefix es n).subset he), hfit e he, readable_of_lawful hipc e.2⟩

/-! ## Elsewhere -/

theorem read_record_raw (n : Nat) (input : Bytes) :
    read_record ipc 0 n input = match readExact n input with
      | none => .error (.Io .UnexpectedEof)
      | some (buf, rest) => .ok (some (.Raw buf), rest) := rfl

/-- A raw frame is read up to its length modulo `2 ^ 32`. -/
theorem next_frame_raw {t : String} (ht : 10 ∉ utf8 t) (bytes rest : Bytes) :
    next_frame ipc (frame ipc (t, .Raw bytes) ++ rest) =
      .ok ((t, some (.Raw (bytes.take (bytes.length % 2 ^ 32)))), bytes.drop (bytes.length % 2 ^ 32) ++ rest) := by
  have hle : bytes.length % 2 ^ 32 ≤ bytes.length := Nat.mod_le _ _
  have hread : readExact (bytes.length % 2 ^ 32) (bytes ++ rest) =
      some (bytes.take (bytes.length % 2 ^ 32), bytes.drop (bytes.length % 2 ^ 32) ++ rest) := by
    rw [readExact, if_pos (by rw [List.length_append]; omega), List.take_append_of_le_length hle,
      List.drop_append_of_le_length hle]
  rw [frame, List.append_assoc, List.cons_append, List.cons_append, List.append_assoc, next_frame_header ht]
  simp only [indicator, payload, read_record_raw, hread]

/-- On a frame cut short, reading fails or invents a record. -/
theorem next_frame_torn (hipc : ipc.Lawful) {c : String × StoredRecord σ ρ} (hc : Plain ipc c) {p : Bytes}
    (hp : p <+: frame ipc c) (hnil : p ≠ []) (hne : p ≠ frame ipc c) :
    (∃ e, next_frame ipc p = .error e) ∨ ∃ r rest, next_frame ipc p = .ok ((c.1, some r), rest) := by
  by_cases hfit : (payload ipc c.2).length < 2 ^ 32
  · exact .inl (frames_refuses c p ⟨hc.1, hfit, readable_of_lawful hipc c.2⟩ hp hnil hne)
  obtain ⟨t, r⟩ := c
  cases r with
  | Batch b => exact absurd (hc.2 b rfl) hfit
  | Raw bytes =>
    rcases frame_prefix_cases hp with h | rfl | ⟨q, hq, rfl⟩ | ⟨q, -, rfl⟩
    · exact .inl (next_frame_name fun hm => hc.1 (h.subset hm))
    · exact .inl (by simp [next_frame, readUntil_delim hc.1, fromUtf8_utf8])
    · exact .inl (by simp [next_frame, readUntil_delim hc.1, fromUtf8_utf8, readLe32_short hq])
    · rw [next_frame_header hc.1]
      simp only [indicator, read_record_raw]
      cases readExact ((payload ipc (.Raw bytes)).length % 2 ^ 32) q with
      | none => exact .inl ⟨_, rfl⟩
      | some a => exact .inr ⟨.Raw a.1, a.2, rfl⟩

theorem recovered_ok {file rest : Bytes} {t : String} {r : StoredRecord σ ρ}
    (h : next_frame ipc file = .ok ((t, some r), rest)) :
    recovered ipc file = (t, r) :: recovered ipc rest ∧
      ((frames ipc).readAll file).2 = ((frames ipc).readAll rest).2 := by
  rw [recovered, Reader.readAll_ok (frames ipc) h, records_cons]
  exact ⟨rfl, rfl⟩

/-- If reading whole frames and a torn rest gives exactly the records of the
whole frames, there is no rest and all lengths fit. -/
theorem boundary_of_recovered (hipc : ipc.Lawful) {es : History σ ρ} {torn : Bytes} (hes : ∀ e ∈ es, Plain ipc e)
    (htorn : torn = [] ∨ ∃ c, Plain ipc c ∧ torn <+: frame ipc c ∧ torn ≠ frame ipc c)
    (hok : ((frames ipc).readAll (es.flatMap (frame ipc) ++ torn)).2 = .ok ())
    (hrec : ∀ t, History.ofTopic t (recovered ipc (es.flatMap (frame ipc) ++ torn)) = History.ofTopic t es) :
    torn = [] ∧ ∀ e ∈ es, (payload ipc e.2).length < 2 ^ 32 := by
  induction es with
  | nil =>
    refine ⟨?_, by simp⟩
    by_contra hnil
    obtain ⟨c, hc, hp, hne⟩ := htorn.resolve_left hnil
    rcases next_frame_torn hipc hc hp hnil hne with ⟨e, he⟩ | ⟨r, rest, he⟩
    · rw [List.flatMap_nil, List.nil_append, Reader.readAll_error (frames ipc) hnil he] at hok
      cases hok
    · have := hrec c.1
      rw [List.flatMap_nil, List.nil_append, (recovered_ok he).1, History.ofTopic_cons, History.ofTopic_singleton] at this
      simp at this
  | cons e es ih =>
    obtain ⟨t, r⟩ := e
    obtain ⟨he, hes⟩ := List.forall_mem_cons.1 hes
    rw [List.flatMap_cons, List.append_assoc] at hok hrec
    by_cases hfit : (payload ipc r).length < 2 ^ 32
    · have hc : Clean ipc (t, r) := ⟨he.1, hfit, readable_of_lawful hipc r⟩
      obtain ⟨h1, h2⟩ := recovered_ok (frames_decodes (t, r) (es.flatMap (frame ipc) ++ torn) hc)
      rw [h1] at hrec
      rw [h2] at hok
      have := ih hes hok fun t' => by
        have := hrec t'
        rw [History.ofTopic_cons, History.ofTopic_cons t' _ es] at this
        exact List.append_cancel_left this
      exact ⟨this.1, List.forall_mem_cons.2 ⟨hfit, this.2⟩⟩
    · cases r with
      | Batch b => exact absurd (he.2 b rfl) hfit
      | Raw bytes =>
        -- the first record of the topic would be shorter than the one appended
        have := hrec t
        rw [(recovered_ok (next_frame_raw he.1 bytes _)).1, History.ofTopic_cons, History.ofTopic_cons t _ es] at this
        simp only [History.ofTopic_singleton, if_true, List.singleton_append, List.cons.injEq,
          StoredRecord.Raw.injEq] at this
        have hlen := congrArg List.length this.1
        have hmod : bytes.length % 2 ^ 32 < 2 ^ 32 := Nat.mod_lt _ (by decide)
        simp only [payload] at hfit
        simp only [List.length_take] at hlen
        omega

theorem boundary_of_tolerates (hipc : ipc.Lawful) (config : Config) {es : History σ ρ} {n : Nat}
    (hes : ∀ e ∈ es, Plain ipc e) (h : Tolerates ipc config es n) : Boundary ipc es n := by
  obtain ⟨torn, hcut, htorn⟩ := Reader.take_eq_whole (frame ipc) es n
  obtain ⟨hok, hholds⟩ := h
  rw [walFile_eq hipc, hcut] at hok hholds
  have hrec : ∀ t, History.ofTopic t (recovered ipc ((Reader.whole (frame ipc) es n).flatMap (frame ipc) ++ torn)) =
      History.ofTopic t (Reader.whole (frame ipc) es n) := by
    intro t
    rw [← (holds_restart ipc config _).queue, hholds.queue]
  rw [restart_fst] at hok
  obtain ⟨hnil, hfit⟩ := boundary_of_recovered hipc
    (fun e he => hes e ((Reader.whole_isPrefix es n).subset he))
    (htorn.imp_right fun ⟨c, hc, hp⟩ => ⟨c, hes c hc, hp⟩) hok hrec
  exact ⟨by rw [hcut, hnil, List.append_nil], hfit⟩

/-- Recovery tolerates a cut exactly where it falls between two frames. -/
theorem tolerates_iff_boundary (hipc : ipc.Lawful) (config : Config) {es : History σ ρ}
    (hnames : ∀ e ∈ es, 10 ∉ utf8 e.1) (n : Nat) :
    (Boundary ipc es n → Tolerates ipc config es n) ∧
      ((∀ e ∈ es, ∀ b, e.2 = .Batch b → (payload ipc e.2).length < 2 ^ 32) →
        Tolerates ipc config es n → Boundary ipc es n) :=
  ⟨Boundary.tolerates hipc config hnames,
    fun hb => boundary_of_tolerates hipc config fun e he => ⟨hnames e he, hb e he⟩⟩

/-- The cut may fall behind the record of `"a"`, or two records may be whole. -/
theorem tolerates_iff_boundary_pocket :
    Tolerates pocketIpc ⟨1⟩ [("a", .Raw [1]), ("b", .Raw [])] 8 ∧
      ¬ Tolerates pocketIpc ⟨1⟩ [("a", .Raw [1]), ("b", .Raw [])] 12 := by
  have hnames : ∀ e ∈ ([("a", .Raw [1]), ("b", .Raw [])] : History UInt8 UInt8), 10 ∉ utf8 e.1 := by decide
  have h := tolerates_iff_boundary pocketIpc_framed.toLawful ⟨1⟩ hnames
  refine ⟨(h 8).1 (by decide), ?_⟩
  intro ht
  have : ¬ Boundary pocketIpc [("a", .Raw [1]), ("b", .Raw [])] 12 := by decide
  exact this ((h 12).2 (by simp) ht)

/-- Not every prefix of a WAL file is tolerated: one byte of the first frame
makes `recover` fail. -/
theorem torn_name_fails :
    ¬ ∀ (es : History UInt8 UInt8) (n : Nat), (∀ e ∈ es, 10 ∉ utf8 e.1) → Tolerates pocketIpc ⟨1⟩ es n := by
  intro h
  have hok := (h [("a", .Raw [1])] 1 (by decide)).1
  rw [restart_fst, walFile_eq pocketIpc_framed.toLawful,
    Reader.readAll_error (frames pocketIpc) (e := .Io .UnexpectedEof) (by decide) (by decide)] at hok
  cases hok

end herbert.TornTail
