import Herbert.Recovery
import Herbert.Handlers
/-!
# Topic names in the WAL

Nothing checks the name in a produce request, and a frame ends its name with a
newline. One more accepted record then shows up in the recovered logs as it
should only if its name has no newline (`clean_of_isolated`): a name like
`"x\n…victim"` is read back as two frames, and the second one puts the payload
under another topic. With a file that takes the frames whole it is also enough
that this name and those before it have none (`isolated_of_clean`).
-/
open Lib Lib.Bytes Lib.Faulty herbert.WriteAheadLog herbert.TopicManager herbert.Recovery

namespace herbert.Isolation

variable {σ ρ : Type} (ipc : ArrowIpc σ ρ)

/-- The name has no newline and the payload's length fits its field. -/
def CleanRequest (e : String × Bytes) : Prop := 10 ∉ utf8 e.1 ∧ e.2.length < 2 ^ 32

instance (e : String × Bytes) : Decidable (CleanRequest e) := inferInstanceAs (Decidable (_ ∧ _))

/-- The records as they are logged. -/
def raw (reqs : List (String × Bytes)) : History σ ρ := reqs.map fun e => (e.1, .Raw e.2)

/-- One `write` takes the frame of each record whole. -/
def Short (reqs : List (String × Bytes)) : Prop := ∀ e ∈ (raw reqs : History σ ρ), (frame ipc e).length ≤ max_write

instance (reqs : List (String × Bytes)) : Decidable (Short ipc reqs) :=
  inferInstanceAs (Decidable (∀ e ∈ raw reqs, (frame ipc e).length ≤ max_write))

section
variable [DecidableEq σ]

/-- The server handles the produce requests one after another. -/
def produceAll (tm : Faults.TopicManager σ ρ (InMemoryLog σ ρ)) (reqs : List (String × Bytes)) :
    Faults.TopicManager σ ρ (InMemoryLog σ ρ) :=
  reqs.foldl (fun tm e => (Handlers.handle_topic_data ipc (create_produce_request e.1 e.2).topic_data tm).2) tm

/-- The WAL file of a manager without topics after the requests, and after its
`BufWriter` was dropped. `answers` is what the file does with its writes. -/
def walFile (config : Config) (answers : List (Answer IoError)) (reqs : List (String × Bytes)) : Bytes :=
  (produceAll ipc ⟨.new, ∅, .new config [] answers⟩ reqs).wal.file.flush.2.inner.bytes

/-- One more record shows up under its topic and nowhere else, and `recover`
fails no more than before. -/
def Isolated (config : Config) (answers : List (Answer IoError)) (before after : List (String × Bytes)) (t : String)
    (payload : Bytes) : Prop :=
  let without := restart ipc config (walFile ipc config answers (before ++ after))
  let inserted := restart ipc config (walFile ipc config answers (before ++ (t, payload) :: after))
  (without.1 = .ok () → inserted.1 = .ok ()) ∧
    (∀ t' ≠ t, inserted.2.backend.queue t' = without.2.backend.queue t') ∧
    ∃ a b, without.2.backend.queue t = a ++ b ∧ inserted.2.backend.queue t = a ++ .Raw payload :: b

/-! ## The file -/

/-- Without topics every record is stored raw, flushed or not. -/
theorem produce_raw {tm : Faults.TopicManager σ ρ (InMemoryLog σ ρ)} (h : tm.topic_metadatas = ∅)
    (hsteady : tm.wal.Steady max_write) {t : String} {payload : Bytes}
    (hfit : (frame ipc (t, .Raw payload)).length ≤ max_write) :
    let tm' := (Handlers.handle_topic_data ipc (create_produce_request t payload).topic_data tm).2
    tm'.topic_metadatas = ∅ ∧ tm'.wal.Steady max_write ∧
      tm'.settled.wal.file.contents = tm.settled.wal.file.contents ++ frame ipc (t, .Raw payload) := by
  intro tm'
  have hr : stored_record ipc tm.topic_metadatas t payload = .ok (.Raw payload) := by rw [stored_record, h]; rfl
  have hw : Writable ipc (.Raw payload) := trivial
  obtain ⟨-, hsettled, hsteady'⟩ := Faults.TopicManager.add_steady ipc hsteady fun r hr' => by
    rw [hr] at hr'
    cases hr'
    exact hfit
  rw [add_log tm.settled hr hw] at hsettled
  have hmap : tm'.topic_metadatas = tm'.settled.topic_metadatas := rfl
  rw [hmap, show tm'.settled = _ from hsettled]
  refine ⟨?_, hsteady', ?_⟩
  · dsimp only
    split <;> exact h
  · dsimp only
    split <;> simp [flushed, logged]

theorem walFile_eq (config : Config) {answers : List (Answer IoError)}
    (hanswers : ∀ a ∈ answers, ∃ n, a = .took n ∧ max_write ≤ n + 1) {reqs : List (String × Bytes)}
    (hshort : Short ipc reqs) : walFile ipc config answers reqs = (raw reqs).flatMap (frame ipc) := by
  have h : ∀ tm : Faults.TopicManager σ ρ (InMemoryLog σ ρ), tm.topic_metadatas = ∅ → tm.wal.Steady max_write →
      (produceAll ipc tm reqs).wal.Steady max_write ∧ (produceAll ipc tm reqs).settled.wal.file.contents =
        tm.settled.wal.file.contents ++ (raw reqs).flatMap (frame ipc) := by
    induction reqs with
    | nil => intro tm _ hs; simp [produceAll, raw, hs]
    | cons e reqs ih =>
      intro tm hm hs
      rw [Short, raw, List.map_cons, List.forall_mem_cons] at hshort
      obtain ⟨hm', hs', hc⟩ := produce_raw ipc hm hs hshort.1
      have := ih hshort.2 _ hm' hs'
      rw [hc, List.append_assoc] at this
      exact this
  obtain ⟨hsteady, hcontents⟩ := h ⟨.new, ∅, .new config [] answers⟩ rfl
    (Faults.WriteAheadLog.steady_new hanswers (by decide) config [])
  obtain ⟨-, hflush, -⟩ := BufWriter.flush_steady hsteady.answers hsteady.pending_le
  have hfile := congrArg Lib.BufWriter.inner hflush
  exact hfile.trans hcontents

end

variable {ipc}

/-! ## Clean frames -/

theorem clean_raw {reqs : List (String × Bytes)} (h : ∀ e ∈ reqs, CleanRequest e) :
    ∀ e ∈ (raw reqs : History σ ρ), Clean ipc e := by
  intro e he
  obtain ⟨req, hreq, rfl⟩ := List.mem_map.1 he
  exact ⟨(h req hreq).1, (h req hreq).2, trivial⟩

/-- Whatever the file holds, the frames read have clean names and lengths. -/
theorem next_frame_clean {input rest : Bytes} {t : String} {r : Option (StoredRecord σ ρ)}
    (h : next_frame ipc input = .ok ((t, r), rest)) :
    10 ∉ utf8 t ∧ ∀ payload, r = some (.Raw payload) → payload.length < 2 ^ 32 := by
  unfold next_frame at h
  dsimp only at h
  split at h
  · cases h
  rename_i topic htopic
  split at h
  · cases h
  split at h
  · cases h
  rename_i size rest' hsize
  split at h
  · cases h
  rename_i record rest'' hrec
  cases h
  constructor
  · rw [← fromUtf8_eq_some htopic]
    exact delim_notMem_dropLast _ _
  · intro payload hp
    subst hp
    unfold read_record at hrec
    split at hrec
    · split at hrec
      · cases hrec
      · rename_i hbuf
        cases hrec
        rw [(readExact_eq_some hbuf).2]
        exact readLe32_lt hsize
    split at hrec
    · split at hrec
      · cases hrec
      · split at hrec <;> cases hrec
    · cases hrec

variable [DecidableEq σ]

omit [DecidableEq σ] in
theorem CleanRequest.of_short {e : String × Bytes} (hname : 10 ∉ utf8 e.1)
    (h : (frame ipc (e.1, .Raw e.2)).length ≤ max_write) : CleanRequest e :=
  Loggable.delimited ⟨hname, h⟩

/-- Clean requests at the front of the file are read back, then the rest. -/
theorem restart_walFile (config : Config) {answers : List (Answer IoError)}
    (hanswers : ∀ a ∈ answers, ∃ n, a = .took n ∧ max_write ≤ n + 1) {before after : List (String × Bytes)}
    (hshort : Short ipc (before ++ after)) (hnames : ∀ e ∈ before, 10 ∉ utf8 e.1) :
    (restart ipc config (walFile ipc config answers (before ++ after))).1 =
        ((frames ipc).readAll ((raw after).flatMap (frame ipc))).2 ∧
      ∀ t, (restart ipc config (walFile ipc config answers (before ++ after))).2.backend.queue t =
        (raw before : History σ ρ).ofTopic t ++
          (recovered ipc ((raw after).flatMap (frame ipc))).ofTopic t := by
  have hfile : walFile ipc config answers (before ++ after) =
      (raw before).flatMap (frame ipc) ++ (raw after).flatMap (frame ipc) := by
    rw [walFile_eq ipc config hanswers hshort, raw, List.map_append, List.flatMap_append]; rfl
  have hb : ∀ e ∈ before, CleanRequest e := fun e he => CleanRequest.of_short (hnames e he)
    (hshort _ (List.mem_map_of_mem (List.mem_append_left _ he)))
  constructor
  · rw [restart_fst, hfile, readAll_frames (clean_raw hb)]
  · intro t
    rw [(holds_restart ipc config _).queue, hfile, recovered_frames (clean_raw hb), History.ofTopic_append]

theorem isolated_of_clean (config : Config) {answers : List (Answer IoError)}
    (hanswers : ∀ a ∈ answers, ∃ n, a = .took n ∧ max_write ≤ n + 1) {before after : List (String × Bytes)}
    {t : String} {payload : Bytes} (hshort : Short ipc (before ++ (t, payload) :: after))
    (hnames : ∀ e ∈ before, 10 ∉ utf8 e.1) (ht : 10 ∉ utf8 t) : Isolated ipc config answers before after t payload := by
  have hnames' : ∀ e ∈ before ++ [(t, payload)], 10 ∉ utf8 e.1 := by
    rw [List.forall_mem_append, List.forall_mem_singleton]
    exact ⟨hnames, ht⟩
  have hwithout : Short ipc (before ++ after) := fun e he =>
    hshort e ((List.Sublist.map _ ((List.sublist_cons_self _ _).append_left _)).subset he)
  have hinserted : Short ipc ((before ++ [(t, payload)]) ++ after) := by rwa [← List.append_cons]
  obtain ⟨hok, hq⟩ := restart_walFile config hanswers hwithout hnames
  obtain ⟨hok', hq'⟩ := restart_walFile config hanswers hinserted hnames'
  have hone : ∀ t', (raw (before ++ [(t, payload)]) : History σ ρ).ofTopic t' =
      (raw before).ofTopic t' ++ if t = t' then [.Raw payload] else [] := by
    intro t'
    rw [raw, List.map_append, History.ofTopic_append]
    exact congrArg _ (History.ofTopic_singleton t' _)
  rw [← List.append_cons] at hok' hq'
  refine ⟨fun h => by rw [hok', ← hok, h], ?_, _, _, hq t, ?_⟩
  · intro t' hne
    rw [hq, hq', hone, if_neg (Ne.symm hne), List.append_nil]
  · rw [hq', hone, if_pos rfl, List.append_assoc, List.singleton_append]

theorem clean_of_isolated (config : Config) {answers : List (Answer IoError)} {before after : List (String × Bytes)}
    {t : String} {payload : Bytes} (h : Isolated ipc config answers before after t payload) :
    CleanRequest (t, payload) := by
  obtain ⟨-, -, a, b, -, hins⟩ := h
  have hmem : (.Raw payload) ∈
      (recovered ipc (walFile ipc config answers (before ++ (t, payload) :: after))).ofTopic t := by
    rw [← (holds_restart ipc config _).queue, hins]
    simp
  have hclean := (frames ipc).readAll_forall
    (Q := fun e => 10 ∉ utf8 e.1 ∧ ∀ payload, e.2 = some (.Raw payload) → payload.length < 2 ^ 32)
    (fun _ _ _ h => next_frame_clean h)
    (walFile ipc config answers (before ++ (t, payload) :: after))
  simp only [History.ofTopic, recovered, records, List.mem_filterMap, Option.map_eq_some_iff] at hmem
  obtain ⟨e, ⟨⟨t', r⟩, he, r', hr, rfl⟩, heq⟩ := hmem
  split at heq
  · rename_i ht
    cases heq
    have := hclean _ he
    exact ⟨ht ▸ this.1, this.2 payload hr⟩
  · cases heq

/-- Inserting a record into a run of raw produce requests is isolated to its
topic only if its name has no newline and its length fits the field. If one
`write` takes any frame of the run whole, and the names before it have no newline
either, it then is, whatever the names are that follow. -/
theorem isolated_iff_clean (ipc : ArrowIpc σ ρ) (config : Config) (answers : List (Answer IoError))
    (before after : List (String × Bytes)) (t : String) (payload : Bytes) :
    (Isolated ipc config answers before after t payload → CleanRequest (t, payload)) ∧
      ((∀ a ∈ answers, ∃ n, a = .took n ∧ max_write ≤ n + 1) → Short ipc (before ++ (t, payload) :: after) →
        (∀ e ∈ before, 10 ∉ utf8 e.1) → 10 ∉ utf8 t → Isolated ipc config answers before after t payload) :=
  ⟨clean_of_isolated config, fun hanswers => isolated_of_clean config hanswers⟩

/-- A record for `"a"`, put between others. -/
theorem isolated_iff_clean_pocket :
    Isolated pocketIpc ⟨1⟩ [.took max_write] [("b", [1])] [("x\ny", [2])] "a" [3] ∧
      ¬ Isolated pocketIpc ⟨1⟩ [] [("b", [1])] [] "x\ny" [2] := by
  constructor
  · exact (isolated_iff_clean pocketIpc ⟨1⟩ _ _ _ _ _).2 (by simp) (by decide) (by decide) (by decide)
  · intro h
    exact absurd ((isolated_iff_clean pocketIpc ⟨1⟩ _ _ _ _ _).1 h) (by decide)

/-- Not every name is isolated: this one is read back as an empty record of
`"x"` and a record of `"victim"`. -/
theorem forged_name :
    (¬ ∀ (before after : List (String × Bytes)) (t : String) (payload : Bytes),
      Isolated pocketIpc ⟨1⟩ [] before after t payload) ∧
    (restart pocketIpc ⟨1⟩ (walFile pocketIpc ⟨1⟩ []
      [("x\n\x00\x00\x00\x00\x00victim", [7])])).2.backend.queue "victim" = [.Raw [7]] := by
  have hfile : walFile pocketIpc ⟨1⟩ [] [("x\n\x00\x00\x00\x00\x00victim", [7])] =
      ([("x", .Raw []), ("victim", .Raw [7])] : History UInt8 UInt8).flatMap (frame pocketIpc) := by decide
  have hreqs : ∀ e ∈ [("x", []), ("victim", [7])], CleanRequest e := by decide
  have hclean : ∀ e ∈ ([("x", .Raw []), ("victim", .Raw [7])] : History UInt8 UInt8), Clean pocketIpc e :=
    clean_raw hreqs
  have hvictim : (restart pocketIpc ⟨1⟩ (walFile pocketIpc ⟨1⟩ []
      [("x\n\x00\x00\x00\x00\x00victim", [7])])).2.backend.queue "victim" = [.Raw [7]] := by
    rw [hfile, (restart_frames ⟨1⟩ hclean).2.queue]
    decide
  refine ⟨?_, hvictim⟩
  intro h
  have hother := (h [] [] "x\n\x00\x00\x00\x00\x00victim" [7]).2.1 "victim" (by decide)
  rw [List.nil_append, hvictim, List.append_nil] at hother
  have hempty : walFile pocketIpc ⟨1⟩ [] [] = [] := by decide
  rw [hempty, (holds_restart pocketIpc ⟨1⟩ []).queue] at hother
  simp [recovered, records] at hother

end herbert.Isolation
