import Herbert.Recovery
/-!
# The grammar of the WAL file

A `Frame` is what the file format allows: a name, a newline, an indicator, a
length and that many bytes, which for a batch open as a stream. On any bytes at
all, `recover` takes the longest sequence of frames from the front, hands their
records to the backend and fails if anything is left. It panics if Arrow's reader
does, on the bytes that the next header announces for a stream
(`recover_maximal`).
-/
open Lib Lib.Bytes herbert.WriteAheadLog herbert.TopicManager herbert.Recovery

namespace herbert.Grammar

variable {σ ρ : Type} (ipc : ArrowIpc σ ρ)

/-- The bytes open as a stream whose first batch, if any, decodes. -/
def Opens (body : Bytes) : Prop :=
  ipc.read body = .ok [] ∨ ∃ batch items, ipc.read body = .ok (.ok batch :: items)

structure Frame where
  topic : String
  indicator : UInt8
  body : Bytes
  name : 10 ∉ utf8 topic
  fits : body.length < 2 ^ 32
  kind : indicator = 0 ∨ indicator = 1 ∧ Opens ipc body

variable {ipc}

def Frame.bytes (f : Frame ipc) : Bytes :=
  utf8 f.topic ++ 10 :: f.indicator :: (le32 f.body.length ++ f.body)

/-- The frame's record; an empty stream has none. -/
def Frame.record (f : Frame ipc) : Option (StoredRecord σ ρ) :=
  if f.indicator = 0 then some (.Raw f.body)
  else match ipc.read f.body with
    | .ok (.ok batch :: _) => some (.Batch batch)
    | _ => none

/-- What a reader gets of the frame. -/
def Frame.entry (f : Frame ipc) : String × Option (StoredRecord σ ρ) := (f.topic, f.record)

/-- The records of the frames, with their topics. -/
def recordsOf (fs : List (Frame ipc)) : History σ ρ := fs.filterMap fun f => f.record.map (Prod.mk f.topic)

/-! ## One frame -/

theorem read_record_frame (f : Frame ipc) (rest : Bytes) :
    read_record ipc f.indicator f.body.length (f.body ++ rest) = .ok (f.record, rest) := by
  rcases f.kind with h | ⟨h, hread | ⟨batch, items, hread⟩⟩ <;>
    simp [read_record, Frame.record, readExact_append, *]

/-- A frame is read back, whatever follows. -/
theorem reads_frame : (frames ipc).Decodes (fun f : Frame ipc => f.bytes) Frame.entry fun _ => True := by
  intro f rest _
  show next_frame ipc (f.bytes ++ rest) = _
  rw [Frame.bytes, List.append_assoc, List.cons_append, List.cons_append, List.append_assoc,
    next_frame_header f.name, Nat.mod_eq_of_lt f.fits, read_record_frame, Frame.entry]

/-- What `read_record` takes is the body of a frame. -/
theorem read_record_ok {indicator : UInt8} {size : Nat} {input rest : Bytes} {r : Option (StoredRecord σ ρ)}
    (hsize : size < 2 ^ 32) (h : read_record ipc indicator size input = .ok (r, rest)) {t : String}
    (ht : 10 ∉ utf8 t) :
    ∃ f : Frame ipc, f.topic = t ∧ f.indicator = indicator ∧ f.body.length = size ∧ f.record = r ∧
      input = f.body ++ rest := by
  unfold read_record at h
  split at h
  · rename_i hind
    split at h
    · cases h
    · rename_i body rest' hbody
      obtain ⟨rfl, rfl⟩ := readExact_eq_some hbody
      cases h
      exact ⟨⟨t, indicator, body, ht, hsize, .inl hind⟩, rfl, rfl, rfl, by simp [Frame.record, hind], rfl⟩
  split at h
  · rename_i hind
    split at h
    · cases h
    rename_i body rest' hbody
    obtain ⟨rfl, rfl⟩ := readExact_eq_some hbody
    split at h
    · cases h
    · rename_i hread
      cases h
      exact ⟨⟨t, indicator, body, ht, hsize, .inr ⟨hind, .inl hread⟩⟩, rfl, rfl, rfl,
        by simp [Frame.record, hind, hread], rfl⟩
    · cases h
    · rename_i batch items hread
      cases h
      exact ⟨⟨t, indicator, body, ht, hsize, .inr ⟨hind, .inr ⟨batch, items, hread⟩⟩⟩, rfl, rfl, rfl,
        by simp [Frame.record, hind, hread], rfl⟩
  · cases h

/-- Nothing is read that is not a frame. The name's last byte is dropped
unchecked, but something follows it only if it is the newline. -/
theorem reads_only_frames :
    (frames ipc).Sound (fun f : Frame ipc => f.bytes) Frame.entry fun _ => True := by
  intro input a rest h
  change next_frame ipc input = _ at h
  unfold next_frame at h
  dsimp only at h
  split at h
  · cases h
  rename_i topic hname
  split at h
  · cases h
  rename_i indicator rest₁ hrest
  split at h
  · cases h
  rename_i size rest₂ hsize
  split at h
  · cases h
  rename_i r rest₃ hrec
  cases h
  have hne : (readUntil 10 input).2 ≠ [] := by simp [hrest]
  have hname := fromUtf8_eq_some hname
  have ht : 10 ∉ utf8 topic := hname ▸ delim_notMem_dropLast 10 input
  obtain ⟨f, rfl, rfl, rfl, rfl, rfl⟩ := read_record_ok (readLe32_lt hsize) hrec ht
  refine ⟨f, trivial, rfl, ?_⟩
  have hcat := readUntil_append 10 input
  rw [readUntil_eq_concat hne, hname, hrest, readLe32_eq_some hsize] at hcat
  simp [← hcat, Frame.bytes]

/-! ## A reader that panics -/

/-- What a pass of `recover` hands to `StreamReader`, if it comes to that. -/
def stream_of (input : Bytes) : Option Bytes :=
  let (contents, rest) := readUntil 10 input
  match fromUtf8 contents.dropLast with
  | none => none
  | some _ =>
    match rest with
    | [] => none
    | indicator :: rest =>
      match readLe32 rest with
      | none => none
      | some (size, rest) => if indicator = 1 then (readExact size rest).map Prod.fst else none

theorem stream_of_nil : stream_of [] = none := rfl

variable (ipc) (panics : Bytes → Bool)

/-- The loop of `recover` with a reader that panics on some bytes. -/
def recover_loop_or_panic (tm : TopicManager σ ρ (InMemoryLog σ ρ)) (input : Bytes) :
    Except Fault Unit × TopicManager σ ρ (InMemoryLog σ ρ) :=
  if input = [] then (.ok (), tm)
  else if (stream_of input).any panics then (.error .Panic, tm)
  else match h : next_frame ipc input with
    | .error e => (.error (.Error e), tm)
    | .ok (e, rest) =>
      have := next_frame_shrinks ipc h
      match tm.install e with
      | (.error e, tm) => (.error (.Error e), tm)
      | (.ok (), tm) => recover_loop_or_panic tm rest
termination_by input.length

def recover_or_panic (tm : TopicManager σ ρ (InMemoryLog σ ρ)) :
    Except Fault Unit × TopicManager σ ρ (InMemoryLog σ ρ) :=
  recover_loop_or_panic ipc panics tm tm.wal.file.inner

theorem next_frame_guarded (input : Bytes) :
    next_frame (ipc.guarded panics) input =
      if (stream_of input).any panics then .error (.ArrowError ⟨"panicked"⟩) else next_frame ipc input := by
  obtain hname | ⟨topic, hname⟩ := (fromUtf8 (readUntil 10 input).1.dropLast).eq_none_or_eq_some
  · simp [next_frame, stream_of, hname]
  cases hrest : (readUntil 10 input).2 with
  | nil => simp [next_frame, stream_of, hname, hrest]
  | cons indicator rest =>
    cases hsize : readLe32 rest with
    | none => simp [next_frame, stream_of, hname, hrest, hsize]
    | some x =>
      obtain ⟨size, rest'⟩ := x
      by_cases h1 : indicator = 1
      · subst h1
        cases hbody : readExact size rest' with
        | none => simp [next_frame, stream_of, hname, hrest, hsize, read_record, hbody]
        | some y =>
          obtain ⟨body, rest''⟩ := y
          cases hpanics : panics body <;>
            simp [next_frame, stream_of, hname, hrest, hsize, read_record, hbody, hpanics, ArrowIpc.guarded]
      · simp [next_frame, stream_of, hname, hrest, hsize, read_record, h1]

section
variable {ipc panics} {tm : TopicManager σ ρ (InMemoryLog σ ρ)} {input rest : Bytes}

theorem loop_panics (hne : input ≠ []) (h : (stream_of input).any panics) :
    recover_loop_or_panic ipc panics tm input = (.error .Panic, tm) := by
  rw [recover_loop_or_panic, if_neg hne, if_pos h]

theorem loop_error (hne : input ≠ []) (hno : ¬ (stream_of input).any panics) {e : HerbertError}
    (h : next_frame ipc input = .error e) : recover_loop_or_panic ipc panics tm input = (.error (.Error e), tm) := by
  rw [recover_loop_or_panic, if_neg hne, if_neg hno]
  split <;> rename_i heq <;> rw [h] at heq <;> cases heq
  rfl

/-- A frame the reader does not panic on is installed. -/
theorem loop_ok {e : String × Option (StoredRecord σ ρ)} (h : next_frame (ipc.guarded panics) input = .ok (e, rest)) :
    recover_loop_or_panic ipc panics tm input = recover_loop_or_panic ipc panics (installed tm e) rest := by
  have hne : input ≠ [] := by
    rintro rfl
    cases h
  rw [next_frame_guarded] at h
  split at h
  · cases h
  rename_i hno
  rw [recover_loop_or_panic, if_neg hne, if_neg hno]
  split <;> rename_i heq <;> rw [h] at heq <;> cases heq
  rw [(install_log tm e).1]

end

/-- With a reader that never panics this is `recover`. -/
theorem recover_never_panics (hnever : ∀ w, panics w = false) (tm : TopicManager σ ρ (InMemoryLog σ ρ)) :
    recover_or_panic ipc panics tm = ((recover ipc tm).1.mapError .Error, (recover ipc tm).2) := by
  have hno : ∀ input, ¬ (stream_of input).any panics := by simp [Option.any_eq_true, hnever]
  rw [recover_or_panic, recover]
  generalize tm.wal.file.inner = input
  rw [recover_loop_eq]
  induction hn : input.length using Nat.strong_induction_on generalizing input tm with
  | _ n ih =>
    by_cases hne : input = []
    · subst hne
      simp [recover_loop_or_panic, Except.mapError]
    cases hnext : next_frame ipc input with
    | error e =>
      rw [loop_error hne (hno input) hnext, Reader.readAll_error (frames ipc) hne hnext]
      rfl
    | ok a =>
      obtain ⟨e, rest⟩ := a
      have hlt := next_frame_shrinks ipc hnext
      rw [loop_ok (by rw [next_frame_guarded, if_neg (hno input), hnext]), Reader.readAll_ok (frames ipc) hnext]
      exact ih rest.length (hn ▸ hlt) (installed tm e) rest rfl

variable {ipc panics}

/-! ## The whole file -/

theorem records_entries (fs : List (Frame ipc)) : records (fs.map Frame.entry) = recordsOf fs := by
  rw [records, List.filterMap_map]
  rfl

theorem backend_installed (tm : TopicManager σ ρ (InMemoryLog σ ρ)) (es : List (String × Option (StoredRecord σ ρ))) :
    (es.foldl installed tm).backend = tm.backend.addAll (records es) := by
  induction es generalizing tm with
  | nil => rfl
  | cons e es ih =>
    rw [List.foldl_cons, ih, (install_log tm e).2.2, records_cons e es, InMemoryLog.addAll, InMemoryLog.addAll,
      InMemoryLog.addAll, List.foldl_append]

/-- `w` is these frames and a rest that starts with none. -/
def Splits (w : Bytes) (fs : List (Frame ipc)) (rest : Bytes) : Prop :=
  w = fs.flatMap (fun f => f.bytes) ++ rest ∧ ∀ f : Frame ipc, ¬ f.bytes <+: rest

theorem splits_whole (fs : List (Frame ipc)) : Splits (fs.flatMap fun f => f.bytes) fs [] := by
  refine ⟨by simp, ?_⟩
  rintro f hf
  have := List.prefix_nil.1 hf
  simp [Frame.bytes] at this

/-- The loop installs the frames at the front and goes on behind them. -/
theorem loop_frames (tm : TopicManager σ ρ (InMemoryLog σ ρ)) (fs : List (Frame (ipc.guarded panics))) (rest : Bytes) :
    recover_loop_or_panic ipc panics tm (fs.flatMap (fun f => f.bytes) ++ rest) =
      recover_loop_or_panic ipc panics ((fs.map Frame.entry).foldl installed tm) rest := by
  induction fs generalizing tm with
  | nil => rfl
  | cons f fs ih =>
    have hread := reads_frame f (fs.flatMap (fun f => f.bytes) ++ rest) trivial
    rw [List.flatMap_cons, List.append_assoc, loop_ok hread]
    exact ih (installed tm f.entry)

/-- What is left when no frame starts any more. -/
theorem loop_rest (tm : TopicManager σ ρ (InMemoryLog σ ρ)) {rest : Bytes}
    (hmax : ∀ f : Frame (ipc.guarded panics), ¬ f.bytes <+: rest) :
    (recover_loop_or_panic ipc panics tm rest).2 = tm ∧
      ((recover_loop_or_panic ipc panics tm rest).1 = .ok () ↔ rest = []) ∧
      ((recover_loop_or_panic ipc panics tm rest).1 = .error .Panic ↔ ∃ body, stream_of rest = some body ∧ panics body) := by
  by_cases hnil : rest = []
  · subst hnil
    simp [recover_loop_or_panic, stream_of_nil]
  by_cases hpanics : (stream_of rest).any panics
  · simp [loop_panics hnil hpanics, hnil, ← Option.any_eq_true, hpanics]
  · cases hnext : next_frame ipc rest with
    | error e => simp [loop_error hnil hpanics hnext, hnil, ← Option.any_eq_true, hpanics]
    | ok a =>
      obtain ⟨e, rest'⟩ := a
      have hguarded : next_frame (ipc.guarded panics) rest = .ok (e, rest') := by
        rw [next_frame_guarded, if_neg hpanics, hnext]
      obtain ⟨f, -, -, rfl⟩ := reads_only_frames _ _ _ hguarded
      exact absurd (List.prefix_append _ _) (hmax f)

theorem Splits.recover {w : Bytes} {fs : List (Frame (ipc.guarded panics))} {rest : Bytes} (h : Splits w fs rest)
    (config : Config) :
    let recovered := recover_or_panic ipc panics (.new .new config w)
    recovered.2.backend = InMemoryLog.new.addAll (recordsOf fs) ∧ (recovered.1 = .ok () ↔ rest = []) ∧
      (recovered.1 = .error .Panic ↔ ∃ body, stream_of rest = some body ∧ panics body) := by
  obtain ⟨rfl, hmax⟩ := h
  intro recovered
  obtain ⟨htm, hok, hpanic⟩ := loop_rest ((fs.map Frame.entry).foldl installed
    (.new .new config (fs.flatMap (fun f => f.bytes) ++ rest))) hmax
  have hrec : recovered = _ := loop_frames _ fs rest
  rw [← hrec] at htm hok hpanic
  refine ⟨?_, hok, hpanic⟩
  rw [htm, backend_installed, records_entries]
  rfl

variable (ipc) in
/-- The frames `serialize` writes for the records, one after the other. -/
def serializeAll : History σ ρ → Except HerbertError Bytes
  | [] => .ok []
  | (topic, record) :: h =>
    match serialize ipc topic record with
    | .error e => .error e
    | .ok buffer =>
      match serializeAll h with
      | .error e => .error e
      | .ok buffers => .ok (buffer ++ buffers)

theorem serializeAll_raw {ipc' : ArrowIpc σ ρ} {fs : List (Frame ipc')} (h : ∀ f ∈ fs, f.indicator = 0) :
    serializeAll ipc (recordsOf fs) = .ok (fs.flatMap fun f => f.bytes) := by
  induction fs with
  | nil => rfl
  | cons f fs ih =>
    obtain ⟨hf, hfs⟩ := List.forall_mem_cons.1 h
    have hrec : recordsOf (f :: fs) = (f.topic, .Raw f.body) :: recordsOf fs := by
      simp [recordsOf, Frame.record, hf]
    have hbytes : frame ipc (f.topic, .Raw f.body) = f.bytes := by
      simp [frame, payload, indicator, Frame.bytes, hf]
    rw [hrec, serializeAll, serialize_writable ipc (r := .Raw f.body) trivial]
    simp only [ih hfs, hbytes, List.flatMap_cons]

/-- Any bytes split into a longest sequence of frames and a rest. `recover` hands
exactly the records of these frames to the backend, succeeds if there is no
rest, and panics only if the reader does, on a body at the front of the rest. If
all frames are raw, serializing the records gives the file back. -/
theorem recover_maximal (ipc : ArrowIpc σ ρ) (panics : Bytes → Bool) (config : Config) (w : Bytes) :
    let recovered := recover_or_panic ipc panics (.new .new config w)
    (∃ (fs : List (Frame (ipc.guarded panics))) (rest : Bytes), Splits w fs rest) ∧
    (∀ (fs : List (Frame (ipc.guarded panics))) (rest : Bytes), Splits w fs rest →
      recovered.2.backend = InMemoryLog.new.addAll (recordsOf fs) ∧ (recovered.1 = .ok () ↔ rest = []) ∧
        (recovered.1 = .error .Panic ↔ ∃ body, stream_of rest = some body ∧ panics body)) ∧
    ∀ fs : List (Frame (ipc.guarded panics)), w = fs.flatMap (fun f => f.bytes) →
      recovered.1 = .ok () ∧ ((∀ f ∈ fs, f.indicator = 0) → serializeAll ipc (recordsOf fs) = .ok w) := by
  intro recovered
  refine ⟨?_, fun fs rest h => h.recover config, ?_⟩
  · obtain ⟨fs, rest, -, hw, hmax⟩ := Reader.exists_maximal reads_frame reads_only_frames w
    exact ⟨fs, rest, hw, fun f => hmax f trivial⟩
  · rintro fs rfl
    exact ⟨((splits_whole fs).recover config).2.1.2 rfl, serializeAll_raw⟩

/-- An empty raw record, a frame with an empty stream, and a stream the reader
panics on: one record is stored, and `recover` panics. -/
theorem recover_maximal_pocket :
    let recovered := recover_or_panic pocketIpc (· == [255, 255, 255, 255, 9]) (.new .new ⟨1⟩
      [97, 10, 0, 0, 0, 0, 0, 98, 10, 1, 6, 0, 0, 0, 255, 255, 255, 255, 7, 0, 97, 10, 1, 5, 0, 0, 0, 255, 255, 255, 255, 9])
    recovered.2.backend = InMemoryLog.new.addAll [("a", .Raw [])] ∧ recovered.1 = .error .Panic := by
  let panics : Bytes → Bool := (· == [255, 255, 255, 255, 9])
  let fs : List (Frame (pocketIpc.guarded panics)) := [⟨"a", 0, [], by decide, by decide, .inl rfl⟩,
    ⟨"b", 1, [255, 255, 255, 255, 7, 0], by decide, by decide, .inr ⟨rfl, .inl rfl⟩⟩]
  have hs : Splits [97, 10, 0, 0, 0, 0, 0, 98, 10, 1, 6, 0, 0, 0, 255, 255, 255, 255, 7, 0,
      97, 10, 1, 5, 0, 0, 0, 255, 255, 255, 255, 9] fs [97, 10, 1, 5, 0, 0, 0, 255, 255, 255, 255, 9] := by
    refine ⟨by decide, ?_⟩
    rintro f ⟨tail, htail⟩
    have hread := reads_frame f tail trivial
    have herr : next_frame (pocketIpc.guarded panics) [97, 10, 1, 5, 0, 0, 0, 255, 255, 255, 255, 9] =
        .error (.ArrowError ⟨"panicked"⟩) := by decide
    rw [htail] at hread
    cases herr.symm.trans hread
  obtain ⟨hb, -, hpanic⟩ := (recover_maximal pocketIpc panics ⟨1⟩ _).2.1 fs _ hs
  exact ⟨hb.trans rfl, hpanic.2 ⟨[255, 255, 255, 255, 9], by decide, by decide⟩⟩

/-- `recover` panics on a file that a reader panics on. -/
theorem recover_panics :
    (recover_or_panic pocketIpc (· == [255, 255, 255, 255, 9]) (.new .new ⟨1⟩
      [97, 10, 1, 5, 0, 0, 0, 255, 255, 255, 255, 9])).1 = .error .Panic := by
  rw [recover_or_panic, loop_panics (by decide) (by decide)]

end herbert.Grammar
