import Herbert.OffsetRecovery
import Herbert.Lib.Mutex
/-!
# Concurrent commits

Any number of calls of `set_offset`. A call inserts under the write lock, and
then flushes under the read lock, which several calls may hold at once: it takes
a snapshot of the map, empties the file, and writes the text of the snapshot from
position 0.

Nobody inserts while a snapshot is on its way to the file, so the texts that
overlap are texts of one map and of one length. Behind the last insert comes a
flush of its own, and the file ends up with the map (`file_current`).
-/
open Lib Lib.Bytes Lib.Runs Lib.Mutex herbert.OffsetManager herbert.OffsetRecovery

namespace herbert.OffsetThreads

variable {ι : Type}

/-! ## The system -/

/-- Where a call is. -/
inductive Pc where
  | ready
  /-- The entry is in the map, and the write lock is free again. -/
  | inserted
  /-- Holds the read lock, with the text of the map. -/
  | snapshot (text : Bytes)
  /-- The file is opened and empty. -/
  | truncated (text : Bytes)
  | written
  | done
  | failed (e : HerbertError)

structure State (ι : Type) where
  offsets : HashMap (String × String) Int
  file : Option Bytes
  /-- The calls that hold the read lock. -/
  readers : Finset ι
  pc : ι → Pc
  inserted : List ((String × String) × Int)

/-- The calls. Each makes a `HashMap` of its own for `serde_json`, whose order is
its own as well. -/
structure Setup (ι : Type) where
  json : ι → OffsetJson
  key : ι → String × String
  offset : ι → Int64

def start (om : OffsetManager) : State ι := ⟨om.offsets, om.file, ∅, fun _ => .ready, []⟩

/-- The bytes of a file after `text` was written from position 0. -/
def overwrite (text old : Bytes) : Bytes := text ++ old.drop text.length

variable (setup : Setup ι) [DecidableEq ι]

/-- The next step of call `i`; `none` if it waits for the readers or is done. -/
def step (s : State ι) (i : ι) : Option (State ι) :=
  let go (pc : Pc) := Function.update s.pc i pc
  match s.pc i with
  | .ready =>
    if s.readers = ∅ then
      some { s with
        offsets := s.offsets.insert (setup.key i) (setup.offset i).toInt, pc := go .inserted,
        inserted := s.inserted ++ [(setup.key i, (setup.offset i).toInt)] }
    else none
  | .inserted =>
    match (setup.json i).to_string (flushed_map s.offsets) with
    | none => some { s with pc := go (.failed .Serialization) }
    | some text => some { s with readers := insert i s.readers, pc := go (.snapshot text) }
  | .snapshot text => some { s with file := some [], pc := go (.truncated text) }
  | .truncated text => some { s with file := some (overwrite text (s.file.getD [])), pc := go .written }
  | .written => some { s with readers := s.readers.erase i, pc := go .done }
  | .done => none
  | .failed _ => none

/-- A call that nobody interrupts does what `set_offset` does. -/
theorem solo_set_offset {s : State ι} {i : ι} (hi : s.pc i = .ready) (hr : s.readers = ∅) {text : Bytes}
    (ht : (setup.json i).to_string (flushed_map (s.offsets.insert (setup.key i) (setup.offset i).toInt)) = some text) :
    let om := (OffsetManager.set_offset (setup.json i) ⟨s.offsets, s.file⟩ (setup.key i).1 (setup.key i).2
      (setup.offset i).toInt).2
    exec (step setup) s [i, i, i, i, i] = some { s with
      offsets := om.offsets, file := om.file, pc := Function.update s.pc i .done,
      inserted := s.inserted ++ [(setup.key i, (setup.offset i).toInt)] } := by
  simp [exec, step, hi, hr, ht, set_offset, flush, overwrite]

/-! ## Invariants -/

/-- The calls that hold the read lock. -/
def holdsRead : Pc → Bool
  | .snapshot _ | .truncated _ | .written => true
  | _ => false

/-- The text a call has yet to write. -/
def snapshot? : Pc → Option Bytes
  | .snapshot text | .truncated text => some text
  | _ => none

def isTruncated : Pc → Bool
  | .truncated _ => true
  | _ => false

/-- The call has yet to empty the file. -/
def willTruncate : Pc → Bool
  | .inserted | .snapshot _ => true
  | _ => false

/-- The call has not touched the map. -/
def isReady : Pc → Bool
  | .ready => true
  | _ => false

/-- What the calls have yet to write are texts of the map. -/
def Snapshots (offsets : HashMap (String × String) Int) (pc : ι → Pc) : Prop :=
  ∀ i text, snapshot? (pc i) = some text → (setup.json i).to_string (flushed_map offsets) = some text

/-- The file holds a text of the map. -/
def Encodes (offsets : HashMap (String × String) Int) (file : Option Bytes) : Prop :=
  ∃ i, file.isSome ∧ (setup.json i).to_string (flushed_map offsets) = file

/-- The offset that was inserted last for the key. -/
def lastInsert (k : String × String) (inserted : List ((String × String) × Int)) : Option Int :=
  inserted.foldl (fun last e => if e.1 = k then some e.2 else last) none

/-- Every snapshot on its way is one of the map as it is. An emptied file is
overwritten as a whole. What is not in the file yet is on its way. -/
structure Inv (om : OffsetManager) (s : State ι) : Prop where
  readers : Shares s.readers holdsRead s.pc
  offsets : ∀ k, s.offsets.lookup k = (lastInsert k s.inserted).or (om.offsets.lookup k)
  snapshots : Snapshots setup s.offsets s.pc
  overwritten : Somewhere isTruncated s.pc → s.file = some [] ∨ Encodes setup s.offsets s.file
  current : Somewhere willTruncate s.pc ∨ (Somewhere isTruncated s.pc ∧ s.file = some []) ∨
    Encodes setup s.offsets s.file ∨ ∀ i, isReady (s.pc i) = true

/-- `serde_json` serializes every map. Entries in another order make a text of the
same length. -/
structure Lawful (json : ι → OffsetJson) : Prop where
  total : ∀ i m, ((json i).to_string m).isSome
  length : ∀ i j m a b, (json i).to_string m = some a → (json j).to_string m = some b → a.length = b.length

variable {setup} {om : OffsetManager} {s s' : State ι} {i : ι}

omit [DecidableEq ι] in
theorem inv_start (om : OffsetManager) : Inv setup om (start om) where
  readers i := by simp [start, holdsRead]
  offsets k := by simp [start, lastInsert]
  snapshots i text h := by cases h
  overwritten h := by
    obtain ⟨i, hi⟩ := h
    cases hi
  current := .inr (.inr (.inr fun _ => rfl))

theorem Snapshots.update {offsets : HashMap (String × String) Int} {pc : ι → Pc} (h : Snapshots setup offsets pc) {p : Pc}
    (hp : ∀ text, snapshot? p = some text → (setup.json i).to_string (flushed_map offsets) = some text) :
    Snapshots setup offsets (Function.update pc i p) :=
  (Function.forall_update_iff pc fun j p => ∀ text, snapshot? p = some text →
    (setup.json j).to_string (flushed_map offsets) = some text).2 ⟨hp, fun j _ => h j⟩

omit [DecidableEq ι] in
/-- What is overwritten is nothing, or a text of the same length. -/
theorem overwrite_eq (hl : Lawful setup.json) (h : Inv setup om s) {text : Bytes} (hi : s.pc i = .truncated text) :
    overwrite text (s.file.getD []) = text := by
  have htext := h.snapshots i text (by rw [hi]; rfl)
  rcases h.overwritten ⟨i, by rw [hi]; rfl⟩ with hnil | ⟨j, -, hj⟩
  · simp [overwrite, hnil]
  · obtain ⟨old, hold⟩ := Option.isSome_iff_exists.1 (hl.total j (flushed_map s.offsets))
    rw [hold] at hj
    rw [← hj, overwrite, Option.getD_some, hl.length i j _ _ _ htext hold, List.drop_length, List.append_nil]

omit [DecidableEq ι] in
/-- With no reader there is no snapshot of the map, and no file being written. -/
theorem Inv.quiet (h : Inv setup om s) (hfree : s.readers = ∅) (j : ι) :
    snapshot? (s.pc j) = none ∧ isTruncated (s.pc j) = false := by
  have hout : holdsRead (s.pc j) = false := (hfree ▸ h.readers).outside j
  cases hpc : s.pc j <;> rw [hpc] at hout <;> simp [snapshot?, isTruncated, holdsRead] at hout ⊢

theorem inv_step (hl : Lawful setup.json) (h : Inv setup om s) (hs : step setup s i = some s') : Inv setup om s' := by
  unfold step at hs
  cases hi : s.pc i with
  | ready =>
    simp only [hi, Option.ite_none_right_eq_some, Option.some.injEq] at hs
    obtain ⟨hfree, rfl⟩ := hs
    refine ⟨h.readers.keep (by rw [hi]; rfl), ?_, ?_, ?_, .inl (somewhere_here rfl)⟩
    · intro k
      simp only [lastInsert, List.foldl_append, List.foldl_cons, List.foldl_nil]
      by_cases hk : setup.key i = k
      · subst hk
        rw [AList.lookup_insert, if_pos rfl, Option.some_or]
      · rw [AList.lookup_insert_ne (Ne.symm hk), if_neg hk]
        exact h.offsets k
    · refine Snapshots.update (fun j text hj => ?_) (by simp [snapshot?])
      rw [(h.quiet hfree j).1] at hj
      cases hj
    · intro ht
      obtain ⟨j, hj⟩ : Somewhere isTruncated s.pc := ht.before rfl
      rw [(h.quiet hfree j).2] at hj
      cases hj
  | inserted =>
    obtain ⟨text, htext⟩ := Option.isSome_iff_exists.1 (hl.total i (flushed_map s.offsets))
    simp only [hi, htext, Option.some.injEq] at hs
    subst hs
    refine ⟨h.readers.enter rfl, h.offsets, h.snapshots.update ?_, fun ht => h.overwritten (ht.before rfl),
      .inl (somewhere_here rfl)⟩
    rintro _ ⟨⟩
    exact htext
  | snapshot text =>
    simp only [hi, Option.some.injEq] at hs
    subst hs
    refine ⟨h.readers.keep (by rw [hi]; rfl), h.offsets, h.snapshots.update ?_, fun _ => .inl rfl,
      .inr (.inl ⟨somewhere_here rfl, rfl⟩)⟩
    rintro _ ⟨⟩
    exact h.snapshots i text (by rw [hi]; rfl)
  | truncated text =>
    simp only [hi, Option.some.injEq] at hs
    subst hs
    have htext := h.snapshots i text (by rw [hi]; rfl)
    have hfile : Encodes setup s.offsets (some (overwrite text (s.file.getD []))) :=
      ⟨i, rfl, by rw [overwrite_eq hl h hi, htext]⟩
    exact ⟨h.readers.keep (by rw [hi]; rfl), h.offsets, h.snapshots.update (by simp [snapshot?]), fun _ => .inr hfile,
      .inr (.inr (.inl hfile))⟩
  | written =>
    simp only [hi, Option.some.injEq] at hs
    subst hs
    refine ⟨h.readers.leave rfl, h.offsets, h.snapshots.update (by simp [snapshot?]),
      fun ht => h.overwritten (ht.before rfl), ?_⟩
    rcases h.current with hw | ⟨ht, hnil⟩ | hfile | hready
    · exact .inl (hw.after (by rw [hi]; rfl))
    · exact .inr (.inl ⟨ht.after (by rw [hi]; rfl), hnil⟩)
    · exact .inr (.inr (.inl hfile))
    · have := hready i
      rw [hi] at this
      cases this
  | done => simp [hi] at hs
  | failed e => simp [hi] at hs

/-- The map holds what was inserted last for each key, and whenever no call is in
progress and some call has returned, the file holds the map. -/
theorem file_current (hl : Lawful setup.json) {tr} (hr : Run (step setup) (start om) tr s) :
    (∀ k, s.offsets.lookup k = (lastInsert k s.inserted).or (om.offsets.lookup k)) ∧
    ((∀ i, s.pc i = .ready ∨ s.pc i = .done) → (∃ i, s.pc i = .done) →
      ∃ i text, (setup.json i).to_string (flushed_map s.offsets) = some text ∧ s.file = some text) := by
  have h := hr.inv (Inv setup om) (inv_start om) fun _ _ _ => inv_step hl
  refine ⟨h.offsets, ?_⟩
  rintro hidle ⟨j, hj⟩
  have hnone : ∀ f : Pc → Bool, f .ready = false → f .done = false → ¬ Somewhere f s.pc := by
    rintro f hready hdone ⟨i, hi⟩
    rcases hidle i with h' | h' <;> rw [h'] at hi
    · rw [hready] at hi
      cases hi
    · rw [hdone] at hi
      cases hi
  rcases h.current with hw | ⟨ht, -⟩ | ⟨i, hsome, hfile⟩ | hready
  · exact absurd hw (hnone _ rfl rfl)
  · exact absurd ht (hnone _ rfl rfl)
  · obtain ⟨text, htext⟩ := Option.isSome_iff_exists.1 hsome
    exact ⟨i, text, by rw [hfile, htext], htext⟩
  · have := hready j
    rw [hj] at this
    cases this

/-- Two calls that both hold the read lock; one empties the file behind the other's
write. -/
theorem file_current_two :
    let setup : Setup Bool :=
      ⟨fun _ => flatJson.toOffsetJson, fun b => (if b then "g" else "h", "t"), fun b => if b then 1 else 2⟩
    ∃ s, exec (step setup) (start new) [true, false, true, false, true, true, false, false, true, false] = some s ∧
      s.offsets.lookup ("g", "t") = some 1 ∧
      ∃ text, flatJson.to_string (flushed_map s.offsets) = some text ∧ s.file = some text := by
  intro setup
  have hl : Lawful setup.json := by
    refine ⟨fun _ _ => rfl, fun _ _ m a b ha hb => ?_⟩
    rw [ha] at hb
    rw [Option.some.inj hb]
  obtain ⟨s, hs⟩ := Option.isSome_iff_exists.1
    (show (exec (step setup) (start new)
      [true, false, true, false, true, true, false, false, true, false]).isSome by decide)
  have hsee : (exec (step setup) (start new) [true, false, true, false, true, true, false, false, true, false]).map
      (fun s => (lastInsert ("g", "t") s.inserted)) = some (some 1) := by decide
  have hdone : ∀ b, (exec (step setup) (start new) [true, false, true, false, true, true, false, false, true, false]).map
      (fun s => s.pc b) = some .done := by
    intro b
    cases b <;> rfl
  simp only [hs, Option.map_some, Option.some.injEq] at hsee hdone
  obtain ⟨tr, hr, -⟩ := Run.nil.exec hs
  obtain ⟨hmap, hfile⟩ := file_current hl hr
  obtain ⟨i, text, htext, hs'⟩ := hfile (fun b => .inr (hdone b)) ⟨true, hdone true⟩
  refine ⟨s, hs, ?_, text, htext, hs'⟩
  rw [hmap, hsee, Option.some_or]

end herbert.OffsetThreads
