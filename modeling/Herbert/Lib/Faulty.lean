import Herbert.Lib.BufWriter
/-!
# Writes that fail or fall short

A file that is offered bytes takes some of them, at least one, or fails. What it
will do is part of its state: `answers` are its answers to the next writes, and
to all later ones it takes everything. The buffered writer on it repeats a
flush until all is written or a write fails, but it passes large pieces on in
one write, with the file's answer.

No call loses a pending byte: `moved_flush` and `write_error` say where they
are. On pieces that the file takes whole this is `Lib.BufWriter`
(`write_steady`).
-/

namespace Lib.Faulty

variable {ε α : Type}

/-- `took n` is `n + 1` bytes, or all if there are fewer. A write that was
interrupted counts as failed where the writer does not repeat it. -/
inductive Answer (ε : Type) where
  | took (n : Nat)
  | failed (e : ε)
deriving DecidableEq, Repr

structure File (ε α : Type) where
  bytes : List α
  answers : List (Answer ε)
deriving DecidableEq, Repr

def File.write (file : File ε α) (bytes : List α) : Except ε Nat × File ε α :=
  match file.answers with
  | [] => (.ok bytes.length, { file with bytes := file.bytes ++ bytes })
  | .took n :: answers => (.ok (min (n + 1) bytes.length), ⟨file.bytes ++ bytes.take (n + 1), answers⟩)
  | .failed e :: answers => (.error e, { file with answers })

structure BufWriter (ε α : Type) where
  inner : File ε α
  buf : List α
  capacity : Nat
deriving DecidableEq, Repr

/-- The loop of a flush, on the file's answers: the result, what is still
pending, and the file. -/
def flush_buf (bytes : List α) : List α → List (Answer ε) → Except ε Unit × List α × File ε α
  | [], answers => (.ok (), [], ⟨bytes, answers⟩)
  | b :: buf, [] => (.ok (), [], ⟨bytes ++ b :: buf, []⟩)
  | b :: buf, .took n :: answers => flush_buf (bytes ++ (b :: buf).take (n + 1)) (buf.drop n) answers
  | b :: buf, .failed e :: answers => (.error e, b :: buf, ⟨bytes, answers⟩)

theorem flush_buf_moved (bytes buf : List α) (answers : List (Answer ε)) :
    ∃ k, (flush_buf bytes buf answers).2.2.bytes = bytes ++ buf.take k ∧
      (flush_buf bytes buf answers).2.1 = buf.drop k ∧
      ((flush_buf bytes buf answers).1 = .ok () → (flush_buf bytes buf answers).2.1 = []) := by
  induction bytes, buf, answers using flush_buf.induct with
  | case1 bytes answers => exact ⟨0, by simp [flush_buf]⟩
  | case2 bytes b buf => exact ⟨(b :: buf).length, by simp [flush_buf]⟩
  | case3 bytes b buf n answers ih =>
    obtain ⟨k, hbytes, hbuf, hok⟩ := ih
    rw [flush_buf]
    refine ⟨n + 1 + k, ?_, ?_, hok⟩
    · rw [hbytes, List.append_assoc, List.take_add (i := n + 1), List.drop_succ_cons]
    · rw [hbuf, ← List.drop_drop, List.drop_succ_cons]
  | case4 bytes b buf e answers => exact ⟨0, by simp [flush_buf]⟩

namespace File

/-- A `write_all` goes on until all is written, or a write fails. -/
def write_all (file : File ε α) (bytes : List α) : Except ε Unit × File ε α :=
  let (result, _, file) := flush_buf file.bytes bytes file.answers
  (result, file)

theorem write_all_takes (file : File ε α) (bytes : List α) :
    (∃ k, (file.write_all bytes).2.bytes = file.bytes ++ bytes.take k) ∧
      ((file.write_all bytes).1 = .ok () → (file.write_all bytes).2.bytes = file.bytes ++ bytes) := by
  obtain ⟨k, hbytes, hbuf, hok⟩ := flush_buf_moved file.bytes bytes file.answers
  refine ⟨⟨k, hbytes⟩, fun h => ?_⟩
  have hall := List.take_append_drop k bytes
  rw [← hbuf, hok h, List.append_nil] at hall
  rw [hall] at hbytes
  exact hbytes

/-- A write appends a start of the bytes. -/
theorem write_takes (file : File ε α) (bytes : List α) :
    ∃ k, (file.write bytes).2.bytes = file.bytes ++ bytes.take k := by
  unfold File.write
  split
  · exact ⟨bytes.length, by rw [List.take_length]⟩
  · exact ⟨_, rfl⟩
  · exact ⟨0, by simp⟩

end File

namespace BufWriter

def flush (w : BufWriter ε α) : Except ε Unit × BufWriter ε α :=
  let (result, buf, inner) := flush_buf w.inner.bytes w.buf w.inner.answers
  (result, { w with inner, buf })

def spare_capacity (w : BufWriter ε α) : Nat := w.capacity - w.buf.length

/-- What is pending goes first if the bytes do not fit behind it. -/
def make_room (w : BufWriter ε α) (bytes : List α) : Except ε Unit × BufWriter ε α :=
  if bytes.length > w.spare_capacity then w.flush else (.ok (), w)

def write_cold (w : BufWriter ε α) (bytes : List α) : Except ε Nat × BufWriter ε α :=
  match w.make_room bytes with
  | (.error e, w) => (.error e, w)
  | (.ok (), w) =>
    if bytes.length ≥ w.capacity then
      let (result, inner) := w.inner.write bytes
      (result, { w with inner })
    else (.ok bytes.length, { w with buf := w.buf ++ bytes })

/-- How many of the bytes were taken. -/
def write (w : BufWriter ε α) (bytes : List α) : Except ε Nat × BufWriter ε α :=
  if bytes.length < w.spare_capacity then (.ok bytes.length, { w with buf := w.buf ++ bytes }) else w.write_cold bytes

/-- The file's bytes followed by the pending ones. -/
def contents (w : BufWriter ε α) : List α := w.inner.bytes ++ w.buf

/-! ## Pending bytes -/

/-- `w'` is `w` after the first `k` pending bytes went to the file. -/
def Moved (w : BufWriter ε α) (k : Nat) (w' : BufWriter ε α) : Prop :=
  w'.inner.bytes = w.inner.bytes ++ w.buf.take k ∧ w'.buf = w.buf.drop k ∧ w'.capacity = w.capacity

theorem Moved.contents {w w' : BufWriter ε α} {k : Nat} (h : w.Moved k w') : w'.contents = w.contents := by
  rw [BufWriter.contents, h.1, h.2.1, List.append_assoc, List.take_append_drop, BufWriter.contents]

theorem moved_flush (w : BufWriter ε α) :
    ∃ k, w.Moved k w.flush.2 ∧ (w.flush.1 = .ok () → w.flush.2.buf = []) := by
  obtain ⟨k, hbytes, hbuf, hok⟩ := flush_buf_moved w.inner.bytes w.buf w.inner.answers
  exact ⟨k, ⟨hbytes, hbuf, rfl⟩, hok⟩

@[simp] theorem contents_flush (w : BufWriter ε α) : w.flush.2.contents = w.contents := by
  obtain ⟨k, h, -⟩ := moved_flush w
  exact h.contents

/-- The first `n` bytes, which is all of them unless the file's answer is less. -/
theorem file_write_ok {file : File ε α} {bytes : List α} {n : Nat} (h : (file.write bytes).1 = .ok n) :
    n ≤ bytes.length ∧ (file.write bytes).2.bytes = file.bytes ++ bytes.take n ∧
      (n < bytes.length ↔ ∃ m answers, file.answers = .took m :: answers ∧ m + 1 < bytes.length) := by
  unfold File.write at h ⊢
  split at h
  · rename_i hans
    cases h
    simp [hans]
  · rename_i m answers hans
    cases h
    refine ⟨Nat.min_le_right _ _, ?_, ?_⟩
    · rw [List.take_eq_take_min, Nat.min_comm]
    · simp only [hans, List.cons.injEq, Answer.took.injEq]
      refine ⟨fun hlt => ⟨m, answers, ⟨rfl, rfl⟩, by omega⟩, ?_⟩
      rintro ⟨m', answers', ⟨rfl, rfl⟩, hlt⟩
      omega
  · cases h

theorem file_write_error {file : File ε α} {bytes : List α} {e : ε} (h : (file.write bytes).1 = .error e) :
    (file.write bytes).2.bytes = file.bytes := by
  unfold File.write at h ⊢
  split at h
  · cases h
  · cases h
  · rfl

theorem flush_nil {w : BufWriter ε α} (h : w.buf = []) : w.flush = (.ok (), w) := by
  obtain ⟨⟨bytes, answers⟩, buf, capacity⟩ := w
  cases h
  simp [flush, flush_buf]

theorem moved_refl (w : BufWriter ε α) : w.Moved 0 w := ⟨by simp, by simp, rfl⟩

theorem moved_make_room (w : BufWriter ε α) (bytes : List α) : ∃ k, w.Moved k (w.make_room bytes).2 := by
  unfold make_room
  split
  · obtain ⟨k, h, -⟩ := moved_flush w
    exact ⟨k, h⟩
  · exact ⟨0, moved_refl w⟩

/-- Bytes that are not buffered find nothing pending before them. -/
theorem make_room_flush {w : BufWriter ε α} {bytes : List α} (hcold : ¬ bytes.length < w.spare_capacity)
    (hbig : w.capacity ≤ bytes.length) (hne : bytes ≠ []) : w.make_room bytes = w.flush := by
  unfold make_room
  split
  · rfl
  · rename_i hfit
    have hpos := List.length_pos_iff.2 hne
    unfold spare_capacity at hcold hfit
    exact (flush_nil (List.length_eq_zero_iff.1 (by omega))).symm

/-! ## One write -/

/-- The bytes go straight to the file once it has the pending ones, and it takes
only a part of them. -/
def Short (w : BufWriter ε α) (bytes : List α) : Prop :=
  w.capacity ≤ bytes.length ∧ w.flush.1 = .ok () ∧
    ∃ n answers, w.flush.2.inner.answers = .took n :: answers ∧ n + 1 < bytes.length

/-- A write that fails moves pending bytes at most. -/
theorem write_error {w w' : BufWriter ε α} {bytes : List α} {e : ε} (h : w.write bytes = (.error e, w')) :
    ∃ k, w.Moved k w' := by
  unfold write at h
  split at h
  · cases h
  obtain ⟨k, hk⟩ := moved_make_room w bytes
  unfold write_cold at h
  split at h
  · rename_i e' w₁ hroom
    rw [hroom] at hk
    cases h
    exact ⟨k, hk⟩
  · rename_i w₁ hroom
    rw [hroom] at hk
    split at h
    · rw [Prod.mk.injEq] at h
      obtain ⟨herr, rfl⟩ := h
      refine ⟨k, ?_, hk.2⟩
      rw [file_write_error herr, hk.1]
    · cases h

/-- A write that succeeds takes the first `n` bytes, and all of them unless it
is short. -/
theorem write_ok {w w' : BufWriter ε α} {bytes : List α} {n : Nat} (h : w.write bytes = (.ok n, w')) :
    n ≤ bytes.length ∧ w'.contents = w.contents ++ bytes.take n ∧ w'.capacity = w.capacity ∧
      (n < bytes.length ↔ w.Short bytes) := by
  unfold write at h
  split at h
  · rename_i hfit
    cases h
    have hnot : ¬ w.Short bytes := fun hs => by
      have := hs.1
      unfold spare_capacity at hfit
      omega
    simp [contents, hnot]
  rename_i hcold
  obtain ⟨k, hk⟩ := moved_make_room w bytes
  unfold write_cold at h
  split at h
  · cases h
  rename_i w₁ hroom
  rw [hroom] at hk
  have hcontents : w₁.contents = w.contents := hk.contents
  have hcap : w₁.capacity = w.capacity := hk.2.2
  split at h
  · rename_i hbig
    rw [Prod.mk.injEq] at h
    obtain ⟨hok, rfl⟩ := h
    obtain ⟨hn, hbytes, hshort⟩ := file_write_ok hok
    by_cases hne : bytes = []
    · subst hne
      obtain rfl : n = 0 := by simpa using hn
      rw [← hcontents]
      simp [contents, hbytes, hcap, Short]
    · -- the pending bytes are in the file, and the piece goes behind them
      rw [hcap] at hbig
      have hflush := make_room_flush hcold hbig hne
      rw [hroom] at hflush
      obtain ⟨-, -, hempty⟩ := moved_flush w
      rw [← hflush] at hempty
      have hbuf : w₁.buf = [] := hempty rfl
      refine ⟨hn, ?_, hcap, ?_⟩
      · rw [← hcontents]
        simp [contents, hbytes, hbuf]
      · rw [hshort, Short, ← hflush]
        simp [hbig]
  · rename_i hsmall
    cases h
    have hnot : ¬ w.Short bytes := fun hs => by
      have := hs.1
      omega
    rw [← hcontents]
    simp [contents, hnot, hcap]

/-- A piece as long as the buffer goes straight to the file if nothing is pending. -/
theorem write_large {w : BufWriter ε α} (hbuf : w.buf = []) {bytes : List α} (hbig : w.capacity ≤ bytes.length) :
    w.write bytes = ((w.inner.write bytes).1, { w with inner := (w.inner.write bytes).2 }) := by
  have hroom : w.make_room bytes = (.ok (), w) := by
    unfold make_room
    split
    · exact flush_nil hbuf
    · rfl
  have hcold : ¬ bytes.length < w.spare_capacity := by
    unfold spare_capacity
    omega
  rw [write, if_neg hcold, write_cold, hroom]
  exact if_pos hbig

/-! ## Writes that fail at once -/

/-- The bytes are not buffered, and the file fails the first write it is offered. -/
def FailsAtOnce (w : BufWriter ε α) (bytes : List α) : Prop :=
  (w.spare_capacity < bytes.length ∨ w.capacity ≤ bytes.length) ∧ ∃ e answers, w.inner.answers = .failed e :: answers

theorem flush_fails {w : BufWriter ε α} (hbuf : w.buf ≠ []) {e : ε} {answers : List (Answer ε)}
    (h : w.inner.answers = .failed e :: answers) : w.flush = (.error e, { w with inner := ⟨w.inner.bytes, answers⟩ }) := by
  obtain ⟨⟨bytes, _⟩, buf, capacity⟩ := w
  cases h
  cases buf with
  | nil => exact absurd rfl hbuf
  | cons b buf => rfl

theorem file_write_fails {file : File ε α} {e : ε} {answers : List (Answer ε)} (h : file.answers = .failed e :: answers)
    (bytes : List α) : file.write bytes = (.error e, { file with answers }) := by
  simp only [File.write, h]

/-- Such a write writes nothing. -/
theorem FailsAtOnce.write {w : BufWriter ε α} {bytes : List α} (h : w.FailsAtOnce bytes) :
    ∃ e answers, w.write bytes = (.error e, { w with inner := ⟨w.inner.bytes, answers⟩ }) := by
  obtain ⟨hlen, e, answers, hans⟩ := h
  refine ⟨e, answers, ?_⟩
  have hcold : ¬ bytes.length < w.spare_capacity := by
    unfold spare_capacity at hlen ⊢
    omega
  rw [BufWriter.write, if_neg hcold, write_cold]
  by_cases hbuf : w.buf = [] ∨ ¬ bytes.length > w.spare_capacity
  · have hroom : w.make_room bytes = (.ok (), w) := by
      unfold make_room
      split
      · rename_i hbig
        exact flush_nil (hbuf.resolve_right (not_not_intro hbig))
      · rfl
    have hbig : bytes.length ≥ w.capacity := by
      rcases hbuf with hbuf | hfit
      · rw [spare_capacity, hbuf, List.length_nil] at hlen
        omega
      · exact hlen.resolve_left hfit
    rw [hroom]
    dsimp only
    rw [if_pos hbig, file_write_fails hans]
  · rw [not_or, not_not] at hbuf
    rw [make_room, if_pos hbuf.2, flush_fails hbuf.1 hans]

/-- A flush that fails without writing anything fails at the first write. -/
theorem flush_unmoved {w : BufWriter ε α} {e : ε} (h : w.flush.1 = .error e)
    (hbytes : w.flush.2.inner.bytes = w.inner.bytes) : ∃ e answers, w.inner.answers = .failed e :: answers := by
  obtain ⟨⟨bytes, answers⟩, buf, capacity⟩ := w
  match buf, answers with
  | [], answers => simp [flush, flush_buf] at h
  | b :: buf, [] => simp [flush, flush_buf] at h
  | b :: buf, .failed e :: answers => exact ⟨e, answers, rfl⟩
  | b :: buf, .took n :: answers =>
    obtain ⟨k, hmoved, -⟩ := flush_buf_moved (bytes ++ (b :: buf).take (n + 1)) (buf.drop n) answers
    have hlen := congrArg List.length (hmoved.symm.trans hbytes)
    simp only [List.length_append, List.length_take, List.length_cons] at hlen
    omega

theorem file_write_unmoved {file : File ε α} {bytes : List α} {e : ε} (h : (file.write bytes).1 = .error e) :
    ∃ e answers, file.answers = .failed e :: answers := by
  unfold File.write at h
  split at h
  · cases h
  · cases h
  · rename_i hans
    exact ⟨_, _, hans⟩

/-- A write that fails without writing anything is one that fails at once. -/
theorem failsAtOnce_of_unmoved {w : BufWriter ε α} {bytes : List α} {e : ε} (h : (w.write bytes).1 = .error e)
    (hbytes : (w.write bytes).2.inner.bytes = w.inner.bytes) : w.FailsAtOnce bytes := by
  unfold BufWriter.write at h hbytes
  split at h
  · cases h
  rename_i hcold
  rw [if_neg hcold] at hbytes
  unfold write_cold make_room at h hbytes
  by_cases hbig : bytes.length > w.spare_capacity
  · rw [if_pos hbig] at h hbytes
    refine ⟨.inl hbig, ?_⟩
    cases hf : w.flush.1 with
    | error e' =>
      rw [show w.flush = (.error e', w.flush.2) from Prod.ext hf rfl] at hbytes
      exact flush_unmoved hf hbytes
    | ok u =>
      rw [show w.flush = (.ok (), w.flush.2) from Prod.ext hf rfl] at h hbytes
      dsimp only at h hbytes
      split at h
      · rename_i hlarge
        rw [if_pos hlarge] at hbytes
        -- nothing was pending
        obtain ⟨k, ⟨hmoved, hbuf, -⟩, hempty⟩ := moved_flush w
        have hall : w.buf.take k = w.buf := by
          have := List.take_append_drop k w.buf
          rwa [← hbuf, hempty hf, List.append_nil] at this
        have hnil : w.buf = [] := by
          have hsame := (file_write_error h).symm.trans hbytes
          rw [hmoved, hall] at hsame
          exact List.append_right_eq_self.1 hsame
        rw [flush_nil hnil] at h
        exact file_write_unmoved h
      · cases h
  · rw [if_neg hbig] at h
    dsimp only at h
    split at h
    · rename_i hlarge
      exact ⟨.inr hlarge, file_write_unmoved h⟩
    · cases h

/-- A short write is one that succeeds. -/
theorem Short.write {w : BufWriter ε α} {bytes : List α} (h : w.Short bytes) : ∃ n, (w.write bytes).1 = .ok n := by
  obtain ⟨hbig, hok, m, answers, hans, hlt⟩ := h
  have hcold : ¬ bytes.length < w.spare_capacity := by
    unfold spare_capacity
    omega
  have hne : bytes ≠ [] := by
    rintro rfl
    simp at hlt
  obtain ⟨k, hk, -⟩ := moved_flush w
  have hflush : w.flush = (.ok (), w.flush.2) := Prod.ext hok rfl
  refine ⟨min (m + 1) bytes.length, ?_⟩
  rw [BufWriter.write, if_neg hcold, write_cold, make_room_flush hcold hbig hne, hflush]
  dsimp only
  rw [if_pos (show bytes.length ≥ w.flush.2.capacity from hk.2.2 ▸ hbig), File.write, hans]

/-! ## Files that do not fail -/

/-- No write fails. It may take a part of its bytes. -/
def Works (w : BufWriter ε α) : Prop := ∀ a ∈ w.inner.answers, ∃ n, a = .took n

theorem flush_buf_works (bytes buf : List α) {answers : List (Answer ε)} (h : ∀ a ∈ answers, ∃ n, a = .took n) :
    (flush_buf bytes buf answers).1 = .ok () ∧ (flush_buf bytes buf answers).2.2.answers <:+ answers := by
  induction bytes, buf, answers using flush_buf.induct with
  | case1 bytes answers =>
    rw [flush_buf]
    exact ⟨rfl, List.suffix_refl _⟩
  | case2 bytes b buf => exact ⟨rfl, List.suffix_refl _⟩
  | case3 bytes b buf n answers ih =>
    obtain ⟨hok, hans⟩ := ih fun a ha => h a (List.mem_cons_of_mem _ ha)
    rw [flush_buf]
    exact ⟨hok, hans.trans (List.suffix_cons _ _)⟩
  | case4 bytes b buf e answers =>
    obtain ⟨n, hn⟩ := h _ List.mem_cons_self
    cases hn

theorem flush_works {w : BufWriter ε α} (h : w.Works) : w.flush.1 = .ok () ∧ w.flush.2.Works := by
  obtain ⟨hok, hans⟩ := flush_buf_works w.inner.bytes w.buf h
  exact ⟨hok, fun a ha => h a (hans.subset ha)⟩

theorem file_write_works {w : BufWriter ε α} (h : w.Works) (bytes : List α) :
    ∃ n, (w.inner.write bytes).1 = .ok n ∧ (w.inner.write bytes).2.answers <:+ w.inner.answers := by
  unfold File.write
  split
  · exact ⟨_, rfl, List.suffix_refl _⟩
  · rename_i hans
    exact ⟨_, rfl, hans ▸ List.suffix_cons _ _⟩
  · rename_i hans
    obtain ⟨n, hn⟩ := h _ (hans ▸ List.mem_cons_self)
    cases hn

theorem write_works {w : BufWriter ε α} (h : w.Works) (bytes : List α) :
    ∃ n, (w.write bytes).1 = .ok n ∧ (w.write bytes).2.Works := by
  unfold write
  split
  · exact ⟨_, rfl, h⟩
  have hroom : (w.make_room bytes).1 = .ok () ∧ (w.make_room bytes).2.Works := by
    unfold make_room
    split
    · exact flush_works h
    · exact ⟨rfl, h⟩
  rw [write_cold, show w.make_room bytes = (.ok (), (w.make_room bytes).2) from Prod.ext hroom.1 rfl]
  dsimp only
  split
  · obtain ⟨n, hn, hans⟩ := file_write_works hroom.2 bytes
    exact ⟨n, hn, fun a ha => hroom.2 a (hans.subset ha)⟩
  · exact ⟨_, rfl, hroom.2⟩

/-! ## Files that take each piece whole -/

/-- The writer on a file that takes all it is given. -/
def settled (w : BufWriter ε α) : Lib.BufWriter α := ⟨w.inner.bytes, w.buf, w.capacity⟩

/-- The next writes take `limit` bytes, or all if there are fewer. -/
def Steady (limit : Nat) (w : BufWriter ε α) : Prop := ∀ a ∈ w.inner.answers, ∃ n, a = .took n ∧ limit ≤ n + 1

variable {limit : Nat}

theorem Steady.of_suffix {w w' : BufWriter ε α} (h : w.Steady limit) (hs : w'.inner.answers <:+ w.inner.answers) :
    w'.Steady limit := fun a ha => h a (hs.subset ha)

theorem steady_of_nil {w : BufWriter ε α} (h : w.inner.answers = []) : w.Steady limit := by
  rw [Steady, h]
  simp

theorem flush_steady {w : BufWriter ε α} (h : w.Steady limit) (hbuf : w.buf.length ≤ limit) :
    w.flush.1 = .ok () ∧ w.flush.2.settled = w.settled.flush ∧ w.flush.2.inner.answers <:+ w.inner.answers := by
  obtain ⟨⟨bytes, answers⟩, buf, capacity⟩ := w
  match buf, answers with
  | [], answers => simp [flush, flush_buf, settled, Lib.BufWriter.flush]
  | b :: buf, [] => simp [flush, flush_buf, settled, Lib.BufWriter.flush]
  | b :: buf, a :: answers =>
    obtain ⟨n, rfl, hn⟩ := h a List.mem_cons_self
    -- one write is enough
    have hlen : buf.length ≤ n := by
      rw [List.length_cons] at hbuf
      omega
    simp [flush, flush_buf, settled, Lib.BufWriter.flush, List.drop_of_length_le hlen, List.take_of_length_le hlen]

theorem make_room_steady {w : BufWriter ε α} (h : w.Steady limit) (hbuf : w.buf.length ≤ limit) (bytes : List α) :
    ∃ w', w.make_room bytes = (.ok (), w') ∧ w'.inner.answers <:+ w.inner.answers ∧
      w'.settled = if bytes.length > w.settled.spare_capacity then w.settled.flush else w.settled := by
  unfold make_room
  split
  · rename_i hbig
    obtain ⟨hok, hw, hans⟩ := flush_steady h hbuf
    exact ⟨_, Prod.ext hok rfl, hans, by rw [hw, if_pos (show bytes.length > w.settled.spare_capacity from hbig)]⟩
  · rename_i hfit
    exact ⟨w, rfl, List.suffix_refl _, (if_neg hfit).symm⟩

theorem file_write_steady {w : BufWriter ε α} (h : w.Steady limit) {bytes : List α} (hbytes : bytes.length ≤ limit) :
    (w.inner.write bytes).1 = .ok bytes.length ∧ (w.inner.write bytes).2.bytes = w.inner.bytes ++ bytes ∧
      (w.inner.write bytes).2.answers <:+ w.inner.answers := by
  obtain ⟨⟨file, answers⟩, buf, capacity⟩ := w
  cases answers with
  | nil => simp [File.write]
  | cons a answers =>
    obtain ⟨n, rfl, hn⟩ := h a List.mem_cons_self
    have hlen : bytes.length ≤ n + 1 := by omega
    simp [File.write, List.take_of_length_le hlen, Nat.min_eq_right hlen]

/-- Pieces up to the limit are written as on a file that takes all it is given. -/
theorem write_steady {w : BufWriter ε α} (h : w.Steady limit) (hbuf : w.buf.length ≤ limit) {bytes : List α}
    (hbytes : bytes.length ≤ limit) :
    (w.write bytes).1 = .ok bytes.length ∧ (w.write bytes).2.settled = w.settled.write bytes ∧
      (w.write bytes).2.inner.answers <:+ w.inner.answers := by
  unfold write Lib.BufWriter.write
  by_cases hfit : bytes.length < w.spare_capacity
  · rw [if_pos hfit, if_pos (show bytes.length < w.settled.spare_capacity from hfit)]
    exact ⟨rfl, rfl, List.suffix_refl _⟩
  · rw [if_neg hfit, if_neg (show ¬ bytes.length < w.settled.spare_capacity from hfit)]
    obtain ⟨w', hroom, hans, hset⟩ := make_room_steady h hbuf bytes
    rw [write_cold, hroom, Lib.BufWriter.write_cold, ← hset]
    dsimp only
    by_cases hbig : bytes.length ≥ w'.capacity
    · rw [if_pos hbig, if_pos (show bytes.length ≥ w'.settled.capacity from hbig)]
      obtain ⟨hok, hfile, hans'⟩ := file_write_steady (h.of_suffix hans) hbytes
      exact ⟨hok, by simp [settled, hfile], hans'.trans hans⟩
    · rw [if_neg hbig, if_neg (show ¬ bytes.length ≥ w'.settled.capacity from hbig)]
      exact ⟨rfl, rfl, hans⟩

end BufWriter
end Lib.Faulty
