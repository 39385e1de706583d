import Mathlib.Order.Lattice
import Mathlib.Logic.Function.Basic
import Herbert.Lib.Runs
/-!
# A shared cursor

Readers share a cursor into a sequence. A reader asks where the cursor stands, is
told, reads some items from there on, and some time later its write moves the
cursor to the position behind them. Nothing is locked in between: readers overlap,
writes come late and overtake each other, and the cursor can go back.

Still every position below the cursor was read (`covered_cursor`). What one may
lose is that it was read once: that needs readers who come one after another and
are told the cursor only while no write is pending (`disjoint`).
-/
open Lib.Runs

namespace Lib.Cursor

variable {ι : Type}

/-- Where a reader is. A pending write is one the cursor has not seen. -/
inductive Reader where
  | idle
  | asked
  | holds (start : Int)
  | read (start : Int) (count : Nat) (pending : Bool)
deriving DecidableEq

structure State (ι : Type) where
  cursor : Int
  reader : ι → Reader

def start : State ι := ⟨0, fun _ => .idle⟩

inductive Label (ι : Type) where
  | ask (i : ι)
  | tell (i : ι)
  | read (i : ι) (count : Nat)
  | write (i : ι)

section
variable [DecidableEq ι]

def step (s : State ι) : Label ι → Option (State ι)
  | .ask i =>
    match s.reader i with
    | .idle => some { s with reader := Function.update s.reader i .asked }
    | _ => none
  | .tell i =>
    match s.reader i with
    | .asked => some { s with reader := Function.update s.reader i (.holds s.cursor) }
    | _ => none
  | .read i count =>
    match s.reader i with
    -- what read nothing has nothing to write
    | .holds start => some { s with reader := Function.update s.reader i (.read start count (0 < count)) }
    | _ => none
  | .write i =>
    match s.reader i with
    | .read start count true => some ⟨start + count, Function.update s.reader i (.read start count false)⟩
    | _ => none

/-- What one step can be. -/
inductive Move (s : State ι) : Label ι → State ι → Prop
  | ask (i) : s.reader i = .idle → Move s (.ask i) ⟨s.cursor, Function.update s.reader i .asked⟩
  | tell (i) : s.reader i = .asked → Move s (.tell i) ⟨s.cursor, Function.update s.reader i (.holds s.cursor)⟩
  | read (i start count) : s.reader i = .holds start →
      Move s (.read i count) ⟨s.cursor, Function.update s.reader i (.read start count (0 < count))⟩
  | write (i start count) : s.reader i = .read start count true →
      Move s (.write i) ⟨start + count, Function.update s.reader i (.read start count false)⟩

theorem step_move {s s' : State ι} {l : Label ι} (h : step s l = some s') : Move s l s' := by
  cases l with
  | ask i =>
    simp only [step] at h
    split at h
    · rename_i hi
      cases h
      exact .ask i hi
    · cases h
  | tell i =>
    simp only [step] at h
    split at h
    · rename_i hi
      cases h
      exact .tell i hi
    · cases h
  | read i count =>
    simp only [step] at h
    split at h
    · rename_i hi
      cases h
      exact .read i _ count hi
    · cases h
  | write i =>
    simp only [step] at h
    split at h
    · rename_i hi
      cases h
      exact .write i _ _ hi
    · cases h

end

/-- The reader was told the cursor there. -/
def Told (start : Int) : Reader → Prop
  | .holds start' => start' = start
  | .read start' _ _ => start' = start
  | _ => False

/-! ## Nothing is skipped -/

/-- A reader read the position. -/
def Reads (s : State ι) (i : ι) (p : Int) : Prop :=
  ∃ start count pending, s.reader i = .read start count pending ∧ start ≤ p ∧ p < start + count

/-- Every position before `o` was read. -/
def Covered (s : State ι) (o : Int) : Prop := ∀ p, 0 ≤ p → p < o → ∃ i, Reads s i p

/-- The cursor, and every position a reader was told, is covered. -/
structure Safe (s : State ι) : Prop where
  cursor : Covered s s.cursor
  told : ∀ i o, Told o (s.reader i) → Covered s o

theorem safe_start : Safe (start : State ι) where
  cursor _ h0 hp := absurd hp (Int.not_lt.2 h0)
  told _ _ h := h.elim

section
variable {s s' : State ι}

/-- What was read stays read. -/
theorem Covered.mono (h : ∀ i o n b, s.reader i = .read o n b → ∃ b', s'.reader i = .read o n b') {o : Int}
    (hc : Covered s o) : Covered s' o := by
  intro p h0 hp
  obtain ⟨i, start, n, b, hi, hle, hlt⟩ := hc p h0 hp
  obtain ⟨b', hi'⟩ := h i start n b hi
  exact ⟨i, start, n, b', hi', hle, hlt⟩

/-- Behind what a reader read. -/
theorem Safe.behind (hs : Safe s) {i : ι} {o : Int} {n : Nat} {b : Bool} (hi : s.reader i = .read o n b) :
    Covered s (o + n) := by
  intro p h0 hp
  by_cases hlt : p < o
  · exact hs.told i o (by rw [hi]; rfl) p h0 hlt
  · exact ⟨i, o, n, b, hi, by omega, hp⟩

variable [DecidableEq ι]

/-- One reader changed, and was told nothing that is not covered. -/
theorem Safe.update (hs : Safe s) {i : ι} {r : Reader} {c : Int}
    (hread : ∀ o n b, s.reader i = .read o n b → ∃ b', r = .read o n b') (hc : Covered s c)
    (htold : ∀ o, Told o r → Covered s o) : Safe ⟨c, Function.update s.reader i r⟩ := by
  have hmono : ∀ {o}, Covered s o → Covered ⟨c, Function.update s.reader i r⟩ o := by
    intro o ho
    apply ho.mono
    intro j o n b hj
    by_cases hji : j = i
    · subst hji
      obtain ⟨b', hr⟩ := hread o n b hj
      exact ⟨b', by simp [hr]⟩
    · exact ⟨b, by simp [hji, hj]⟩
  refine ⟨hmono hc, ?_⟩
  intro j o hj
  by_cases hji : j = i
  · subst hji
    exact hmono (htold o (by simpa using hj))
  · exact hmono (hs.told j o (by simpa [hji] using hj))

theorem safe_step (hs : Safe s) {l : Label ι} (h : step s l = some s') : Safe s' := by
  cases step_move h with
  | ask i hi => exact hs.update (by simp [hi]) hs.cursor fun o ho => ho.elim
  | tell i hi =>
    apply hs.update (by simp [hi]) hs.cursor
    intro o ho
    rw [← show s.cursor = o from ho]
    exact hs.cursor
  | read i o n hi =>
    apply hs.update (by simp [hi]) hs.cursor
    intro o' ho
    rw [← show o = o' from ho]
    exact hs.told i o (by rw [hi]; rfl)
  | write i o n hi =>
    apply hs.update (by simp [hi]) (hs.behind hi)
    intro o' ho
    rw [← show o = o' from ho]
    exact hs.told i o (by rw [hi]; rfl)

/-- Whatever the readers do, every position below the cursor was read. -/
theorem covered_cursor {tr} (hr : Run step start tr s) : Covered s s.cursor :=
  (hr.inv Safe safe_start fun _ _ _ hs h => safe_step hs h).cursor

end

/-! ## Nothing is read twice -/

section
variable [LinearOrder ι]

/-- A reader asks only when those before it have read. -/
def InOrder (s : State ι) : Label ι → Prop
  | .ask k => ∀ j < k, ∃ o n b, s.reader j = .read o n b
  | _ => True

/-- The cursor is told only when no write is pending. -/
def Quiet (s : State ι) : Label ι → Prop
  | .tell _ => ∀ j o n, s.reader j ≠ .read o n true
  | _ => True

/-- Readers in a row. `waits` says that nobody gets past a pending write, and
`behind` that a reader starts behind those before it. -/
structure Ordered (s : State ι) : Prop where
  begun : ∀ k, s.reader k ≠ .idle → ∀ j < k, ∃ o n b, s.reader j = .read o n b
  behind : ∀ k p, Told p (s.reader k) → ∀ j < k, ∀ o n b, s.reader j = .read o n b → 0 < n → o + n ≤ p
  written : ∀ j o n, s.reader j = .read o n false → 0 < n → o + n ≤ s.cursor
  waits : ∀ j o n, s.reader j = .read o n true → ∀ k > j, ∀ p, ¬ Told p (s.reader k)

theorem ordered_start : Ordered (start : State ι) where
  begun _ h := absurd rfl h
  behind _ _ h := h.elim
  written _ _ _ h := by cases h
  waits _ _ _ h := by cases h

variable {s s' : State ι}

/-- Behind a reader that has not read, all are idle. -/
theorem Ordered.idle (hs : Ordered s) {j : ι} (hj : ∀ o n b, s.reader j ≠ .read o n b) {k : ι} (hk : j < k) :
    s.reader k = .idle := by
  by_contra hne
  obtain ⟨o, n, b, h⟩ := hs.begun k hne j hk
  exact hj o n b h

/-- What holds of a reader after a step held before, or it is the reader that
moved. -/
theorem update_cases {P : Reader → Prop} {r : Reader} {i j : ι} (h : P (Function.update s.reader i r j)) :
    (j = i ∧ P r) ∨ (j ≠ i ∧ P (s.reader j)) := by
  by_cases hj : j = i
  · subst hj
    exact .inl ⟨rfl, by simpa using h⟩
  · exact .inr ⟨hj, by simpa [hj] using h⟩

/-- A reader that has not read and does not read now: the readers that have are
the same. -/
theorem read_update {r : Reader} {i : ι} (hi : ∀ o n b, s.reader i ≠ .read o n b) (hr : ∀ o n b, r ≠ .read o n b)
    (j : ι) (o : Int) (n : Nat) (b : Bool) :
    Function.update s.reader i r j = .read o n b ↔ s.reader j = .read o n b := by
  by_cases hj : j = i
  · subst hj
    simp [hi o n b, hr o n b]
  · simp [hj]

theorem told_update {r : Reader} {i : ι} (hr : ∀ p, Told p r → Told p (s.reader i)) {k : ι} {p : Int}
    (h : Told p (Function.update s.reader i r k)) : Told p (s.reader k) := by
  rcases update_cases (P := Told p) h with ⟨rfl, hmoved⟩ | ⟨-, hsame⟩
  · exact hr p hmoved
  · exact hsame

theorem begun_update {r : Reader} {i : ι} (hi : s.reader i ≠ .idle) {k : ι}
    (h : Function.update s.reader i r k ≠ .idle) : s.reader k ≠ .idle := by
  rcases update_cases (P := (· ≠ .idle)) h with ⟨rfl, -⟩ | ⟨-, h⟩
  · exact hi
  · exact h

theorem Ordered.ask (hs : Ordered s) {i : ι} (hi : s.reader i = .idle)
    (hin : ∀ j < i, ∃ o n b, s.reader j = .read o n b) :
    Ordered ⟨s.cursor, Function.update s.reader i .asked⟩ := by
  have hread := read_update (s := s) (r := .asked) (i := i) (by simp [hi]) (by simp)
  have htold := fun {k p} => told_update (s := s) (r := .asked) (i := i) (k := k) (p := p) fun _ h => h.elim
  constructor
  · intro k hk j hjk
    simp only [hread]
    rcases update_cases (P := (· ≠ .idle)) hk with ⟨rfl, -⟩ | ⟨-, hk⟩
    · exact hin j hjk
    · exact hs.begun k hk j hjk
  · intro k p hp j hjk o n b hj hn
    rw [hread] at hj
    exact hs.behind k p (htold hp) j hjk o n b hj hn
  · intro j o n hj hn
    rw [hread] at hj
    exact hs.written j o n hj hn
  · intro j o n hj k hjk p hp
    rw [hread] at hj
    exact hs.waits j o n hj k hjk p (htold hp)

/-- No write is pending, so all that was read is behind the cursor. -/
theorem Ordered.tell (hs : Ordered s) {i : ι} (hi : s.reader i = .asked)
    (hquiet : ∀ j o n, s.reader j ≠ .read o n true) :
    Ordered ⟨s.cursor, Function.update s.reader i (.holds s.cursor)⟩ := by
  have hread := read_update (s := s) (r := .holds s.cursor) (i := i) (by simp [hi]) (by simp)
  constructor
  · intro k hk j hjk
    simp only [hread]
    exact hs.begun k (begun_update (by simp [hi]) hk) j hjk
  · intro k p hp j hjk o n b hj hn
    rw [hread] at hj
    rcases update_cases (P := Told p) hp with ⟨-, h⟩ | ⟨-, h⟩
    · rw [← show s.cursor = p from h]
      cases b with
      | true => exact absurd hj (hquiet j o n)
      | false => exact hs.written j o n hj hn
    · exact hs.behind k p h j hjk o n b hj hn
  · intro j o n hj hn
    rw [hread] at hj
    exact hs.written j o n hj hn
  · intro j o n hj
    rw [hread] at hj
    exact absurd hj (hquiet j o n)

/-- Nobody behind the reader has been told anything. -/
theorem Ordered.read (hs : Ordered s) {i : ι} {start : Int} (hi : s.reader i = .holds start) (count : Nat) :
    Ordered ⟨s.cursor, Function.update s.reader i (.read start count (0 < count))⟩ := by
  have hidle : ∀ {k}, i < k → s.reader k = .idle := fun hk => hs.idle (by simp [hi]) hk
  have htold := fun {k p} => told_update (s := s) (r := .read start count (0 < count)) (i := i) (k := k) (p := p)
    fun _ h => by rw [hi]; exact h
  constructor
  · intro k hk j hjk
    by_cases hj : j = i
    · subst hj
      exact ⟨start, count, decide (0 < count), by simp⟩
    · simp only [Function.update_of_ne hj]
      exact hs.begun k (begun_update (by simp [hi]) hk) j hjk
  · intro k p hp j hjk o n b hj hn
    rcases update_cases (P := (· = .read o n b)) hj with ⟨rfl, -⟩ | ⟨-, hj⟩
    · have := htold hp
      rw [hidle hjk] at this
      exact this.elim
    · exact hs.behind k p (htold hp) j hjk o n b hj hn
  · intro j o n hj hn
    rcases update_cases (P := (· = .read o n false)) hj with ⟨-, h⟩ | ⟨-, hj⟩
    · -- something was read, so the write is pending
      simp only [Reader.read.injEq, decide_eq_false_iff_not] at h
      omega
    · exact hs.written j o n hj hn
  · intro j o n hj k hjk p hp
    have hk := htold hp
    rcases update_cases (P := (· = .read o n true)) hj with ⟨rfl, -⟩ | ⟨-, hj⟩
    · rw [hidle hjk] at hk
      exact hk.elim
    · exact hs.waits j o n hj k hjk p hk

/-- The cursor moves behind everything written: readers before this one end
before it starts, and readers behind it still wait for its write. -/
theorem Ordered.write (hs : Ordered s) {i : ι} {start : Int} {count : Nat}
    (hi : s.reader i = .read start count true) :
    Ordered ⟨start + count, Function.update s.reader i (.read start count false)⟩ := by
  have hread : ∀ {j o n b}, Function.update s.reader i (.read start count false) j = .read o n b →
      ∃ b', s.reader j = .read o n b' := by
    intro j o n b hj
    rcases update_cases (P := (· = .read o n b)) hj with ⟨rfl, h⟩ | ⟨-, h⟩
    · cases h
      exact ⟨true, hi⟩
    · exact ⟨b, h⟩
  have htold := fun {k p} => told_update (s := s) (r := .read start count false) (i := i) (k := k) (p := p)
    fun _ h => by rw [hi]; exact h
  constructor
  · intro k hk j hjk
    by_cases hj : j = i
    · subst hj
      exact ⟨start, count, false, by simp⟩
    · simp only [Function.update_of_ne hj]
      exact hs.begun k (begun_update (by simp [hi]) hk) j hjk
  · intro k p hp j hjk o n b hj hn
    obtain ⟨b', hj⟩ := hread hj
    exact hs.behind k p (htold hp) j hjk o n b' hj hn
  · intro j o n hj hn
    dsimp only
    rcases update_cases (P := (· = .read o n false)) hj with ⟨-, h⟩ | ⟨hne, hj⟩
    · cases h
      exact Int.le_refl _
    · rcases lt_or_gt_of_ne hne with hlt | hgt
      · have := hs.behind i start (by rw [hi]; rfl) j hlt o n false hj hn
        omega
      · exact absurd (by rw [hj]; rfl) (hs.waits i start count hi j hgt o)
  · intro j o n hj k hjk p hp
    rcases update_cases (P := (· = .read o n true)) hj with ⟨-, h⟩ | ⟨-, hj⟩
    · cases h
    · exact hs.waits j o n hj k hjk p (htold hp)

theorem ordered_step (hs : Ordered s) {l : Label ι} (hl : InOrder s l ∧ Quiet s l) (h : step s l = some s') :
    Ordered s' := by
  cases step_move h with
  | ask i hi => exact hs.ask hi hl.1
  | tell i hi => exact hs.tell hi hl.2
  | read i o n hi => exact hs.read hi n
  | write i o n hi => exact hs.write hi

/-- Readers in order, told the cursor only while no write is pending, read
disjoint ranges. -/
theorem disjoint {tr} (hr : Run step start tr s) (hc : Always (fun s l => InOrder s l ∧ Quiet s l) tr) {j k : ι}
    {p : Int} (hj : Reads s j p) (hk : Reads s k p) : j = k := by
  have hs := hr.inv_while Ordered ordered_start (fun _ _ _ hs hl h => ordered_step hs hl h) hc
  have hlt : ∀ {j k}, Reads s j p → Reads s k p → ¬ j < k := by
    rintro j k ⟨o, n, b, hj, hle, hend⟩ ⟨o', n', b', hk, hle', -⟩ hjk
    have := hs.behind k o' (by rw [hk]; rfl) j hjk o n b hj (by omega)
    omega
  rcases lt_trichotomy j k with h | h | h
  · exact absurd h (hlt hj hk)
  · exact h
  · exact absurd h (hlt hk hj)

end

end Lib.Cursor
