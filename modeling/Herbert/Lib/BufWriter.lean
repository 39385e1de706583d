import Mathlib.Data.List.Basic
import Mathlib.Tactic.SplitIfs
/-!
# A buffered writer

The standard library's `BufWriter`, for a sink whose writes succeed and take all
bytes; on a sink that takes pieces up to a limit it is that for shorter pieces
(`Lib.Faulty.BufWriter.write_steady`). What has reached the sink is `inner`, what
has not is `buf`. One `write` is never split between the two: `write_cases` lists
the three outcomes.
-/

namespace Lib

structure BufWriter (α : Type) where
  inner : List α
  buf : List α
  capacity : Nat
deriving DecidableEq, Repr

namespace BufWriter

variable {α : Type}

/-- Writes what is pending to the sink. -/
def flush (w : BufWriter α) : BufWriter α := { w with inner := w.inner ++ w.buf, buf := [] }

def spare_capacity (w : BufWriter α) : Nat := w.capacity - w.buf.length

/-- The path taken when the bytes do not fit strictly into the spare capacity. -/
def write_cold (w : BufWriter α) (bytes : List α) : BufWriter α :=
  let w := if bytes.length > w.spare_capacity then w.flush else w
  if bytes.length ≥ w.capacity then { w with inner := w.inner ++ bytes }
  else { w with buf := w.buf ++ bytes }

def write (w : BufWriter α) (bytes : List α) : BufWriter α :=
  if bytes.length < w.spare_capacity then { w with buf := w.buf ++ bytes } else w.write_cold bytes

/-- The sink's bytes followed by the pending ones. -/
def contents (w : BufWriter α) : List α := w.inner ++ w.buf

@[simp] theorem contents_flush (w : BufWriter α) : w.flush.contents = w.contents := by
  simp [contents, flush]

@[simp] theorem inner_flush (w : BufWriter α) : w.flush.inner = w.contents := rfl

@[simp] theorem buf_flush (w : BufWriter α) : w.flush.buf = [] := rfl

/-- A write goes behind what is pending, or after a flush into the empty
buffer, or after a flush straight to the sink. -/
theorem write_cases (w : BufWriter α) (bytes : List α) :
    ((w.write bytes).inner = w.inner ∧ (w.write bytes).buf = w.buf ++ bytes) ∨
    ((w.write bytes).inner = w.contents ∧ (w.write bytes).buf = bytes) ∨
    ((w.write bytes).inner = w.contents ++ bytes ∧ (w.write bytes).buf = []) := by
  unfold write
  split
  · exact .inl ⟨rfl, rfl⟩
  · rename_i hcold
    unfold write_cold
    by_cases hflush : bytes.length > w.spare_capacity
    · simp only [hflush, if_true]
      split
      · exact .inr (.inr ⟨by simp, rfl⟩)
      · exact .inr (.inl ⟨by simp, by simp⟩)
    · simp only [hflush, if_false]
      split
      · -- the write fills the capacity exactly, so nothing is pending
        rename_i hbig
        have hbuf : w.buf = [] ∨ bytes = [] := by
          unfold spare_capacity at hflush hcold
          rcases Nat.eq_zero_or_pos bytes.length with h | h
          · exact .inr (List.length_eq_zero_iff.1 h)
          · exact .inl (List.length_eq_zero_iff.1 (by omega))
        rcases hbuf with hbuf | hbytes
        · exact .inr (.inr ⟨by simp [contents, hbuf], by simp [hbuf]⟩)
        · exact .inl ⟨by simp [hbytes], by simp [hbytes]⟩
      · exact .inl ⟨rfl, rfl⟩

@[simp] theorem contents_write (w : BufWriter α) (bytes : List α) :
    (w.write bytes).contents = w.contents ++ bytes := by
  rcases write_cases w bytes with ⟨h, h'⟩ | ⟨h, h'⟩ | ⟨h, h'⟩ <;> simp [contents, h, h']

@[simp] theorem capacity_flush (w : BufWriter α) : w.flush.capacity = w.capacity := rfl

@[simp] theorem capacity_write (w : BufWriter α) (bytes : List α) : (w.write bytes).capacity = w.capacity := by
  unfold write write_cold
  dsimp only
  split_ifs <;> rfl

/-- No more is pending than there is room for. -/
theorem length_buf_write {w : BufWriter α} (h : w.buf.length ≤ w.capacity) (bytes : List α) :
    (w.write bytes).buf.length ≤ w.capacity := by
  unfold write
  split
  · rename_i hfit
    unfold spare_capacity at hfit
    simp only [List.length_append]
    omega
  unfold write_cold
  by_cases hflush : bytes.length > w.spare_capacity
  · simp only [hflush, if_true]
    split
    · exact Nat.zero_le _
    · rename_i hsmall
      simpa using Nat.le_of_not_le hsmall
  · simp only [hflush, if_false]
    unfold spare_capacity at hflush
    split
    · exact h
    · simp only [List.length_append]
      omega

/-- What has reached the sink stays there. -/
theorem inner_write (w : BufWriter α) (bytes : List α) : w.inner <+: (w.write bytes).inner := by
  rcases write_cases w bytes with ⟨h, -⟩ | ⟨h, -⟩ | ⟨h, -⟩ <;> simp [h, contents]

theorem inner_contents (w : BufWriter α) : w.inner <+: w.contents := List.prefix_append _ _

/-! ## Whole pieces

If the bytes came in as pieces, a prefix of the pieces is in the sink. -/

section Pieces
variable {γ : Type} (enc : γ → List α)

/-- `w` was given the pieces `cs`, and its sink holds the first `k` of them. -/
def Holds (w : BufWriter α) (cs : List γ) (k : Nat) : Prop :=
  k ≤ cs.length ∧ w.inner = (cs.take k).flatMap enc ∧ w.buf = (cs.drop k).flatMap enc

variable {enc} {w : BufWriter α} {cs : List γ} {k : Nat}

theorem Holds.contents (h : w.Holds enc cs k) : w.contents = cs.flatMap enc := by
  rw [BufWriter.contents, h.2.1, h.2.2, ← List.flatMap_append, List.take_append_drop]

theorem Holds.flush (h : w.Holds enc cs k) : w.flush.Holds enc cs cs.length :=
  ⟨Nat.le_refl _, by simp [h.contents], by simp⟩

theorem Holds.write (h : w.Holds enc cs k) (c : γ) :
    ∃ k', k ≤ k' ∧ (w.write (enc c)).Holds enc (cs ++ [c]) k' := by
  have hc := h.contents
  obtain ⟨hk, hi, hb⟩ := h
  rcases write_cases w (enc c) with ⟨h1, h2⟩ | ⟨h1, h2⟩ | ⟨h1, h2⟩
  · refine ⟨k, Nat.le_refl _, by simp; omega, ?_, ?_⟩
    · rw [h1, hi, List.take_append_of_le_length hk]
    · rw [h2, hb, List.drop_append_of_le_length hk]; simp
  · exact ⟨cs.length, hk, by simp, by simp [h1, hc], by simp [h2]⟩
  · exact ⟨(cs ++ [c]).length, by simp; omega, by simp, by rw [List.take_length, h1, hc]; simp, by simp [h2]⟩

end Pieces

end BufWriter
end Lib
