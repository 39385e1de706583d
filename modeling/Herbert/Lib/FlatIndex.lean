import Mathlib.Data.List.Basic
import Mathlib.Algebra.GroupWithZero.Nat
import Mathlib.Algebra.BigOperators.Group.List.Basic
/-!
# Flat indices

A list of items of different sizes, addressed by a running number: item `i` of
size `n` has the `n` positions `(i, 0), …, (i, n - 1)`, and the index lists the
positions of all items in order.
-/

namespace Lib.FlatIndex

variable {α ι : Type} (mk : Nat → Nat → ι) (size : α → Nat)

/-- The positions of `xs`, whose first item has number `i`. -/
def flat : Nat → List α → List ι
  | _, [] => []
  | i, x :: xs => (List.range (size x)).map (mk i) ++ flat (i + 1) xs

/-- The number of positions of `xs`. -/
def total (xs : List α) : Nat := (xs.map size).sum

variable {mk size}

@[simp] theorem total_nil : total size [] = 0 := rfl

@[simp] theorem total_cons (x : α) (xs : List α) : total size (x :: xs) = size x + total size xs := by
  simp [total]

@[simp] theorem total_append (xs ys : List α) : total size (xs ++ ys) = total size xs + total size ys := by
  simp [total]

theorem flat_append (i : Nat) (xs ys : List α) :
    flat mk size i (xs ++ ys) = flat mk size i xs ++ flat mk size (i + xs.length) ys := by
  induction xs generalizing i with
  | nil => rfl
  | cons x xs ih =>
    simp only [List.cons_append, flat, ih, List.append_assoc, List.length_cons]
    congr 3
    omega

@[simp] theorem length_flat (i : Nat) (xs : List α) : (flat mk size i xs).length = total size xs := by
  induction xs generalizing i with
  | nil => rfl
  | cons x xs ih => simp [flat, ih]

/-- A number below the total is a position inside one of the items. -/
theorem flat_getElem? (mk : Nat → Nat → ι) (i : Nat) (xs : List α) {o : Nat} (h : o < total size xs) :
    ∃ j x r, xs[j]? = some x ∧ r < size x ∧ o = total size (xs.take j) + r ∧
      (flat mk size i xs)[o]? = some (mk (i + j) r) := by
  induction xs generalizing i o with
  | nil => simp at h
  | cons x xs ih =>
    by_cases ho : o < size x
    · refine ⟨0, x, o, rfl, ho, by simp, ?_⟩
      simp [flat, List.getElem?_append_left, ho]
    · obtain ⟨j, y, r, hj, hr, hsum, hget⟩ := ih (i + 1) (o := o - size x) (by rw [total_cons] at h; omega)
      refine ⟨j + 1, y, r, hj, hr, by simp only [List.take_succ_cons, total_cons]; omega, ?_⟩
      rw [flat, List.getElem?_append_right (by simpa using ho)]
      simp only [List.length_map, List.length_range, hget]
      congr 2
      omega

theorem flat_getElem?_none (i : Nat) (xs : List α) {o : Nat} (h : total size xs ≤ o) :
    (flat mk size i xs)[o]? = none :=
  List.getElem?_eq_none (by simpa using h)

/-- The items from the one a position is in onwards have the positions that are left. -/
theorem total_drop {xs : List α} {j o r : Nat} (ho : o = total size (xs.take j) + r) :
    total size (xs.drop j) - r = total size xs - o := by
  have : total size xs = total size (xs.take j) + total size (xs.drop j) := by
    rw [← total_append, List.take_append_drop]
  omega

end Lib.FlatIndex
