import Mathlib.Data.List.Basic
/-!
# Chunks

A list cut into consecutive pieces of `n`, the last of which may be shorter.
-/

namespace Lib

variable {β : Type}

/-- The pieces of `xs`, for `0 < n`. -/
def chunks (n : Nat) : List β → List (List β)
  | [] => []
  | x :: xs => (x :: xs.take (n - 1)) :: chunks n (xs.drop (n - 1))
termination_by xs => xs.length
decreasing_by
  simp only [List.length_drop, List.length_cons]
  omega

variable {n : Nat}

@[simp] theorem chunks_nil : chunks n ([] : List β) = [] := by
  rw [chunks]

theorem chunks_cons (x : β) (xs : List β) :
    chunks n (x :: xs) = (x :: xs.take (n - 1)) :: chunks n (xs.drop (n - 1)) := by
  rw [chunks]

/-- Nothing is lost, and the order is kept. -/
theorem flatten_chunks (n : Nat) (xs : List β) : (chunks n xs).flatten = xs := by
  induction xs using chunks.induct n with
  | case1 => simp
  | case2 x xs ih => rw [chunks_cons, List.flatten_cons, ih, List.cons_append, List.take_append_drop]

theorem length_chunk_le (hn : 0 < n) {xs c : List β} (hc : c ∈ chunks n xs) : c.length ≤ n := by
  induction xs using chunks.induct n with
  | case1 => simp at hc
  | case2 x xs ih =>
    rw [chunks_cons, List.mem_cons] at hc
    rcases hc with rfl | hc
    · simp only [List.length_cons, List.length_take]
      omega
    · exact ih hc

/-- Only the last piece may be shorter. -/
theorem length_chunk (hn : 0 < n) {xs c : List β} (hc : c ∈ (chunks n xs).dropLast) : c.length = n := by
  induction xs using chunks.induct n with
  | case1 => simp at hc
  | case2 x xs ih =>
    rw [chunks_cons] at hc
    cases hrest : xs.drop (n - 1) with
    | nil => simp [hrest] at hc
    | cons y ys =>
      have hlen : n - 1 < xs.length := by
        have := congrArg List.length hrest
        simp only [List.length_drop, List.length_cons] at this
        omega
      have hne : chunks n (xs.drop (n - 1)) ≠ [] := by simp [hrest, chunks_cons]
      rw [List.dropLast_cons_of_ne_nil hne, List.mem_cons] at hc
      rcases hc with rfl | hc
      · simp only [List.length_cons, List.length_take]
        omega
      · exact ih hc

end Lib
