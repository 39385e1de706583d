import Mathlib.Data.List.Basic
/-!
# Streams that arrive in pieces

A reader sees the pieces of a stream one by one: `read` returns bytes of the
first piece only, `readExact` reads on until it has enough.
-/

namespace Lib

/-- What is still to be read, as it arrives. -/
structure Stream (β : Type) where
  pieces : List (List β)
  nonempty : [] ∉ pieces

namespace Stream

variable {β : Type} (s : Stream β)

def content : List β := s.pieces.flatten

def dropPieces : Nat → List (List β) → List (List β)
  | _, [] => []
  | n, p :: ps => if p.length ≤ n then dropPieces (n - p.length) ps else p.drop n :: ps

theorem nonempty_dropPieces {n : Nat} {ps : List (List β)} (h : [] ∉ ps) : [] ∉ dropPieces n ps := by
  induction ps generalizing n with
  | nil => exact h
  | cons p ps ih =>
    rw [List.mem_cons, not_or] at h
    unfold dropPieces
    split
    · exact ih h.2
    · rename_i hn
      rw [List.mem_cons, not_or, eq_comm, List.drop_eq_nil_iff]
      exact ⟨hn, h.2⟩

theorem flatten_dropPieces (n : Nat) (ps : List (List β)) : (dropPieces n ps).flatten = ps.flatten.drop n := by
  induction ps generalizing n with
  | nil => simp [dropPieces]
  | cons p ps ih =>
    unfold dropPieces
    split
    · rename_i hn
      rw [ih, List.flatten_cons, List.drop_append, List.drop_eq_nil_of_le hn, List.nil_append]
    · rw [List.flatten_cons, List.flatten_cons, List.drop_append_of_le_length (by omega)]

/-- The stream without its first `n` elements. -/
def drop (n : Nat) : Stream β := ⟨dropPieces n s.pieces, nonempty_dropPieces s.nonempty⟩

/-- At most `n` elements of the first piece; none at the end. -/
def read (n : Nat) : List β × Stream β :=
  match s.pieces with
  | [] => ([], s)
  | p :: _ => (p.take n, s.drop (min n p.length))

/-- The next `n` elements, over as many pieces as it takes. A stream that ends
earlier is used up. -/
def readExact (n : Nat) : Option (List β) × Stream β :=
  if n ≤ s.content.length then (some (s.content.take n), s.drop n) else (none, s.drop n)

@[simp] theorem content_drop (n : Nat) : (s.drop n).content = s.content.drop n := flatten_dropPieces n s.pieces

variable {s}

/-- What is read is the start of the content. -/
theorem read_eq {p : List β} {ps : List (List β)} (hp : s.pieces = p :: ps) (n : Nat) :
    s.read n = (s.content.take (min n p.length), s.drop (min n p.length)) := by
  have hcontent : s.content = p ++ ps.flatten := by rw [content, hp, List.flatten_cons]
  rw [read, hp, hcontent, List.take_append_of_le_length (Nat.min_le_right n p.length), ← List.take_eq_take_min]

theorem length_le_content {p : List β} {ps : List (List β)} (hp : s.pieces = p :: ps) : p.length ≤ s.content.length := by
  rw [content, hp, List.flatten_cons, List.length_append]
  omega

/-- The first piece, cut to `n` elements, is as long as `a`. -/
def OneRead (s : Stream β) (n : Nat) (a : List β) : Prop := ∃ p ps, s.pieces = p :: ps ∧ min n p.length = a.length

instance (n : Nat) (a : List β) : Decidable (s.OneRead n a) :=
  decidable_of_iff (∃ p ∈ s.pieces.head?, min n p.length = a.length) <| by
    rw [OneRead]
    cases s.pieces <;> simp

variable {a b : List β} {n : Nat}

/-- A read leaves what is behind `a` if it is as long as `a`. -/
theorem content_read_iff (hs : s.content = a ++ b) (ha : a ≠ []) : (s.read n).2.content = b ↔ s.OneRead n a := by
  cases hp : s.pieces with
  | nil =>
    rw [content, hp, List.flatten_nil, eq_comm, List.append_eq_nil_iff] at hs
    exact absurd hs.1 ha
  | cons p ps =>
    have hle := length_le_content hp
    rw [read_eq hp, content_drop, hs]
    rw [hs, List.length_append] at hle
    constructor
    · intro h
      have hlen := congrArg List.length h
      simp only [List.length_drop, List.length_append] at hlen
      exact ⟨p, ps, hp, by omega⟩
    · rintro ⟨p', ps', hp', hmin⟩
      rw [hp] at hp'
      cases hp'
      rw [hmin, List.drop_left]

/-- Then it returns `a`. -/
theorem OneRead.read_fst (h : s.OneRead n a) (hs : s.content = a ++ b) : (s.read n).1 = a := by
  obtain ⟨p, ps, hp, hmin⟩ := h
  rw [read_eq hp, hs, hmin, List.take_left]

end Stream
end Lib
