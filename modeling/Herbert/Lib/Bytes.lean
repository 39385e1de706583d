import Mathlib.Data.List.Basic
import Mathlib.Algebra.GroupWithZero.Nat
/-!
# Reading bytes

The standard library's readers over a byte list, each returning what it read and
what is left, little-endian words, and UTF-8. `none` is an unexpected end of
the input.
-/

namespace Lib.Bytes

/-! ## Readers -/

section
variable {β : Type}

section
variable [DecidableEq β]

/-- Reads up to and including the delimiter, or to the end. -/
def readUntil (d : β) : List β → List β × List β
  | [] => ([], [])
  | b :: bs => if b = d then ([b], bs) else (b :: (readUntil d bs).1, (readUntil d bs).2)

theorem readUntil_append (d : β) (bs : List β) : (readUntil d bs).1 ++ (readUntil d bs).2 = bs := by
  induction bs with
  | nil => rfl
  | cons b bs ih =>
    unfold readUntil
    split
    · simp
    · simp [ih]

theorem readUntil_delim {d : β} {pre : List β} (h : d ∉ pre) (rest : List β) :
    readUntil d (pre ++ d :: rest) = (pre ++ [d], rest) := by
  induction pre with
  | nil => simp [readUntil]
  | cons b pre ih =>
    simp only [List.mem_cons, not_or] at h
    simp [readUntil, Ne.symm h.1, ih h.2]

theorem readUntil_end {d : β} {bs : List β} (h : d ∉ bs) : readUntil d bs = (bs, []) := by
  induction bs with
  | nil => rfl
  | cons b bs ih =>
    simp only [List.mem_cons, not_or] at h
    simp [readUntil, Ne.symm h.1, ih h.2]

/-- The delimiter can only be the last element read. -/
theorem delim_notMem_dropLast (d : β) (bs : List β) : d ∉ (readUntil d bs).1.dropLast := by
  induction bs with
  | nil => simp [readUntil]
  | cons b bs ih =>
    unfold readUntil
    split
    · simp
    · rename_i hne
      dsimp only
      cases hx : (readUntil d bs).1 with
      | nil => simp
      | cons y ys =>
        rw [hx] at ih
        rw [List.dropLast_cons_cons, List.mem_cons, not_or]
        exact ⟨Ne.symm hne, ih⟩

/-- If anything follows, the last element read is the delimiter. -/
theorem readUntil_eq_concat {d : β} {bs : List β} (h : (readUntil d bs).2 ≠ []) :
    (readUntil d bs).1 = (readUntil d bs).1.dropLast ++ [d] := by
  induction bs with
  | nil => exact absurd rfl h
  | cons b bs ih =>
    unfold readUntil at h ⊢
    split
    · rename_i heq
      simp [heq]
    · rename_i hne
      rw [if_neg hne] at h
      have := ih h
      cases hx : (readUntil d bs).1 with
      | nil => rw [hx] at this; cases this
      | cons y ys =>
        rw [hx] at this
        dsimp only
        rw [List.dropLast_cons_cons, List.cons_append, ← this]

theorem readUntil_length (d : β) (bs : List β) :
    (readUntil d bs).1.length + (readUntil d bs).2.length = bs.length := by
  rw [← List.length_append, readUntil_append]

end

/-- Reads exactly `n` elements. -/
def readExact (n : Nat) (bs : List β) : Option (List β × List β) :=
  if n ≤ bs.length then some (bs.take n, bs.drop n) else none

theorem readExact_append (bs rest : List β) : readExact bs.length (bs ++ rest) = some (bs, rest) := by
  simp [readExact]

theorem readExact_short {n : Nat} {bs : List β} (h : bs.length < n) : readExact n bs = none := by
  simp [readExact]; omega

theorem readExact_eq_some {n : Nat} {bs a rest : List β} (h : readExact n bs = some (a, rest)) :
    bs = a ++ rest ∧ a.length = n := by
  unfold readExact at h
  split at h
  · cases h; simp; omega
  · cases h

end

theorem prefix_append_cases {β : Type} {p a b : List β} (h : p <+: a ++ b) :
    p <+: a ∨ ∃ q, p = a ++ q ∧ q <+: b := by
  rcases List.prefix_or_prefix_of_prefix h (List.prefix_append a b) with hp | ⟨q, rfl⟩
  · exact .inl hp
  · exact .inr ⟨q, rfl, (List.prefix_append_right_inj a).1 h⟩

/-! ## Words -/

/-- The low 32 bits, least significant byte first. -/
def le32 (n : Nat) : List UInt8 :=
  [UInt8.ofNat n, UInt8.ofNat (n / 256), UInt8.ofNat (n / 65536), UInt8.ofNat (n / 16777216)]

@[simp] theorem length_le32 (n : Nat) : (le32 n).length = 4 := rfl

def readLe32 : List UInt8 → Option (Nat × List UInt8)
  | a :: b :: c :: d :: rest =>
    some (a.toNat + 256 * b.toNat + 65536 * c.toNat + 16777216 * d.toNat, rest)
  | _ => none

theorem readLe32_le32 (n : Nat) (rest : List UInt8) : readLe32 (le32 n ++ rest) = some (n % 2 ^ 32, rest) := by
  simp only [le32, List.cons_append, List.nil_append, readLe32, UInt8.toNat_ofNat', Option.some.injEq,
    Prod.mk.injEq, and_true]
  omega

theorem readLe32_lt {bs rest : List UInt8} {n : Nat} (h : readLe32 bs = some (n, rest)) : n < 2 ^ 32 := by
  unfold readLe32 at h
  split at h
  · rename_i a b c d _
    simp only [Option.some.injEq, Prod.mk.injEq] at h
    have := a.toNat_lt; have := b.toNat_lt; have := c.toNat_lt; have := d.toNat_lt
    omega
  · cases h

/-- A word is read off its own bytes. -/
theorem readLe32_eq_some {bs rest : List UInt8} {n : Nat} (h : readLe32 bs = some (n, rest)) :
    bs = le32 n ++ rest := by
  unfold readLe32 at h
  split at h
  · rename_i a b c d _
    simp only [Option.some.injEq, Prod.mk.injEq] at h
    obtain ⟨rfl, rfl⟩ := h
    have := a.toNat_lt; have := b.toNat_lt; have := c.toNat_lt; have := d.toNat_lt
    simp only [le32, List.cons_append, List.nil_append, List.cons.injEq, ← UInt8.toNat_inj, UInt8.toNat_ofNat',
      and_true]
    omega
  · cases h

theorem readLe32_length {bs rest : List UInt8} {n : Nat} (h : readLe32 bs = some (n, rest)) :
    bs.length = rest.length + 4 := by
  unfold readLe32 at h
  split at h
  · cases h; rfl
  · cases h

theorem readLe32_short {bs : List UInt8} (h : bs.length < 4) : readLe32 bs = none := by
  match bs, h with
  | [], _ | [_], _ | [_, _], _ | [_, _, _], _ => rfl

/-- The low `n` bytes, most significant byte first. -/
def be : Nat → Nat → List UInt8
  | 0, _ => []
  | n + 1, v => UInt8.ofNat (v / 256 ^ n) :: be n v

/-- The number with these bytes, most significant byte first. -/
def ofBe : List UInt8 → Nat
  | [] => 0
  | b :: bs => b.toNat * 256 ^ bs.length + ofBe bs

@[simp] theorem length_be (n v : Nat) : (be n v).length = n := by
  induction n with
  | zero => rfl
  | succ n ih => simp [be, ih]

theorem ofBe_be (n v : Nat) : ofBe (be n v) = v % 256 ^ n := by
  induction n with
  | zero => simp [be, ofBe, Nat.mod_one]
  | succ n ih =>
    have hsplit : v % 256 ^ (n + 1) = v % 256 ^ n + 256 ^ n * (v / 256 ^ n % 256) := by
      rw [Nat.pow_succ, Nat.mod_mul]
    rw [be, ofBe, length_be, ih, UInt8.toNat_ofNat', hsplit, Nat.mul_comm, Nat.add_comm]

theorem ofBe_lt (bs : List UInt8) : ofBe bs < 256 ^ bs.length := by
  induction bs with
  | nil => exact Nat.one_pos
  | cons b bs ih =>
    have hb : b.toNat * 256 ^ bs.length ≤ 255 * 256 ^ bs.length := Nat.mul_le_mul_right _ (Nat.le_of_lt_succ b.toNat_lt)
    rw [ofBe, List.length_cons, Nat.pow_succ]
    omega

/-- Bytes of one length have different numbers. -/
theorem ofBe_inj {as bs : List UInt8} (hlen : as.length = bs.length) (h : ofBe as = ofBe bs) : as = bs := by
  induction as generalizing bs with
  | nil => exact (List.eq_nil_of_length_eq_zero hlen.symm).symm
  | cons a as ih =>
    cases bs with
    | nil => cases hlen
    | cons b bs =>
      have hlen' : as.length = bs.length := by simpa using hlen
      have ha := ofBe_lt as
      have hb := ofBe_lt bs
      rw [ofBe, ofBe, hlen'] at h
      rw [hlen'] at ha
      have hpos : 0 < 256 ^ bs.length := by omega
      have hmod : ofBe as = ofBe bs := by
        have := congrArg (· % 256 ^ bs.length) h
        simpa [Nat.mod_eq_of_lt ha, Nat.mod_eq_of_lt hb] using this
      have hdiv : a.toNat = b.toNat := Nat.eq_of_mul_eq_mul_right hpos (by omega)
      rw [UInt8.toNat_inj.1 hdiv, ih hlen' hmod]

/-! ## UTF-8 -/

/-- The bytes of a string. -/
def utf8 (s : String) : List UInt8 := s.toUTF8.data.toList

/-- Checks and takes over the bytes. -/
def fromUtf8 (bs : List UInt8) : Option String := String.fromUTF8? ⟨bs.toArray⟩

theorem fromUtf8_utf8 (s : String) : fromUtf8 (utf8 s) = some s := by
  have hb : (⟨(utf8 s).toArray⟩ : ByteArray) = s.toByteArray := by
    simp [utf8, String.toUTF8]
  rw [fromUtf8, hb, String.fromUTF8?, dif_pos s.isValidUTF8]
  exact congrArg some (String.toByteArray_inj.1 rfl)

theorem fromUtf8_eq_some {bs : List UInt8} {s : String} (h : fromUtf8 bs = some s) : bs = utf8 s := by
  simp only [fromUtf8, String.fromUTF8?] at h
  split at h
  · cases h; rfl
  · cases h

/-- `0xFF` is in no UTF-8 text. -/
theorem ff_notMem_utf8 (s : String) : (0xFF : UInt8) ∉ utf8 s := by
  intro h
  have hs : s.toByteArray = (s.toList.flatMap String.utf8EncodeChar).toByteArray := by
    rw [← String.utf8Encode_toList]; rfl
  simp only [utf8, String.toUTF8, hs, List.data_toByteArray, List.mem_flatMap] at h
  obtain ⟨c, -, hc⟩ := h
  have hval : c.val.toNat < 0x110000 := by
    have := c.valid
    simp only [UInt32.isValidChar, Nat.isValidChar] at this
    omega
  unfold String.utf8EncodeChar at hc
  generalize c.val.toNat = v at hval hc
  simp only at hc
  split at hc
  · simp only [List.mem_singleton, ← UInt8.toNat_inj, UInt8.toNat_ofNat'] at hc
    simp at hc; omega
  split at hc
  · simp only [List.mem_cons, List.not_mem_nil, or_false, ← UInt8.toNat_inj, UInt8.toNat_ofNat'] at hc
    simp at hc; omega
  split at hc
  · simp only [List.mem_cons, List.not_mem_nil, or_false, ← UInt8.toNat_inj, UInt8.toNat_ofNat'] at hc
    simp at hc; omega
  · simp only [List.mem_cons, List.not_mem_nil, or_false, ← UInt8.toNat_inj, UInt8.toNat_ofNat'] at hc
    simp at hc; omega

/-! ## Joining and splitting -/

/-- Splitting gives one part more than there are separators. -/
theorem length_splitOn {β : Type} [BEq β] (d : β) (bs : List β) : (bs.splitOn d).length = bs.count d + 1 := by
  induction bs with
  | nil => simp
  | cons b bs ih =>
    rw [List.splitOn_cons_eq_if_modifyHead, List.count_cons]
    split <;> simp [ih]

section
variable {β : Type} [BEq β] [LawfulBEq β] (d : β)

theorem count_join {ls : List (List β)} (hne : ls ≠ []) :
    ([d].intercalate ls).count d + 1 = ls.length + (ls.map (·.count d)).sum := by
  induction ls with
  | nil => exact absurd rfl hne
  | cons l ls ih =>
    cases ls with
    | nil => simp [Nat.add_comm]
    | cons l' ls =>
      have := ih (by simp)
      rw [List.intercalate_cons_cons]
      simp only [List.count_append, List.length_cons, List.map_cons, List.sum_cons, List.count_singleton_self] at this ⊢
      omega

end

variable {β : Type} {d b : β}

theorem mem_join {ls : List (List β)} (h : b ∈ [d].intercalate ls) : b = d ∨ ∃ l ∈ ls, b ∈ l := by
  induction ls with
  | nil => simp at h
  | cons l ls ih =>
    cases ls with
    | nil => exact .inr ⟨l, by simp, by simpa using h⟩
    | cons l' ls =>
      rw [List.intercalate_cons_cons] at h
      simp only [List.mem_append, List.mem_singleton] at h
      rcases h with (h | h) | h
      · exact .inr ⟨l, by simp, h⟩
      · exact .inl h
      · rcases ih h with h | ⟨l'', hl, hb⟩
        · exact .inl h
        · exact .inr ⟨l'', by simp [hl], hb⟩

end Lib.Bytes
