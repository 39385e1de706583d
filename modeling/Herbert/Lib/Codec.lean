import Mathlib.Algebra.Group.Int.Defs
import Herbert.Lib.Bytes
/-!
# Codecs

A `Codec` writes a value, if the value fits its format, and reads it back off
the front of its input. Formats are put together from big-endian words, constant
bytes, and values behind their length, and a codec made of lawful ones is
lawful.
-/
open Lib.Bytes

namespace Lib

structure Codec (α : Type) where
  put : α → Option (List UInt8)
  get : List UInt8 → Option (α × List UInt8)

namespace Codec

variable {α β : Type}

/-- What is written is read back, whatever follows. -/
def Lawful (c : Codec α) : Prop := ∀ a w rest, c.put a = some w → c.get (w ++ rest) = some (a, rest)

/-! ## Building blocks -/

/-- Writes nothing and reads nothing. -/
def never : Codec α where
  put _ := none
  get _ := none

/-- An unsigned number in `n` bytes. -/
def word (n : Nat) : Codec Nat where
  put v := if v < 256 ^ n then some (be n v) else none
  get bs := (readExact n bs).map fun r => (ofBe r.1, r.2)

/-- Exactly `n` bytes. -/
def bytes (n : Nat) : Codec (List UInt8) where
  put bs := if bs.length = n then some bs else none
  get := readExact n

/-- Bytes that are always the same, and skipped. -/
def fixed (w : List UInt8) : Codec Unit where
  put _ := some w
  get bs := (readExact w.length bs).map fun r => ((), r.2)

/-- One value behind another. -/
def seq (c : Codec α) (d : Codec β) : Codec (α × β) where
  put x := (c.put x.1).bind fun w => (d.put x.2).map (w ++ ·)
  get bs := (c.get bs).bind fun r => (d.get r.2).map fun r' => ((r.1, r'.1), r'.2)

/-- A value written as another one. -/
def via (c : Codec α) (dec : α → Option β) (enc : β → Option α) : Codec β where
  put b := (enc b).bind c.put
  get bs := (c.get bs).bind fun r => (dec r.1).map fun b => (b, r.2)

/-- A value behind its length, or no value. -/
def nullable (len : Codec (Option Nat)) (length : β → Nat) (body : Nat → Codec β) : Codec (Option β) where
  put
    | none => len.put none
    | some b => (len.put (some (length b))).bind fun w => ((body (length b)).put b).map (w ++ ·)
  get bs := (len.get bs).bind fun
    | (none, rest) => some (none, rest)
    | (some n, rest) => ((body n).get rest).map fun r => (some r.1, r.2)

theorem lawful_never : (never : Codec α).Lawful := by
  intro a w rest h
  cases h

theorem lawful_word (n : Nat) : (word n).Lawful := by
  intro v w rest h
  simp only [word, Option.ite_none_right_eq_some, Option.some.injEq] at h ⊢
  obtain ⟨hv, rfl⟩ := h
  have hread := readExact_append (be n v) rest
  rw [length_be] at hread
  rw [hread, Option.map_some, ofBe_be, Nat.mod_eq_of_lt hv]

theorem lawful_bytes (n : Nat) : (bytes n).Lawful := by
  intro bs w rest h
  simp only [bytes, Option.ite_none_right_eq_some, Option.some.injEq] at h ⊢
  obtain ⟨rfl, rfl⟩ := h
  exact readExact_append bs rest

theorem lawful_fixed (w : List UInt8) : (fixed w).Lawful := by
  rintro ⟨⟩ w' rest h
  simp only [fixed, Option.some.injEq] at h ⊢
  subst h
  rw [readExact_append, Option.map_some]

theorem Lawful.seq {c : Codec α} {d : Codec β} (hc : c.Lawful) (hd : d.Lawful) : (c.seq d).Lawful := by
  rintro ⟨a, b⟩ w rest h
  simp only [Codec.seq, Option.bind_eq_some_iff, Option.map_eq_some_iff] at h ⊢
  obtain ⟨w₁, h₁, w₂, h₂, rfl⟩ := h
  exact ⟨_, by rw [List.append_assoc, hc a w₁ _ h₁], _, hd b w₂ rest h₂, rfl⟩

theorem Lawful.via {c : Codec α} (hc : c.Lawful) {dec : α → Option β} {enc : β → Option α}
    (h : ∀ a b, enc b = some a → dec a = some b) : (c.via dec enc).Lawful := by
  intro b w rest hw
  simp only [Codec.via, Option.bind_eq_some_iff, Option.map_eq_some_iff] at hw ⊢
  obtain ⟨a, ha, hw⟩ := hw
  exact ⟨_, hc a w rest hw, b, h a b ha, rfl⟩

/-- What comes back of a value that is not written whole. -/
theorem Lawful.get_via {c : Codec α} (hc : c.Lawful) {dec : α → Option β} {enc : β → Option α} {b : β} {w : List UInt8}
    (h : (c.via dec enc).put b = some w) (rest : List UInt8) :
    ∃ a, enc b = some a ∧ (c.via dec enc).get (w ++ rest) = (dec a).map fun b => (b, rest) := by
  simp only [Codec.via, Option.bind_eq_some_iff] at h ⊢
  obtain ⟨a, ha, hw⟩ := h
  exact ⟨a, ha, by rw [hc a w rest hw, Option.bind_some]⟩

theorem Lawful.nullable {len : Codec (Option Nat)} (hlen : len.Lawful) {length : β → Nat} {body : Nat → Codec β}
    (hbody : ∀ n, (body n).Lawful) : (nullable len length body).Lawful := by
  rintro (_ | b) w rest h
  · simp only [Codec.nullable] at h ⊢
    rw [hlen none w rest h, Option.bind_some]
  · simp only [Codec.nullable, Option.bind_eq_some_iff, Option.map_eq_some_iff] at h
    obtain ⟨w₁, h₁, w₂, h₂, rfl⟩ := h
    simp only [Codec.nullable]
    rw [List.append_assoc, hlen _ w₁ _ h₁, Option.bind_some]
    dsimp only
    rw [hbody _ b w₂ rest h₂, Option.map_some]

theorem get_seq {c : Codec α} {d : Codec β} {bs rest : List UInt8} {x : α × β}
    (h : (c.seq d).get bs = some (x, rest)) : ∃ mid, c.get bs = some (x.1, mid) ∧ d.get mid = some (x.2, rest) := by
  simp only [seq, Option.bind_eq_some_iff, Option.map_eq_some_iff] at h
  obtain ⟨r, hr, r', hr', h⟩ := h
  cases h
  exact ⟨r.2, hr, hr'⟩

theorem get_via {c : Codec α} {dec : α → Option β} {enc : β → Option α} {bs rest : List UInt8} {b : β}
    (h : (c.via dec enc).get bs = some (b, rest)) : ∃ a, c.get bs = some (a, rest) ∧ dec a = some b := by
  simp only [via, Option.bind_eq_some_iff, Option.map_eq_some_iff] at h
  obtain ⟨r, hr, b', hb', h⟩ := h
  cases h
  exact ⟨r.1, hr, hb'⟩

/-! ## Structures -/

/-- A value behind constant bytes. -/
def lead (w : List UInt8) (c : Codec α) : Codec α := ((fixed w).seq c).via (fun x => some x.2) fun a => some ((), a)

/-- A value before constant bytes. -/
def trail (c : Codec α) (w : List UInt8) : Codec α := (c.seq (fixed w)).via (fun x => some x.1) fun a => some (a, ())

/-- A value that must be there. -/
def required (c : Codec (Option α)) : Codec α := c.via id fun a => some (some a)

/-- As many values. -/
def times (c : Codec α) : Nat → Codec (List α)
  | 0 => (fixed []).via (fun _ => some []) fun as => if as.isEmpty then some () else none
  | n + 1 => (c.seq (times c n)).via (fun x => some (x.1 :: x.2)) fun
    | [] => none
    | a :: as => some (a, as)

theorem Lawful.lead {c : Codec α} (hc : c.Lawful) (w : List UInt8) : (lead w c).Lawful := by
  refine ((lawful_fixed w).seq hc).via fun x a h => ?_
  cases h; rfl

theorem Lawful.trail {c : Codec α} (hc : c.Lawful) (w : List UInt8) : (trail c w).Lawful := by
  refine (hc.seq (lawful_fixed w)).via fun x a h => ?_
  cases h; rfl

theorem put_trail (c : Codec α) (w : List UInt8) (a : α) : (trail c w).put a = (c.put a).map (· ++ w) := by
  simp only [trail, via, seq, fixed, Option.bind_some, Option.map_eq_bind, Function.comp_def]

theorem Lawful.required {c : Codec (Option α)} (hc : c.Lawful) : c.required.Lawful := by
  refine hc.via fun x a h => ?_
  cases h; rfl

theorem Lawful.times {c : Codec α} (hc : c.Lawful) (n : Nat) : (times c n).Lawful := by
  induction n with
  | zero =>
    refine (lawful_fixed []).via fun x as h => ?_
    cases as with
    | nil => rfl
    | cons a as => cases h
  | succ n ih =>
    refine (hc.seq ih).via fun x as h => ?_
    cases as with
    | nil => cases h
    | cons a as => cases h; rfl

/-! ## Numbers -/

/-- The number with this two's complement in `n` bytes. -/
def ofTwos (n v : Nat) : Int := if 2 * v < 256 ^ n then v else v - 256 ^ n

/-- A signed number in `n` bytes. -/
def int (n : Nat) : Codec Int :=
  (word n).via (fun v => some (ofTwos n v)) fun i =>
    if -(256 ^ n : Int) ≤ 2 * i ∧ 2 * i < 256 ^ n then some (i % 256 ^ n).toNat else none

theorem lawful_int (n : Nat) : (int n).Lawful := by
  refine (lawful_word n).via fun v i h => ?_
  simp only [Option.ite_none_right_eq_some, Option.some.injEq] at h ⊢
  obtain ⟨⟨hlo, hhi⟩, rfl⟩ := h
  have hcast : (256 ^ n : Int) = ((256 ^ n : Nat) : Int) := by simp
  have hpos : 0 < 256 ^ n := Nat.pow_pos (by decide)
  rw [hcast] at hlo hhi
  rw [ofTwos, hcast]
  generalize 256 ^ n = m at hlo hhi hpos ⊢
  by_cases hneg : i < 0
  · have hmod : i % m = i + m := by
      rw [← Int.add_emod_right, Int.emod_eq_of_lt (by omega) (by omega)]
    rw [hmod, if_neg (by omega)]
    omega
  · have hmod : i % m = i := Int.emod_eq_of_lt (by omega) (by omega)
    rw [hmod, if_pos (by omega)]
    omega

theorem get_int {n : Nat} {i : Int} {bs rest : List UInt8} (h : (int n).get bs = some (i, rest)) :
    rest = bs.drop n := by
  obtain ⟨v, hv, -⟩ := get_via h
  simp only [word, readExact, Option.map_eq_some_iff, Option.ite_none_right_eq_some] at hv
  obtain ⟨r, ⟨-, hr⟩, hv⟩ := hv
  cases hr; cases hv; rfl

theorem length_put_int {n : Nat} {i : Int} {w : List UInt8} (h : (int n).put i = some w) : w.length = n := by
  simp only [int, via, word, Option.bind_eq_some_iff, Option.ite_none_right_eq_some, Option.some.injEq] at h
  obtain ⟨v, -, -, rfl⟩ := h
  exact length_be n v

/-- Seven bits to the byte, the low ones first; the high bit is set on all bytes
but the last. -/
def varint : Codec Nat where
  put v := some (putVarint v v)
  get := getVarint
where
  putVarint : Nat → Nat → List UInt8
    | 0, v => [UInt8.ofNat v]
    | fuel + 1, v => if v < 128 then [UInt8.ofNat v] else UInt8.ofNat (v % 128 + 128) :: putVarint fuel (v / 128)
  getVarint : List UInt8 → Option (Nat × List UInt8)
    | [] => none
    | b :: bs => if b < 128 then some (b.toNat, bs) else (getVarint bs).map fun r => (b.toNat % 128 + 128 * r.1, r.2)

theorem getVarint_putVarint {fuel v : Nat} (h : v ≤ fuel) (rest : List UInt8) :
    varint.getVarint (varint.putVarint fuel v ++ rest) = some (v, rest) := by
  induction fuel generalizing v with
  | zero =>
    obtain rfl : v = 0 := by omega
    rfl
  | succ fuel ih =>
    unfold varint.putVarint
    split
    · rename_i hv
      have hb : UInt8.ofNat v < 128 := by simp [UInt8.lt_iff_toNat_lt]; omega
      simp [varint.getVarint, hb]; omega
    · rename_i hv
      have hb : ¬UInt8.ofNat (v % 128 + 128) < 128 := by simp [UInt8.lt_iff_toNat_lt]; omega
      rw [List.cons_append, varint.getVarint, if_neg hb, ih (by omega)]
      simp only [Option.map_some, UInt8.toNat_ofNat']
      congr 2; omega

theorem lawful_varint : varint.Lawful := by
  intro v w rest h
  cases h
  exact getVarint_putVarint (Nat.le_refl v) rest

/-! ## Lengths and texts -/

/-- A length in `n` bytes; `-1` is no value. -/
def len (n : Nat) : Codec (Option Nat) :=
  (int n).via (fun i => if i = -1 then some none else if 0 ≤ i then some (some i.toNat) else none) fun
    | none => some (-1)
    | some k => some k

/-- A length, plus one; `0` is no value. -/
def compactLen : Codec (Option Nat) :=
  varint.via (fun v => some (if v = 0 then none else some (v - 1))) fun
    | none => some 0
    | some k => some (k + 1)

def nullableBytes (len : Codec (Option Nat)) : Codec (Option (List UInt8)) := nullable len List.length bytes

def nullableArray (len : Codec (Option Nat)) (c : Codec α) : Codec (Option (List α)) :=
  nullable len List.length (times c)

def nullableText (len : Codec (Option Nat)) : Codec (Option String) :=
  nullable len (fun s => (utf8 s).length) fun n => (bytes n).via fromUtf8 fun s => some (utf8 s)

theorem lawful_len (n : Nat) : (len n).Lawful := by
  refine (lawful_int n).via fun i o h => ?_
  cases o with
  | none => cases h; rfl
  | some k =>
    cases h
    rw [if_neg (by omega), if_pos (by omega), Int.toNat_natCast]

theorem lawful_compactLen : compactLen.Lawful := by
  refine lawful_varint.via fun v o h => ?_
  cases o <;> cases h <;> rfl

theorem Lawful.nullableBytes {len : Codec (Option Nat)} (h : len.Lawful) : (nullableBytes len).Lawful :=
  h.nullable lawful_bytes

theorem Lawful.nullableArray {len : Codec (Option Nat)} (h : len.Lawful) {c : Codec α} (hc : c.Lawful) :
    (nullableArray len c).Lawful :=
  h.nullable hc.times

theorem Lawful.nullableText {len : Codec (Option Nat)} (h : len.Lawful) : (nullableText len).Lawful := by
  refine h.nullable fun n => (lawful_bytes n).via fun bs s hs => ?_
  cases hs
  exact fromUtf8_utf8 s

/-! ## What was read -/

/-- What is read can be written, with as many bytes. -/
def Sized (c : Codec α) : Prop :=
  ∀ a bs rest, c.get bs = some (a, rest) → ∃ w, c.put a = some w ∧ bs.length = w.length + rest.length

theorem sized_bytes (n : Nat) : (bytes n).Sized := by
  intro a bs rest h
  obtain ⟨rfl, hlen⟩ := readExact_eq_some h
  exact ⟨a, if_pos hlen, List.length_append⟩

theorem sized_fixed (w : List UInt8) : (fixed w).Sized := by
  rintro ⟨⟩ bs rest h
  obtain ⟨r, hr, heq⟩ := Option.map_eq_some_iff.1 h
  cases heq
  obtain ⟨rfl, hlen⟩ := readExact_eq_some hr
  exact ⟨w, rfl, by rw [List.length_append, hlen]⟩

theorem Sized.seq {c : Codec α} {d : Codec β} (hc : c.Sized) (hd : d.Sized) : (c.seq d).Sized := by
  rintro ⟨a, b⟩ bs rest h
  obtain ⟨mid, ha, hb⟩ := get_seq h
  obtain ⟨w₁, hw₁, hlen₁⟩ := hc a bs mid ha
  obtain ⟨w₂, hw₂, hlen₂⟩ := hd b mid rest hb
  refine ⟨w₁ ++ w₂, by simp [Codec.seq, hw₁, hw₂], ?_⟩
  rw [List.length_append]; omega

theorem Sized.via {c : Codec α} (hc : c.Sized) {dec : α → Option β} {enc : β → Option α}
    (h : ∀ a b, dec a = some b → enc b = some a) : (c.via dec enc).Sized := by
  intro b bs rest hb
  obtain ⟨a, ha, hab⟩ := get_via hb
  obtain ⟨w, hw, hlen⟩ := hc a bs rest ha
  exact ⟨w, by simp [Codec.via, h a b hab, hw], hlen⟩

theorem Sized.trail {c : Codec α} (hc : c.Sized) (w : List UInt8) : (trail c w).Sized := by
  refine (hc.seq (sized_fixed w)).via fun x a h => ?_
  cases h; rfl

/-- The body tells its length. -/
theorem Sized.nullable {len : Codec (Option Nat)} (hlen : len.Sized) {length : β → Nat} {body : Nat → Codec β}
    (hbody : ∀ n, (body n).Sized) (hlength : ∀ n b bs rest, (body n).get bs = some (b, rest) → length b = n) :
    (nullable len length body).Sized := by
  intro o bs rest h
  simp only [Codec.nullable, Option.bind_eq_some_iff] at h
  obtain ⟨⟨k, mid⟩, hk, h⟩ := h
  cases k with
  | none =>
    cases h
    exact hlen none bs _ hk
  | some n =>
    obtain ⟨⟨b, rest'⟩, hb, heq⟩ := Option.map_eq_some_iff.1 h
    cases heq
    obtain ⟨w₁, hw₁, hlen₁⟩ := hlen _ bs mid hk
    obtain ⟨w₂, hw₂, hlen₂⟩ := hbody n b mid rest' hb
    obtain rfl := hlength n b mid rest' hb
    refine ⟨w₁ ++ w₂, by simp [Codec.nullable, hw₁, hw₂], ?_⟩
    rw [List.length_append]
    dsimp only
    omega

theorem sized_int (n : Nat) : (int n).Sized := by
  intro i bs rest h
  obtain ⟨v, hv, hi⟩ := get_via h
  obtain ⟨r, hr, heq⟩ := Option.map_eq_some_iff.1 hv
  cases heq; cases hi
  obtain ⟨rfl, hlen⟩ := readExact_eq_some hr
  have hlt : ofBe r.1 < 256 ^ n := hlen ▸ ofBe_lt r.1
  refine ⟨be n (ofBe r.1), ?_, by rw [List.length_append, hlen, length_be]⟩
  have hcast : (256 ^ n : Int) = ((256 ^ n : Nat) : Int) := by simp
  simp only [int, Codec.via, ofTwos, hcast]
  generalize ofBe r.1 = v at hlt
  have hput : (word n).put v = some (be n v) := if_pos hlt
  generalize 256 ^ n = m at hlt ⊢
  split
  · have hmod : (v : Int) % m = v := Int.emod_eq_of_lt (by omega) (by omega)
    rw [if_pos (by omega), hmod, Int.toNat_natCast, Option.bind_some, hput]
  · have hmod : ((v : Int) - m) % m = v := by
      rw [← Int.add_emod_right, Int.sub_add_cancel, Int.emod_eq_of_lt (by omega) (by omega)]
    rw [if_pos (by omega), hmod, Int.toNat_natCast, Option.bind_some, hput]

theorem sized_len (n : Nat) : (len n).Sized := by
  refine (sized_int n).via fun i o h => ?_
  split at h
  · rename_i hi
    cases h
    rw [hi]
  · split at h
    · cases h
      exact congrArg some (Int.toNat_of_nonneg ‹_›)
    · cases h

theorem Sized.nullableText {len : Codec (Option Nat)} (h : len.Sized) : (nullableText len).Sized := by
  refine h.nullable (fun n => (sized_bytes n).via fun bs s hs => ?_) fun n s bs rest hs => ?_
  · rw [fromUtf8_eq_some hs]
  · obtain ⟨a, ha, hs⟩ := get_via hs
    rw [← fromUtf8_eq_some hs]
    exact (readExact_eq_some ha).2

/-! ## How long a value gets -/

/-- The value takes `n` bytes, if it can be written. -/
def Takes (c : Codec α) (a : α) (n : Nat) : Prop := ∀ w, c.put a = some w → w.length = n

theorem takes_of_put {c : Codec α} {a : α} {w : List UInt8} (h : c.put a = some w) : c.Takes a w.length := by
  intro w' h'
  rw [h, Option.some.injEq] at h'
  rw [h']

theorem takes_int (n : Nat) (i : Int) : (int n).Takes i n := fun _ => length_put_int

theorem Takes.seq {c : Codec α} {d : Codec β} {a : α} {b : β} {n m : Nat} (hc : c.Takes a n) (hd : d.Takes b m) :
    (c.seq d).Takes (a, b) (n + m) := by
  intro w h
  simp only [Codec.seq, Option.bind_eq_some_iff, Option.map_eq_some_iff] at h
  obtain ⟨w₁, h₁, w₂, h₂, rfl⟩ := h
  rw [List.length_append, hc w₁ h₁, hd w₂ h₂]

theorem Takes.via {c : Codec α} {dec : α → Option β} {enc : β → Option α} {a : α} {b : β} {n : Nat} (hc : c.Takes a n)
    (h : enc b = some a) : (c.via dec enc).Takes b n := by
  intro w hw
  simp only [Codec.via, h, Option.bind_some] at hw
  exact hc w hw

theorem Takes.lead {c : Codec α} {a : α} {n : Nat} (hc : c.Takes a n) (w : List UInt8) :
    (lead w c).Takes a (w.length + n) :=
  ((takes_of_put (c := fixed w) rfl).seq hc).via rfl

theorem Takes.trail {c : Codec α} {a : α} {n : Nat} (hc : c.Takes a n) (w : List UInt8) :
    (trail c w).Takes a (n + w.length) :=
  (hc.seq (takes_of_put (c := fixed w) rfl)).via rfl

/-- One value behind its length. -/
theorem Takes.singleton {c : Codec α} {len : Codec (Option Nat)} {a : α} {k n : Nat} (hlen : len.Takes (some 1) k)
    (hc : c.Takes a n) : (required (nullableArray len c)).Takes [a] (k + n) := by
  have hzero : (times c 0).Takes [] 0 := takes_of_put (w := []) rfl
  have htimes : (times c 1).Takes [a] (n + 0) := by
    rw [times]
    exact (hc.seq hzero).via rfl
  have harray : (nullableArray len c).Takes (some [a]) (k + n) := by
    intro w h
    simp only [nullableArray, nullable, Option.bind_eq_some_iff, Option.map_eq_some_iff] at h
    obtain ⟨w₁, h₁, w₂, h₂, rfl⟩ := h
    rw [List.length_append, hlen w₁ h₁, htimes w₂ h₂, Nat.add_zero]
  exact harray.via rfl

/-! ## What kind of value is read -/

/-- Every value that is read has the property. -/
def Reads (c : Codec α) (P : α → Prop) : Prop := ∀ a bs rest, c.get bs = some (a, rest) → P a

theorem reads_any (c : Codec α) : c.Reads fun _ => True := fun _ _ _ _ => trivial

theorem Reads.via {c : Codec α} {P : α → Prop} (hc : c.Reads P) {dec : α → Option β} {enc : β → Option α} {Q : β → Prop}
    (h : ∀ a b, P a → dec a = some b → Q b) : (c.via dec enc).Reads Q := by
  intro b bs rest hb
  obtain ⟨a, ha, hab⟩ := get_via hb
  exact h a b (hc a bs rest ha) hab

theorem Reads.seq {c : Codec α} {d : Codec β} {P : α → Prop} {Q : β → Prop} (hc : c.Reads P) (hd : d.Reads Q) :
    (c.seq d).Reads fun x => P x.1 ∧ Q x.2 := by
  rintro ⟨a, b⟩ bs rest h
  obtain ⟨mid, ha, hb⟩ := get_seq h
  exact ⟨hc a bs mid ha, hd b mid rest hb⟩

theorem Reads.lead {c : Codec α} {P : α → Prop} (hc : c.Reads P) (w : List UInt8) : (lead w c).Reads P := by
  refine ((reads_any (fixed w)).seq hc).via fun x a hx h => ?_
  cases h
  exact hx.2

theorem Reads.trail {c : Codec α} {P : α → Prop} (hc : c.Reads P) (w : List UInt8) : (trail c w).Reads P := by
  refine (hc.seq (reads_any (fixed w))).via fun x a hx h => ?_
  cases h
  exact hx.1

theorem Reads.times {c : Codec α} {P : α → Prop} (hc : c.Reads P) (n : Nat) : (times c n).Reads fun as => ∀ a ∈ as, P a := by
  induction n with
  | zero =>
    refine (reads_any (fixed [])).via fun x as _ h => ?_
    cases h
    simp
  | succ n ih =>
    refine (hc.seq ih).via fun x as hx h => ?_
    cases h
    exact List.forall_mem_cons.2 hx

/-- Every element of an array that must be there. -/
theorem Reads.array {c : Codec α} {P : α → Prop} (hc : c.Reads P) (len : Codec (Option Nat)) :
    (required (nullableArray len c)).Reads fun as => ∀ a ∈ as, P a := by
  have harray : (nullableArray len c).Reads fun o => ∀ as, o = some as → ∀ a ∈ as, P a := by
    rintro o bs rest h as rfl
    simp only [nullableArray, nullable, Option.bind_eq_some_iff] at h
    obtain ⟨⟨k, mid⟩, -, h⟩ := h
    cases k with
    | none => cases h
    | some n =>
      obtain ⟨⟨as', rest'⟩, has, heq⟩ := Option.map_eq_some_iff.1 h
      cases heq
      exact hc.times n as' mid rest' has
  exact harray.via fun o as ho h => ho as h

theorem reads_int (n : Nat) : (int n).Reads fun i => -(256 ^ n : Int) ≤ 2 * i ∧ 2 * i < 256 ^ n := by
  intro i bs rest h
  obtain ⟨w, hw, -⟩ := sized_int n i bs rest h
  simp only [int, Codec.via, Option.bind_eq_some_iff, Option.ite_none_right_eq_some] at hw
  obtain ⟨v, ⟨hi, -⟩, -⟩ := hw
  exact hi

end Codec
end Lib
