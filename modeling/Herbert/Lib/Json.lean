import Mathlib.Data.List.Basic
import Mathlib.Algebra.GroupWithZero.Nat
/-!
# Flat JSON objects

Objects whose values are integers, as bytes: `{"name":1,"other":-2}` without
blanks. Quotes and backslashes in names are escaped. `scan` reads an object byte
by byte and stops behind its closing brace, so bytes that follow do not matter
(`scan_append`). `decode` gives back the fields (`decode_encode`) and takes no
object that is cut short (`decode_prefix`).
-/

namespace Lib.Json

abbrev Field := List UInt8 × Int

/-! ## Writing -/

def escape (name : List UInt8) : List UInt8 := name.flatMap fun b => if b = 34 ∨ b = 92 then [92, b] else [b]

/-- The last digits of `n`, at most `k` of them. -/
def digits : Nat → Nat → List UInt8
  | 0, _ => []
  | k + 1, n => if n < 10 then [UInt8.ofNat (48 + n)] else digits k (n / 10) ++ [UInt8.ofNat (48 + n % 10)]

def number (z : Int) : List UInt8 :=
  if z < 0 then 45 :: digits (z.natAbs + 1) z.natAbs else digits (z.natAbs + 1) z.natAbs

def field (f : Field) : List UInt8 := 34 :: (escape f.1 ++ 34 :: 58 :: number f.2)

/-- Every field behind a comma, up to the closing brace. -/
def more : List Field → List UInt8
  | [] => [125]
  | f :: fs => 44 :: (field f ++ more fs)

def encode : List Field → List UInt8
  | [] => [123, 125]
  | f :: fs => 123 :: (field f ++ more fs)

/-! ## Reading -/

/-- What comes next. -/
inductive Expect where
  | opening
  | first
  | next
  | name (read : List UInt8)
  | escaped (read : List UInt8)
  | colon (name : List UInt8)
  | value (name : List UInt8)
  | minus (name : List UInt8)
  | digit (name : List UInt8) (negative : Bool) (read : Nat)

def digit? (b : UInt8) : Option Nat := if 48 ≤ b.toNat ∧ b.toNat ≤ 57 then some (b.toNat - 48) else none

def signed (negative : Bool) (n : Nat) : Int := if negative then -n else n

/-- A byte finishes the object, or says what comes next. -/
def step (fs : List Field) : Expect → UInt8 → Option (List Field × Option Expect)
  | .opening, b => if b = 123 then some (fs, some .first) else none
  | .first, b => if b = 34 then some (fs, some (.name [])) else if b = 125 then some (fs, none) else none
  | .next, b => if b = 34 then some (fs, some (.name [])) else none
  | .name read, b =>
    if b = 34 then some (fs, some (.colon read))
    else if b = 92 then some (fs, some (.escaped read))
    else some (fs, some (.name (read ++ [b])))
  | .escaped read, b => if b = 34 ∨ b = 92 then some (fs, some (.name (read ++ [b]))) else none
  | .colon name, b => if b = 58 then some (fs, some (.value name)) else none
  | .value name, b => if b = 45 then some (fs, some (.minus name)) else (digit? b).map fun d => (fs, some (.digit name false d))
  | .minus name, b => (digit? b).map fun d => (fs, some (.digit name true d))
  | .digit name negative read, b =>
    if b = 44 then some (fs ++ [(name, signed negative read)], some .next)
    else if b = 125 then some (fs ++ [(name, signed negative read)], none)
    else (digit? b).map fun d => (fs, some (.digit name negative (10 * read + d)))

/-- The fields of the object, and the bytes behind it. -/
def scan (fs : List Field) (e : Expect) : List UInt8 → Option (List Field × List UInt8)
  | [] => none
  | b :: bs =>
    match step fs e b with
    | none => none
    | some (fs, none) => some (fs, bs)
    | some (fs, some e) => scan fs e bs

def decode (text : List UInt8) : Option (List Field) :=
  match scan [] .opening text with
  | some (fs, []) => some fs
  | _ => none

/-! ## Round trip -/

variable {fs fs' : List Field} {e e' : Expect} {b : UInt8}

theorem scan_next (h : step fs e b = some (fs', some e')) (bs : List UInt8) : scan fs e (b :: bs) = scan fs' e' bs := by
  rw [scan, h]

theorem scan_last (h : step fs e b = some (fs', none)) (bs : List UInt8) : scan fs e (b :: bs) = some (fs', bs) := by
  rw [scan, h]

/-- What follows the object is left over. -/
theorem scan_append {bs rest : List UInt8} (h : scan fs e bs = some (fs', rest)) (tail : List UInt8) :
    scan fs e (bs ++ tail) = some (fs', rest ++ tail) := by
  induction bs generalizing fs e with
  | nil => cases h
  | cons b bs ih =>
    rw [scan] at h
    rw [List.cons_append, scan]
    split at h
    · cases h
    · cases h; rfl
    · exact ih h

theorem scan_name (read name tail : List UInt8) :
    scan fs (.name read) (escape name ++ 34 :: tail) = scan fs (.colon (read ++ name)) tail := by
  induction name generalizing read with
  | nil => rw [List.append_nil]; exact scan_next rfl tail
  | cons b name ih =>
    have hrest := ih (read ++ [b])
    rw [List.append_assoc, List.singleton_append] at hrest
    rw [escape, List.flatMap_cons, ← escape]
    by_cases hb : b = 34 ∨ b = 92
    · have hescaped : step fs (.escaped read) b = some (fs, some (.name (read ++ [b]))) := if_pos hb
      have hslash : step fs (.name read) 92 = some (fs, some (.escaped read)) := rfl
      rw [if_pos hb, List.cons_append, List.cons_append, scan_next hslash]
      exact (scan_next hescaped _).trans hrest
    · have hplain : step fs (.name read) b = some (fs, some (.name (read ++ [b]))) := by
        rw [not_or] at hb
        rw [step, if_neg hb.1, if_neg hb.2]
      rw [if_neg hb]
      exact (scan_next hplain _).trans hrest

theorem digit?_ofNat {d : Nat} (h : d < 10) : digit? (UInt8.ofNat (48 + d)) = some d := by
  unfold digit?
  rw [UInt8.toNat_ofNat', Nat.mod_eq_of_lt (by omega), if_pos (by omega)]
  congr 1
  omega

theorem digit_ne {d : Nat} (h : d < 10) (hb : b.toNat < 48 ∨ 57 < b.toNat) : UInt8.ofNat (48 + d) ≠ b := by
  rintro rfl
  rw [UInt8.toNat_ofNat', Nat.mod_eq_of_lt (by omega)] at hb
  omega

/-- From where a digit is expected, the digits are read. -/
theorem scan_digits {name : List UInt8} {negative : Bool}
    (he : ∀ d < 10, step fs e (UInt8.ofNat (48 + d)) = some (fs, some (.digit name negative d))) {k n : Nat} (h : n < k)
    (tail : List UInt8) : scan fs e (digits k n ++ tail) = scan fs (.digit name negative n) tail := by
  induction k generalizing n tail with
  | zero => omega
  | succ k ih =>
    unfold digits
    split
    · rename_i hn
      exact scan_next (he n hn) tail
    · rename_i hn
      have hd : n % 10 < 10 := Nat.mod_lt _ (by omega)
      have hlast : step fs (.digit name negative (n / 10)) (UInt8.ofNat (48 + n % 10)) =
          some (fs, some (.digit name negative n)) := by
        rw [step, if_neg (digit_ne hd (by decide)), if_neg (digit_ne hd (by decide)), digit?_ofNat hd, Option.map_some,
          Nat.div_add_mod]
      rw [List.append_assoc, ih (by omega)]
      exact scan_next hlast tail

theorem scan_number (name : List UInt8) (z : Int) (tail : List UInt8) :
    scan fs (.value name) (number z ++ tail) = scan fs (.digit name (z < 0) z.natAbs) tail := by
  have hlt : z.natAbs < z.natAbs + 1 := Nat.lt_succ_self _
  unfold number
  split
  · rename_i hz
    rw [List.cons_append, scan_next (show step fs (.value name) 45 = some (fs, some (.minus name)) from rfl),
      decide_eq_true hz]
    refine scan_digits (fun d hd => ?_) hlt tail
    rw [step, digit?_ofNat hd, Option.map_some]
  · rename_i hz
    rw [decide_eq_false hz]
    refine scan_digits (fun d hd => ?_) hlt tail
    rw [step, if_neg (digit_ne hd (by decide)), digit?_ofNat hd, Option.map_some]

/-- A field is read up to the byte behind its value. -/
theorem scan_field (he : step fs e 34 = some (fs, some (.name []))) (f : Field) (tail : List UInt8) :
    scan fs e (field f ++ tail) = scan fs (.digit f.1 (f.2 < 0) f.2.natAbs) tail := by
  rw [field, List.cons_append, scan_next he, List.append_assoc, List.cons_append, List.cons_append, scan_name,
    List.nil_append, scan_next (show step fs (.colon f.1) 58 = some (fs, some (.value f.1)) from rfl), scan_number]

theorem signed_natAbs (z : Int) : signed (z < 0) z.natAbs = z := by
  unfold signed
  by_cases hz : z < 0
  · rw [decide_eq_true hz, if_pos rfl]; omega
  · rw [decide_eq_false hz, if_neg Bool.false_ne_true]; omega

theorem scan_more (f : Field) (gs : List Field) :
    scan fs (.digit f.1 (f.2 < 0) f.2.natAbs) (more gs) = some (fs ++ f :: gs, []) := by
  have hf : (f.1, signed (f.2 < 0) f.2.natAbs) = f := by rw [signed_natAbs]
  induction gs generalizing fs f with
  | nil =>
    rw [more, scan_last rfl, hf]
  | cons g gs ih =>
    have hg : (g.1, signed (g.2 < 0) g.2.natAbs) = g := by rw [signed_natAbs]
    rw [more, scan_next rfl, hf, scan_field rfl, ih g hg, List.append_assoc, List.singleton_append]

theorem scan_encode (fs : List Field) : scan [] .opening (encode fs) = some (fs, []) := by
  cases fs with
  | nil => rfl
  | cons f fs =>
    rw [encode, scan_next rfl, scan_field rfl, scan_more, List.nil_append]

theorem decode_encode (fs : List Field) : decode (encode fs) = some fs := by
  rw [decode, scan_encode]

/-- An object that is cut short is not one. -/
theorem decode_prefix {p : List UInt8} (hp : p <+: encode fs) (hne : p ≠ encode fs) : decode p = none := by
  obtain ⟨tail, ht⟩ := hp
  unfold decode
  split
  · rename_i fs' h
    have hwhole := scan_append h tail
    rw [ht, scan_encode, List.nil_append] at hwhole
    simp only [Option.some.injEq, Prod.mk.injEq] at hwhole
    refine absurd ?_ hne
    rw [← ht, ← hwhole.2, List.append_nil]
  · rfl

end Lib.Json
