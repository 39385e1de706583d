import Mathlib.Data.List.Basic
/-!
# Streams of self-delimiting frames

A `Reader` reads one value off the front of its input. `readAll` reads until the
input is used up or a read fails. If the reader inverts an encoder, `readAll`
of encoded values gives them back (`readAll_encoded`). A cut encoding is the
values whose frames are whole, and part of one frame (`take_eq_whole`); a reader
that `Refuses` fails on that part.
-/

namespace Lib

/-- Reads one value and returns the rest of the input. Every read consumes. -/
structure Reader (ε β α : Type) where
  next : List β → Except ε (α × List β)
  shrinks : ∀ {input a rest}, next input = .ok (a, rest) → rest.length < input.length

namespace Reader

variable {ε β α : Type} (R : Reader ε β α)

/-- The values read, in order, and how reading ended. -/
def readAll (input : List β) : List α × Except ε Unit :=
  if input = [] then ([], .ok ())
  else match h : R.next input with
    | .error e => ([], .error e)
    | .ok (a, rest) =>
      have := R.shrinks h
      let r := readAll rest
      (a :: r.1, r.2)
termination_by input.length

@[simp] theorem readAll_nil : R.readAll [] = ([], .ok ()) := by
  rw [readAll]; simp

theorem readAll_ok {input rest : List β} {a : α} (h : R.next input = .ok (a, rest)) :
    R.readAll input = (a :: (R.readAll rest).1, (R.readAll rest).2) := by
  have hne : input ≠ [] := by
    rintro rfl
    exact absurd (R.shrinks h) (by simp)
  rw [readAll, if_neg hne]
  split
  · rename_i e he; rw [h] at he; cases he
  · rename_i a' rest' he; rw [h] at he; cases he; rfl

theorem readAll_error {input : List β} {e : ε} (hne : input ≠ []) (h : R.next input = .error e) :
    R.readAll input = ([], .error e) := by
  rw [readAll, if_neg hne]
  split
  · rename_i e' he; rw [h] at he; cases he; rfl
  · rename_i a' rest' he; rw [h] at he; cases he

/-- What holds of every value the reader can return holds of all values read. -/
theorem readAll_forall {Q : α → Prop} (hQ : ∀ input a rest, R.next input = .ok (a, rest) → Q a) (input : List β) :
    ∀ a ∈ (R.readAll input).1, Q a := by
  induction h : input.length using Nat.strongRecOn generalizing input with
  | _ n ih =>
    by_cases hnil : input = []
    · subst hnil; simp
    cases hnext : R.next input with
    | error e => rw [R.readAll_error hnil hnext]; simp
    | ok r =>
      rw [R.readAll_ok hnext]
      intro a ha
      rcases List.mem_cons.1 ha with rfl | ha
      · exact hQ _ _ _ hnext
      · exact ih _ (h ▸ R.shrinks hnext) r.2 rfl a ha

/-! ## Whole frames -/

section Encoder
variable {γ : Type} (enc : γ → List β) (val : γ → α) (P : γ → Prop)

/-- On values satisfying `P`, the reader inverts `enc`, whatever follows. -/
def Decodes : Prop := ∀ c rest, P c → R.next (enc c ++ rest) = .ok (val c, rest)

/-- The reader fails on every frame that is cut short. -/
def Refuses : Prop := ∀ c p, P c → p <+: enc c → p ≠ [] → p ≠ enc c → ∃ e, R.next p = .error e

variable {R enc val P}

theorem readAll_encoded (hd : R.Decodes enc val P) {cs : List γ} (hcs : ∀ c ∈ cs, P c) (rest : List β) :
    R.readAll (cs.flatMap enc ++ rest) = (cs.map val ++ (R.readAll rest).1, (R.readAll rest).2) := by
  induction cs with
  | nil => simp
  | cons c cs ih =>
    rw [List.flatMap_cons, List.append_assoc, R.readAll_ok (hd c _ (hcs c (by simp))),
      ih fun c' hc' => hcs c' (by simp [hc'])]
    simp

/-! ## Any input -/

variable (R enc val P) in
/-- What is read was encoded. -/
def Sound : Prop :=
  ∀ input a rest, R.next input = .ok (a, rest) → ∃ c, P c ∧ a = val c ∧ input = enc c ++ rest

variable (enc P) in
/-- The rest does not start with a frame. -/
def Stuck (rest : List β) : Prop := ∀ c, P c → ¬ enc c <+: rest

/-- Every input is some frames and a rest that starts with none. -/
theorem exists_maximal (hd : R.Decodes enc val P) (hs : R.Sound enc val P) (input : List β) :
    ∃ (cs : List γ) (rest : List β), (∀ c ∈ cs, P c) ∧ input = cs.flatMap enc ++ rest ∧ Stuck enc P rest := by
  induction h : input.length using Nat.strongRecOn generalizing input with
  | _ n ih =>
    cases hnext : R.next input with
    | error e =>
      refine ⟨[], input, by simp, rfl, ?_⟩
      rintro c hc ⟨rest, rfl⟩
      rw [hd c rest hc] at hnext
      cases hnext
    | ok r =>
      obtain ⟨a, rest⟩ := r
      obtain ⟨c, hc, rfl, rfl⟩ := hs _ _ _ hnext
      obtain ⟨cs, rest', hcs, rfl, hstuck⟩ := ih rest.length (h ▸ R.shrinks hnext) rest rfl
      exact ⟨c :: cs, rest', List.forall_mem_cons.2 ⟨hc, hcs⟩, by simp, hstuck⟩

/-- The reader reads exactly these frames, and succeeds if there is no rest. -/
theorem readAll_maximal (hd : R.Decodes enc val P) (hs : R.Sound enc val P) {cs : List γ} (hcs : ∀ c ∈ cs, P c)
    {rest : List β} (hstuck : Stuck enc P rest) :
    (R.readAll (cs.flatMap enc ++ rest)).1 = cs.map val ∧
      ((R.readAll (cs.flatMap enc ++ rest)).2 = .ok () ↔ rest = []) := by
  rw [readAll_encoded hd hcs]
  by_cases hnil : rest = []
  · simp [hnil]
  cases hnext : R.next rest with
  | error e => simp [readAll_error R hnil hnext, hnil]
  | ok r =>
    obtain ⟨c, hc, -, hrest⟩ := hs _ _ _ hnext
    exact absurd ⟨_, hrest.symm⟩ (hstuck c hc)

/-! ## Cut streams -/

variable (enc) in
/-- The values whose frames lie wholly inside the first `n` bytes. -/
def whole : List γ → Nat → List γ
  | [], _ => []
  | c :: cs, n => if (enc c).length ≤ n then c :: whole cs (n - (enc c).length) else []

theorem whole_isPrefix (cs : List γ) (n : Nat) : whole enc cs n <+: cs := by
  induction cs generalizing n with
  | nil => simp [whole]
  | cons c cs ih =>
    unfold whole
    split
    · exact (List.prefix_cons_inj c).2 (ih _)
    · exact List.nil_prefix

variable (enc) in
/-- What a cut leaves after the whole frames is a proper prefix of the next one. -/
theorem take_eq_whole (cs : List γ) (n : Nat) :
    ∃ torn, (cs.flatMap enc).take n = (whole enc cs n).flatMap enc ++ torn ∧
      (torn = [] ∨ ∃ c ∈ cs, torn <+: enc c ∧ torn ≠ enc c) := by
  induction cs generalizing n with
  | nil => exact ⟨[], by simp [whole], .inl rfl⟩
  | cons c cs ih =>
    unfold whole
    split
    · rename_i hn
      obtain ⟨torn, ht, hor⟩ := ih (n - (enc c).length)
      refine ⟨torn, ?_, hor.imp_right fun ⟨c', hc', h⟩ => ⟨c', by simp [hc'], h⟩⟩
      rw [List.flatMap_cons, List.take_append, List.take_of_length_le hn, ht]
      simp
    · rename_i hn
      refine ⟨(enc c).take n, ?_, .inr ⟨c, by simp, List.take_prefix _ _, fun he => ?_⟩⟩
      · rw [List.flatMap_cons, List.take_append_of_le_length (by omega)]; simp
      · have := congrArg List.length he
        simp only [List.length_take] at this
        omega

end Encoder
end Reader
end Lib
