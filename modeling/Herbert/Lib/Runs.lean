import Mathlib.Logic.Function.Basic
/-!
# Runs of a step function

A system of concurrent parties is a partial step function `step`: the label
says which party moves, and `none` says that it cannot move now. A theorem
about every `Run` then holds for every interleaving.

`Run.inv` is the invariant rule. `Run.inv_while` is the same rule for runs whose
steps all meet a side condition, and `Run.iff_while` says when such a
condition is exact. `Run.length_le` bounds the runs of a system whose steps use up
a measure. `Run.simulate` takes the runs of one system to another, and `Run.beside`
puts the two side by side.
-/

namespace Lib.Runs

variable {S L : Type}

/-- Runs of `step` from `s₀`: every fired label with the state it fired in, and
the state after them. -/
inductive Run (step : S → L → Option S) (s₀ : S) : List (S × L) → S → Prop
  | nil : Run step s₀ [] s₀
  | snoc {tr s l s'} : Run step s₀ tr s → step s l = some s' → Run step s₀ (tr ++ [(s, l)]) s'

/-- Some run ends in `s`. -/
def Reachable (step : S → L → Option S) (s₀ s : S) : Prop := ∃ tr, Run step s₀ tr s

/-- Every step of the trace meets `C`. -/
def Always (C : S → L → Prop) (tr : List (S × L)) : Prop := ∀ x ∈ tr, C x.1 x.2

variable {step : S → L → Option S} {s₀ s : S} {tr : List (S × L)} {C : S → L → Prop}

@[simp] theorem always_nil : Always C ([] : List (S × L)) := by simp [Always]

@[simp] theorem always_snoc {l : L} : Always C (tr ++ [(s, l)]) ↔ Always C tr ∧ C s l := by
  simp [Always, or_imp, forall_and]

/-! ## Invariants -/

/-- What every step that meets `C` keeps, every run whose steps meet `C` keeps. -/
theorem Run.inv_while (I : S → Prop) (h0 : I s₀) (hs : ∀ s l s', I s → C s l → step s l = some s' → I s')
    (h : Run step s₀ tr s) (hc : Always C tr) : I s := by
  induction h with
  | nil => exact h0
  | snoc _ ht ih =>
    rw [always_snoc] at hc
    exact hs _ _ _ (ih hc.1) hc.2 ht

/-- What every step keeps, every run keeps. -/
theorem Run.inv (I : S → Prop) (h0 : I s₀) (hs : ∀ s l s', I s → step s l = some s' → I s')
    (h : Run step s₀ tr s) : I s :=
  h.inv_while (C := fun _ _ => True) I h0 (fun s l s' hi _ => hs s l s' hi) (fun _ _ => trivial)

/-- `P` holds in every state the run passes through, its last one included. -/
def Throughout (P : S → Prop) (tr : List (S × L)) (s : S) : Prop := (∀ x ∈ tr, P x.1) ∧ P s

/-- What no step gets back, a run that has it in the end had throughout. -/
theorem Run.throughout (I P : S → Prop) (h0 : I s₀) (hs : ∀ s l s', I s → step s l = some s' → I s')
    (hback : ∀ s l s', I s → step s l = some s' → P s' → P s) (h : Run step s₀ tr s) (hp : P s) :
    Throughout P tr s := by
  refine ⟨?_, hp⟩
  induction h with
  | nil => simp
  | @snoc tr s l s' hr ht ih =>
    have hbefore := hback s l s' (hr.inv I h0 hs) ht hp
    simpa [or_imp, forall_and, hbefore] using ih hbefore

/-- A side condition is exact when, from a good state, a step ends in a good
state if and only if it meets the condition. -/
theorem Run.iff_while (I P : S → Prop) (h0 : I s₀) (hs : ∀ s l s', I s → step s l = some s' → I s')
    (hp : P s₀) (hiff : ∀ s l s', I s → P s → step s l = some s' → (P s' ↔ C s l))
    (h : Run step s₀ tr s) : Throughout P tr s ↔ Always C tr := by
  induction h with
  | nil => simp [Throughout, hp]
  | @snoc tr s l s' hr ht ih =>
    have hsplit : Throughout P (tr ++ [(s, l)]) s' ↔ Throughout P tr s ∧ P s' := by
      simp [Throughout, or_imp, forall_and, and_assoc]
    rw [hsplit, always_snoc, ← ih]
    exact and_congr_right fun hth => hiff s l s' (hr.inv I h0 hs) hth.2 ht

/-- A run has at most as many steps as its measure at the start. -/
theorem Run.length_le (I : S → Prop) (μ : S → Nat) (h0 : I s₀) (hs : ∀ s l s', I s → step s l = some s' → I s')
    (hμ : ∀ s l s', I s → step s l = some s' → μ s' < μ s) (h : Run step s₀ tr s) : tr.length + μ s ≤ μ s₀ := by
  induction h with
  | nil => simp
  | @snoc tr s l s' hr ht ih =>
    have hless := hμ s l s' (hr.inv I h0 hs) ht
    rw [List.length_append, List.length_singleton]
    omega

/-! ## Simulation -/

/-- A run of one system is a run of another when every step is a step there or
changes nothing. `C` and `D` are side conditions on the steps of the two, and `I`
an invariant of the first. -/
theorem Run.simulate {T M : Type} {step' : T → M → Option T} {D : T → M → Prop} (f : S → T) (I : S → Prop)
    (h0 : I s₀) (hs : ∀ s l s', I s → step s l = some s' → I s')
    (hsim : ∀ s l s', I s → C s l → step s l = some s' →
      f s' = f s ∨ ∃ l', D (f s) l' ∧ step' (f s) l' = some (f s'))
    (h : Run step s₀ tr s) (hc : Always C tr) : ∃ tr', Run step' (f s₀) tr' (f s) ∧ Always D tr' := by
  induction h with
  | nil => exact ⟨[], .nil, always_nil⟩
  | snoc hr ht ih =>
    rw [always_snoc] at hc
    obtain ⟨tr', hr', hd⟩ := ih hc.1
    rcases hsim _ _ _ (hr.inv I h0 hs) hc.2 ht with hsame | ⟨l', hl', ht'⟩
    · exact ⟨tr', hsame ▸ hr', hd⟩
    · exact ⟨_, hr'.snoc ht', always_snoc.2 ⟨hd, hl'⟩⟩

/-- Every step is the step of the other system with the same label. -/
theorem Run.map {T : Type} {step' : T → L → Option T} (f : S → T) (I : S → Prop) (h0 : I s₀)
    (hsim : ∀ s l s', I s → C s l → step s l = some s' → I s' ∧ step' (f s) l = some (f s'))
    (h : Run step s₀ tr s) (hc : Always C tr) : I s ∧ Run step' (f s₀) (tr.map fun x => (f x.1, x.2)) (f s) := by
  induction h with
  | nil => exact ⟨h0, .nil⟩
  | snoc hr ht ih =>
    rw [always_snoc] at hc
    obtain ⟨hi, hr'⟩ := ih hc.1
    obtain ⟨hi', ht'⟩ := hsim _ _ _ hi hc.2 ht
    rw [List.map_append]
    exact ⟨hi', hr'.snoc ht'⟩

/-! ## Running a schedule -/

/-- Fire the labels in order. -/
def exec (step : S → L → Option S) : S → List L → Option S
  | s, [] => some s
  | s, l :: ls => (step s l).bind (exec step · ls)

/-- Steps after a run extend it. -/
theorem Run.exec {ls : List L} {s' : S} (h : Run step s₀ tr s) (he : exec step s ls = some s') :
    ∃ tr', Run step s₀ (tr ++ tr') s' ∧ tr'.map (·.2) = ls := by
  induction ls generalizing tr s with
  | nil =>
    simp only [Runs.exec, Option.some.injEq] at he
    subst he
    exact ⟨[], by simpa using h, rfl⟩
  | cons l ls ih =>
    simp only [Runs.exec, Option.bind_eq_some_iff] at he
    obtain ⟨s₁, h₁, h₂⟩ := he
    obtain ⟨tr', hr, hm⟩ := ih (h.snoc h₁) h₂
    exact ⟨(s, l) :: tr', by simpa using hr, by simp [hm]⟩

/-- Fire the labels in order, as long as they meet `C`. -/
def execWhile (step : S → L → Option S) (C : S → L → Prop) [∀ s l, Decidable (C s l)] : S → List L → Option S
  | s, [] => some s
  | s, l :: ls => if C s l then (step s l).bind (execWhile step C · ls) else none

/-- A schedule that meets `C` is a run that does. -/
theorem run_execWhile [∀ s l, Decidable (C s l)] {ls : List L} {s' : S} (h : Run step s₀ tr s) (hc : Always C tr)
    (he : execWhile step C s ls = some s') : ∃ tr', Run step s₀ tr' s' ∧ Always C tr' := by
  induction ls generalizing tr s with
  | nil =>
    cases he
    exact ⟨tr, h, hc⟩
  | cons l ls ih =>
    rw [execWhile, Option.ite_none_right_eq_some, Option.bind_eq_some_iff] at he
    obtain ⟨hl, s₁, h₁, h₂⟩ := he
    exact ih (h.snoc h₁) (always_snoc.2 ⟨hc, hl⟩) h₂

theorem Reachable.exec {ls : List L} {s' : S} (h : Reachable step s₀ s) (he : exec step s ls = some s') :
    Reachable step s₀ s' := by
  obtain ⟨tr, hr⟩ := h
  obtain ⟨tr', hr', -⟩ := hr.exec he
  exact ⟨_, hr'⟩

theorem reachable_exec {ls : List L} {s' : S} (he : exec step s₀ ls = some s') : Reachable step s₀ s' :=
  Reachable.exec ⟨[], .nil⟩ he

theorem exec_append (s : S) (ls ls' : List L) :
    exec step s (ls ++ ls') = (exec step s ls).bind (exec step · ls') := by
  induction ls generalizing s with
  | nil => rfl
  | cons l ls ih =>
    simp only [List.cons_append, exec, Option.bind_assoc]
    congr 1
    funext s₁
    exact ih s₁

/-! ## Side by side -/

variable {T M : Type} {step' : T → M → Option T} {t₀ : T}

variable (step step') in
/-- Two systems at once: with every step of the first the second takes some. -/
def beside (x : S × T) (l : L × List M) : Option (S × T) :=
  (step x.1 l.1).bind fun s => (exec step' x.2 l.2).map fun t => (s, t)

/-- A simulation goes beside a run: it relates the two systems in every state
they pass through, and the steps they take there. `C` is a side condition on the
steps. -/
theorem Run.beside_while (R : S → T → Prop) (V : S → T → L → List M → Prop) (h0 : R s₀ t₀)
    (hsim : ∀ s t l s', R s t → C s l → step s l = some s' →
      ∃ ls t', Runs.exec step' t ls = some t' ∧ V s t l ls ∧ R s' t') (h : Run step s₀ tr s) (hc : Always C tr) :
    ∃ both t, Run (Runs.beside step step') (s₀, t₀) both (s, t) ∧ both.map (fun x => (x.1.1, x.2.1)) = tr ∧
      Always (fun x l => V x.1 x.2 l.1 l.2) both ∧ Throughout (fun x => R x.1 x.2) both (s, t) := by
  induction h with
  | nil => exact ⟨[], t₀, .nil, rfl, always_nil, by simp, h0⟩
  | @snoc tr s l s' hr ht ih =>
    rw [always_snoc] at hc
    obtain ⟨both, t, hboth, hfirst, hv, hpast, hrel⟩ := ih hc.1
    obtain ⟨ls, t', he, hvl, hrel'⟩ := hsim s t l s' hrel hc.2 ht
    have hstep : Runs.beside step step' (s, t) (l, ls) = some (s', t') := by
      simp only [Runs.beside, ht, he, Option.bind_some, Option.map_some]
    refine ⟨both ++ [((s, t), (l, ls))], t', hboth.snoc hstep, ?_, always_snoc.2 ⟨hv, hvl⟩, ?_, hrel'⟩
    · rw [List.map_append, hfirst]
      rfl
    · intro x hx
      rcases List.mem_append.1 hx with hx | hx
      · exact hpast x hx
      · rw [List.mem_singleton] at hx
        exact hx ▸ hrel

theorem Run.beside (R : S → T → Prop) (V : S → T → L → List M → Prop) (h0 : R s₀ t₀)
    (hsim : ∀ s t l s', R s t → step s l = some s' →
      ∃ ls t', Runs.exec step' t ls = some t' ∧ V s t l ls ∧ R s' t') (h : Run step s₀ tr s) :
    ∃ both t, Run (Runs.beside step step') (s₀, t₀) both (s, t) ∧ both.map (fun x => (x.1.1, x.2.1)) = tr ∧
      Always (fun x l => V x.1 x.2 l.1 l.2) both ∧ Throughout (fun x => R x.1 x.2) both (s, t) :=
  h.beside_while (C := fun _ _ => True) R V h0 (fun s t l s' hrel _ => hsim s t l s' hrel) fun _ _ => trivial

end Lib.Runs
