import Herbert.Lib.Runs
import Mathlib.Data.List.Nodup
/-!
# Calls that take effect one after the other

An object is known by what one call does to it, `apply`. Concurrent calls on it
are linearizable if there is one order of them, with the answers of the object
in this order, in which no call stands before another one that was answered
before it began (`Linear`).

`Run.linear` proves it by simulation: `Rel` ties a state to one of the object, in
which some calls have taken effect, and a step lets any number of them do so.
-/
open Lib.Runs

namespace Lib.Atomic

variable {ι C O R : Type}

/-! ## One after the other -/

section
variable (apply : C → O → R × O) (calls : ι → C)

/-- The object after the calls. -/
def after (o : O) (order : List ι) : O := order.foldl (fun o i => (apply (calls i) o).2) o

@[simp] theorem after_nil (o : O) : after apply calls o [] = o := rfl

@[simp] theorem after_snoc (o : O) (order : List ι) (i : ι) :
    after apply calls o (order ++ [i]) = (apply (calls i) (after apply calls o order)).2 := by
  simp [after]

/-- `i` is in the order, and `r` is its answer there. -/
def Answered (o : O) (order : List ι) (i : ι) (r : R) : Prop :=
  ∃ front back, order = front ++ i :: back ∧ r = (apply (calls i) (after apply calls o front)).1

/-- The object with the answers of the calls that have taken effect. -/
structure State (ι O R : Type) where
  obj : O
  answer : ι → Option R

def start (o : O) : State ι O R := ⟨o, fun _ => none⟩

variable [DecidableEq ι]

/-- Call `i` takes effect. -/
def effect (a : State ι O R) (i : ι) : State ι O R where
  obj := (apply (calls i) a.obj).2
  answer := Function.update a.answer i (some (apply (calls i) a.obj).1)

/-- A call takes effect once. -/
def step (a : State ι O R) (i : ι) : Option (State ι O R) :=
  if (a.answer i).isNone then some (effect apply calls a i) else none

end

section
variable {apply : C → O → R × O} {calls : ι → C} {o : O} {order : List ι} {a : State ι O R} {i j : ι} {r : R}

theorem Answered.mem (h : Answered apply calls o order i r) : i ∈ order := by
  obtain ⟨front, back, rfl, -⟩ := h
  simp

theorem Answered.append (h : Answered apply calls o order i r) (tail : List ι) :
    Answered apply calls o (order ++ tail) i r := by
  obtain ⟨front, back, rfl, hr⟩ := h
  exact ⟨front, back ++ tail, by simp, hr⟩

theorem answered_last : Answered apply calls o (order ++ [i]) i (apply (calls i) (after apply calls o order)).1 :=
  ⟨order, [], rfl, rfl⟩

theorem step_eq_some [DecidableEq ι] {a' : State ι O R} (ha : a.answer i = none) (heff : a' = effect apply calls a i) :
    step apply calls a i = some a' := by
  rw [step, ha, heff]
  rfl

/-- The calls in `order` have taken effect, one after the other. -/
structure Effects (apply : C → O → R × O) (calls : ι → C) (o : O) (order : List ι) (a : State ι O R) : Prop where
  nodup : order.Nodup
  obj : a.obj = after apply calls o order
  answered : ∀ i r, a.answer i = some r → Answered apply calls o order i r
  pending : ∀ i, a.answer i = none → i ∉ order

theorem effects_start (apply : C → O → R × O) (calls : ι → C) (o : O) : Effects apply calls o [] (start o) where
  nodup := List.nodup_nil
  obj := rfl
  answered := by simp [start]
  pending := by simp

variable [DecidableEq ι]

@[simp] theorem answer_effect_self : (effect apply calls a i).answer i = some (apply (calls i) a.obj).1 :=
  Function.update_self _ _ _

theorem answer_effect_ne (h : j ≠ i) : (effect apply calls a i).answer j = a.answer j := Function.update_of_ne h _ _

theorem Effects.effect (h : Effects apply calls o order a) (hi : a.answer i = none) :
    Effects apply calls o (order ++ [i]) (effect apply calls a i) where
  nodup := by
    rw [List.nodup_append]
    refine ⟨h.nodup, by simp, ?_⟩
    rintro j hj k hk rfl
    rw [List.mem_singleton] at hk
    exact h.pending i hi (hk ▸ hj)
  obj := by simp [Atomic.effect, h.obj]
  answered j r hj := by
    by_cases hji : j = i
    · subst hji
      simp only [Atomic.effect, Function.update_self, Option.some.injEq] at hj
      rw [← hj, h.obj]
      exact answered_last
    · simp only [Atomic.effect, Function.update_of_ne hji] at hj
      exact (h.answered j r hj).append _
  pending j hj := by
    by_cases hji : j = i
    · subst hji
      simp [Atomic.effect] at hj
    · simp only [Atomic.effect, Function.update_of_ne hji] at hj
      simp [h.pending j hj, hji]

theorem step_eq_some_iff {a' : State ι O R} :
    step apply calls a i = some a' ↔ a.answer i = none ∧ a' = effect apply calls a i := by
  rw [step, Option.ite_none_right_eq_some, Option.isNone_iff_eq_none, Option.some.injEq, eq_comm (a := a')]

/-- What `exec` fires is an order in which the calls take effect. -/
theorem Effects.exec (h : Effects apply calls o order a) {ls : List ι} {a' : State ι O R}
    (he : Runs.exec (step apply calls) a ls = some a') : Effects apply calls o (order ++ ls) a' := by
  induction ls generalizing order a with
  | nil =>
    cases he
    simpa using h
  | cons i ls ih =>
    rw [Runs.exec, Option.bind_eq_some_iff] at he
    obtain ⟨a₁, h₁, h₂⟩ := he
    obtain ⟨hi, rfl⟩ := step_eq_some_iff.1 h₁
    simpa using ih (h.effect hi) h₂

/-- An answer is final. -/
theorem answer_exec {ls : List ι} {a' : State ι O R} (h : exec (step apply calls) a ls = some a')
    (hi : a.answer i = some r) : a'.answer i = some r := by
  induction ls generalizing a with
  | nil =>
    cases h
    exact hi
  | cons j ls ih =>
    rw [exec, Option.bind_eq_some_iff] at h
    obtain ⟨a₁, h₁, h₂⟩ := h
    obtain ⟨hj, rfl⟩ := step_eq_some_iff.1 h₁
    refine ih h₂ ?_
    have hij : i ≠ j := by
      rintro rfl
      rw [hi] at hj
      cases hj
    exact (Function.update_of_ne hij _ _).trans hi

/-- A call that is not fired has no answer. -/
theorem answer_of_notMem {ls : List ι} {a' : State ι O R} (h : exec (step apply calls) a ls = some a') (hi : i ∉ ls) :
    a'.answer i = a.answer i := by
  induction ls generalizing a with
  | nil =>
    cases h
    rfl
  | cons j ls ih =>
    rw [exec, Option.bind_eq_some_iff] at h
    obtain ⟨a₁, h₁, h₂⟩ := h
    obtain ⟨-, rfl⟩ := step_eq_some_iff.1 h₁
    rw [List.mem_cons, not_or] at hi
    exact (ih h₂ hi.2).trans (Function.update_of_ne hi.1 _ _)

/-- What `exec` fires was not answered. -/
theorem pending_of_mem {ls : List ι} {a' : State ι O R} (h : exec (step apply calls) a ls = some a') (hi : i ∈ ls) :
    a.answer i = none := by
  induction ls generalizing a with
  | nil => cases hi
  | cons j ls ih =>
    rw [exec, Option.bind_eq_some_iff] at h
    obtain ⟨a₁, h₁, h₂⟩ := h
    obtain ⟨hj, rfl⟩ := step_eq_some_iff.1 h₁
    by_cases hij : i = j
    · exact hij ▸ hj
    · have hnone := ih h₂ ((List.mem_cons.1 hi).resolve_left hij)
      rwa [answer_effect_ne hij] at hnone

/-- What `exec` fires is answered. -/
theorem answered_exec {ls : List ι} {a' : State ι O R} (h : exec (step apply calls) a ls = some a') (hi : i ∈ ls) :
    (a'.answer i).isSome := by
  induction ls generalizing a with
  | nil => cases hi
  | cons j ls ih =>
    rw [exec, Option.bind_eq_some_iff] at h
    obtain ⟨a₁, h₁, h₂⟩ := h
    obtain ⟨-, rfl⟩ := step_eq_some_iff.1 h₁
    rcases List.mem_cons.1 hi with rfl | hi
    · rw [answer_exec h₂ (Function.update_self _ _ _)]
      rfl
    · exact ih h₂ hi

/-- An object inside of another, or an abstraction of it: what the calls that are
`mine` do there is what `put` and `f` make of what they do here. The other calls
do not notice. `J` is an invariant of the object. -/
theorem exec_inside {ι₁ C₁ O₁ R₁ : Type} [DecidableEq ι₁] {apply₁ : C₁ → O₁ → R₁ × O₁} {calls₁ : ι₁ → C₁}
    (apply : C → O → R × O) (calls : ι → C) (mine : ι₁ → Prop) {e : ι₁ → ι} (he : Function.Injective e) (put : O₁ → O) (f : ι₁ → R₁ → R) (J : O₁ → Prop)
    (hcall : ∀ i, mine i → ∀ o, J o → J (apply₁ (calls₁ i) o).2 ∧
      apply (calls (e i)) (put o) = (f i (apply₁ (calls₁ i) o).1, put (apply₁ (calls₁ i) o).2))
    {ls : List ι₁} {b b' : State ι₁ O₁ R₁} (h : exec (step apply₁ calls₁) b ls = some b') (hmine : ∀ i ∈ ls, mine i)
    (hj : J b.obj) (hobj : a.obj = put b.obj) (hanswer : ∀ i, mine i → a.answer (e i) = (b.answer i).map (f i)) :
    ∃ a', exec (step apply calls) a (ls.map e) = some a' ∧ J b'.obj ∧ a'.obj = put b'.obj ∧
      (∀ i, mine i → a'.answer (e i) = (b'.answer i).map (f i)) ∧
      ∀ k, (∀ i, mine i → e i ≠ k) → a'.answer k = a.answer k := by
  induction ls generalizing a b with
  | nil =>
    cases h
    exact ⟨a, rfl, hj, hobj, hanswer, fun _ _ => rfl⟩
  | cons j ls ih =>
    rw [exec, Option.bind_eq_some_iff] at h
    obtain ⟨b₁, h₁, h₂⟩ := h
    obtain ⟨hnone, rfl⟩ := step_eq_some_iff.1 h₁
    have hjm := hmine j (by simp)
    obtain ⟨hj', happly⟩ := hcall j hjm b.obj hj
    have hfire : step apply calls a (e j) = some (Atomic.effect apply calls a (e j)) :=
      step_eq_some (by rw [hanswer j hjm, hnone]; rfl) rfl
    obtain ⟨a', he', hj'', hobj', hanswer', hother⟩ := ih (a := Atomic.effect apply calls a (e j)) h₂
      (fun i hi => hmine i (List.mem_cons_of_mem _ hi)) hj' (by simp [Atomic.effect, hobj, happly]) fun i hi => by
        by_cases hij : i = j
        · subst hij
          simp [Atomic.effect, hobj, happly]
        · simp only [Atomic.effect, Function.update_of_ne hij, Function.update_of_ne (he.ne hij)]
          exact hanswer i hi
    refine ⟨a', by rw [List.map_cons, exec, hfire]; exact he', hj'', hobj', hanswer', fun k hk => (hother k hk).trans ?_⟩
    exact Function.update_of_ne (hk j hjm).symm _ _

end

/-! ## Linearizable runs -/

/-- `i` comes before `j`, if `j` comes at all. -/
def Before (order : List ι) (i j : ι) : Prop := ∃ front back, order = front ++ back ∧ i ∈ front ∧ j ∉ front

/-- The run's calls, as if made one after the other in `order`. `outcome` is the
answer a call has got, `begun` says that it has taken a step. -/
structure Linear {S L : Type} (apply : C → O → R × O) (calls : ι → C) (outcome : S → ι → Option R)
    (begun : S → ι → Prop) (o : O) (tr : List (S × L)) (s : S) (order : List ι) : Prop where
  once : order.Nodup
  answers : ∀ i r, outcome s i = some r → Answered apply calls o order i r
  only_begun : ∀ i ∈ order, begun s i
  real_time : ∀ x ∈ tr, ∀ i j, (outcome x.1 i).isSome → ¬ begun x.1 j → Before order i j

section
variable [DecidableEq ι] {S L : Type} {cstep : S → L → Option S} {s₀ s : S} {tr : List (S × L)}
  {apply : C → O → R × O} {calls : ι → C} {o : O}

/-- Every state of a run is tied to one of the object, along a single order. -/
theorem exists_order (Rel : S → State ι O R → Prop) {K : S → L → Prop} (h0 : Rel s₀ (start o))
    (hsim : ∀ s a l s', Rel s a → K s l → cstep s l = some s' →
      ∃ ls a', exec (step apply calls) a ls = some a' ∧ Rel s' a')
    (h : Run cstep s₀ tr s) (hc : Always K tr) :
    ∃ order a, Effects apply calls o order a ∧ Rel s a ∧
      ∀ x ∈ tr, ∃ front b, front <+: order ∧ Effects apply calls o front b ∧ Rel x.1 b := by
  induction h with
  | nil => exact ⟨[], start o, effects_start apply calls o, h0, by simp⟩
  | @snoc tr s l s' hr hs ih =>
    rw [always_snoc] at hc
    obtain ⟨order, a, heff, hrel, hpast⟩ := ih hc.1
    obtain ⟨ls, a', he, hrel'⟩ := hsim s a l s' hrel hc.2 hs
    refine ⟨order ++ ls, a', heff.exec he, hrel', fun x hx => ?_⟩
    rcases List.mem_append.1 hx with hx | hx
    · obtain ⟨front, b, hp, hb⟩ := hpast x hx
      exact ⟨front, b, hp.trans (List.prefix_append _ _), hb⟩
    · rw [List.mem_singleton] at hx
      subst hx
      exact ⟨order, a, List.prefix_append _ _, heff, hrel⟩

/-- A system whose steps let calls take effect is linearizable, if an answered
call has taken effect with its answer and only a call that has begun takes
effect. `K` is a side condition on the steps. -/
theorem Run.linear_while (Rel : S → State ι O R → Prop) {K : S → L → Prop} {outcome : S → ι → Option R}
    {begun : S → ι → Prop} (h0 : Rel s₀ (start o))
    (hsim : ∀ s a l s', Rel s a → K s l → cstep s l = some s' →
      ∃ ls a', exec (step apply calls) a ls = some a' ∧ Rel s' a')
    (hout : ∀ s a i r, Rel s a → outcome s i = some r → a.answer i = some r)
    (hbegun : ∀ s a i, Rel s a → ¬ begun s i → a.answer i = none)
    (h : Run cstep s₀ tr s) (hc : Always K tr) :
    ∃ order a, Linear apply calls outcome begun o tr s order ∧ Rel s a ∧ a.obj = after apply calls o order := by
  obtain ⟨order, a, heff, hrel, hpast⟩ := exists_order Rel h0 hsim h hc
  refine ⟨order, a, ?_, hrel, heff.obj⟩
  constructor
  · exact heff.nodup
  · exact fun i r hi => heff.answered i r (hout s a i r hrel hi)
  · intro i hi
    by_contra hb
    exact heff.pending i (hbegun s a i hrel hb) hi
  · intro x hx i j hi hj
    obtain ⟨front, b, ⟨back, hback⟩, hb, hrelx⟩ := hpast x hx
    obtain ⟨r, hr⟩ := Option.isSome_iff_exists.1 hi
    exact ⟨front, back, hback.symm, (hb.answered i r (hout x.1 b i r hrelx hr)).mem,
      hb.pending j (hbegun x.1 b j hrelx hj)⟩

theorem Run.linear (Rel : S → State ι O R → Prop) {outcome : S → ι → Option R} {begun : S → ι → Prop}
    (h0 : Rel s₀ (start o))
    (hsim : ∀ s a l s', Rel s a → cstep s l = some s' →
      ∃ ls a', exec (step apply calls) a ls = some a' ∧ Rel s' a')
    (hout : ∀ s a i r, Rel s a → outcome s i = some r → a.answer i = some r)
    (hbegun : ∀ s a i, Rel s a → ¬ begun s i → a.answer i = none)
    (h : Run cstep s₀ tr s) :
    ∃ order a, Linear apply calls outcome begun o tr s order ∧ Rel s a ∧ a.obj = after apply calls o order :=
  Run.linear_while (K := fun _ _ => True) Rel h0 (fun s a l s' hrel _ => hsim s a l s' hrel) hout hbegun h
    fun _ _ => trivial

end

end Lib.Atomic
