import Mathlib.Logic.Function.Basic
import Mathlib.Data.Finset.Insert
import Mathlib.Data.Finset.Basic
import Mathlib.Algebra.BigOperators.Group.Finset.Basic
import Mathlib.Data.Fintype.Basic
/-!
# Locks

A lock is `some i` while party `i` holds it. `Guards lock holds pc` says that
the lock and the parties' program counters agree: its holder is the party whose
counter is inside the locked section. A step of one party changes its counter
with `Function.update`, and either takes the free lock, gives it back, or stays
on its side of it. `Shares` is the same for the parties that hold a lock for
reading, any number at a time.
-/

namespace Lib.Mutex

variable {ι Pc : Type} {lock : Option ι} {holds : Pc → Bool} {pc : ι → Pc} {i j : ι} {p : Pc}

def Guards (lock : Option ι) (holds : Pc → Bool) (pc : ι → Pc) : Prop := ∀ i, lock = some i ↔ holds (pc i) = true

theorem guards_free (h : ∀ i, holds (pc i) = false) : Guards none holds pc := by
  intro i
  simp [h i]

theorem Guards.outside (h : Guards none holds pc) (i : ι) : holds (pc i) = false := by
  have := h i
  simpa using this

/-- The locked section is exclusive. -/
theorem Guards.unique (h : Guards lock holds pc) (hi : holds (pc i) = true) (hj : holds (pc j) = true) : i = j := by
  have h1 := (h i).2 hi
  have h2 := (h j).2 hj
  rw [h1] at h2
  exact Option.some.inj h2

theorem Guards.ne_none (h : Guards lock holds pc) (hi : holds (pc i) = true) : lock ≠ none := by
  rw [(h i).2 hi]
  exact Option.some_ne_none i

variable [DecidableEq ι]

theorem Guards.acquire (h : Guards none holds pc) (hp : holds p = true) :
    Guards (some i) holds (Function.update pc i p) := by
  intro j
  by_cases hj : j = i
  · subst hj
    simp [hp]
  · have := h.outside j
    simp [Function.update_of_ne hj, this, Ne.symm hj]

theorem Guards.release (h : Guards lock holds pc) (hi : holds (pc i) = true) (hp : holds p = false) :
    Guards none holds (Function.update pc i p) := by
  apply guards_free
  intro j
  by_cases hj : j = i
  · subst hj
    simpa using hp
  · rw [Function.update_of_ne hj]
    by_contra hne
    exact hj (h.unique (by simpa using hne) hi)

theorem Guards.keep (h : Guards lock holds pc) (hp : holds p = holds (pc i)) :
    Guards lock holds (Function.update pc i p) := by
  intro j
  by_cases hj : j = i
  · subst hj
    rw [Function.update_self, hp]
    exact h j
  · rw [Function.update_of_ne hj]
    exact h j

/-! ## Shared locks -/

/-- The readers are the parties inside the section. -/
def Shares (readers : Finset ι) (holds : Pc → Bool) (pc : ι → Pc) : Prop := ∀ i, i ∈ readers ↔ holds (pc i) = true

section
variable {readers : Finset ι}

omit [DecidableEq ι] in
theorem Shares.outside (h : Shares ∅ holds pc) (i : ι) : holds (pc i) = false := by
  have := h i
  simpa using this

theorem Shares.enter (h : Shares readers holds pc) (hp : holds p = true) :
    Shares (insert i readers) holds (Function.update pc i p) := by
  intro j
  by_cases hj : j = i
  · subst hj
    simp [hp]
  · rw [Finset.mem_insert, Function.update_of_ne hj, or_iff_right hj]
    exact h j

theorem Shares.leave (h : Shares readers holds pc) (hp : holds p = false) :
    Shares (readers.erase i) holds (Function.update pc i p) := by
  intro j
  by_cases hj : j = i
  · subst hj
    simp [hp]
  · rw [Finset.mem_erase, Function.update_of_ne hj, and_iff_right hj]
    exact h j

theorem Shares.keep (h : Shares readers holds pc) (hp : holds p = holds (pc i)) :
    Shares readers holds (Function.update pc i p) := by
  intro j
  by_cases hj : j = i
  · subst hj
    rw [Function.update_self, hp]
    exact h j
  · rw [Function.update_of_ne hj]
    exact h j

end

/-! ## Where the parties are -/

/-- After a step a party is where it was, or it is the one that moved. -/
theorem moved {q : Pc} (h : Function.update pc i p j = q) : (j = i ∧ p = q) ∨ pc j = q := by
  by_cases hj : j = i
  · subst hj
    rw [Function.update_self] at h
    exact .inl ⟨rfl, h⟩
  · rw [Function.update_of_ne hj] at h
    exact .inr h

/-- What the parties have left to do, when one of them moves. -/
theorem sum_moved [Fintype ι] {f g : ι → Nat} (h : ∀ j, j ≠ i → g j = f j) :
    ∑ j, g j + f i = ∑ j, f j + g i := by
  have hsame : ∑ j ∈ Finset.univ.erase i, g j = ∑ j ∈ Finset.univ.erase i, f j :=
    Finset.sum_congr rfl fun j hj => h j (Finset.ne_of_mem_erase hj)
  have hf := Finset.add_sum_erase Finset.univ f (Finset.mem_univ i)
  have hg := Finset.add_sum_erase Finset.univ g (Finset.mem_univ i)
  omega

/-- Some party is at a place where `f` holds. -/
def Somewhere (f : Pc → Bool) (pc : ι → Pc) : Prop := ∃ i, f (pc i) = true

variable {f : Pc → Bool}

theorem somewhere_here (hp : f p = true) : Somewhere f (Function.update pc i p) := ⟨i, by simpa using hp⟩

/-- A party that does not move there was not there. -/
theorem Somewhere.before (hp : f p = false) (h : Somewhere f (Function.update pc i p)) : Somewhere f pc := by
  obtain ⟨j, hj⟩ := h
  refine ⟨j, ?_⟩
  by_cases hji : j = i
  · subst hji
    rw [Function.update_self, hp] at hj
    cases hj
  · rwa [Function.update_of_ne hji] at hj

/-- A party that was not there does not leave it. -/
theorem Somewhere.after (hi : f (pc i) = false) (h : Somewhere f pc) : Somewhere f (Function.update pc i p) := by
  obtain ⟨j, hj⟩ := h
  have hji : j ≠ i := by
    rintro rfl
    rw [hi] at hj
    cases hj
  exact ⟨j, by rwa [Function.update_of_ne hji]⟩

end Lib.Mutex
