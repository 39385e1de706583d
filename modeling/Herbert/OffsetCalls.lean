import Herbert.OffsetThreads
import Herbert.Lib.Atomic
/-!
# Calls of the offset manager

Any number of calls of `get_offset` and `set_offset`. A `set_offset` takes the
steps of `OffsetThreads`. A `get_offset` takes the read lock, looks the offset up
and gives the lock back, and as long as it has the lock nobody inserts.

They are linearizable: a `get_offset` takes effect when it looks up, a
`set_offset` when it inserts, before its flush (`rel_step`).
-/
open Lib Lib.Runs herbert.OffsetManager

namespace herbert.OffsetCalls

variable {ι : Type}

/-! ## The system -/

inductive Call where
  | get (consumer_group topic : String)
  | set (consumer_group topic : String) (offset : Int64)

/-- Where a `get_offset` is. -/
inductive Phase where
  | ready
  /-- Holds the read lock. -/
  | read (offset : Int)
  | returned (offset : Int)

/-- A thread may call nothing. -/
structure Setup (ι : Type) where
  json : ι → OffsetJson
  call : ι → Option Call

/-- The threads that set. -/
def Setup.sets (setup : Setup ι) : OffsetThreads.Setup ι where
  json := setup.json
  key i := match setup.call i with
    | some (.get g t) | some (.set g t _) => (g, t)
    | none => ("", "")
  offset i := match setup.call i with
    | some (.set _ _ offset) => offset
    | _ => 0

structure State (ι : Type) where
  sets : OffsetThreads.State ι
  /-- The calls of `get_offset` that hold the read lock. -/
  getters : Finset ι
  get : ι → Phase

def start (om : OffsetManager) : State ι := ⟨OffsetThreads.start om, ∅, fun _ => .ready⟩

/-- The manager the calls work on. -/
def State.om (s : State ι) : OffsetManager := ⟨s.sets.offsets, s.sets.file⟩

section
variable (setup : Setup ι) [DecidableEq ι]

/-- The next step of thread `i`; `none` if it waits or has returned. -/
def step (s : State ι) (i : ι) : Option (State ι) :=
  match setup.call i with
  | none => none
  | some (.get g t) =>
    match s.get i with
    | .ready =>
      some { s with getters := insert i s.getters, get := Function.update s.get i (.read (s.om.get_offset g t)) }
    | .read offset =>
      some { s with getters := s.getters.erase i, get := Function.update s.get i (.returned offset) }
    | .returned _ => none
  | some (.set _ _ _) =>
    -- the write lock waits for both kinds of readers
    if OffsetThreads.isReady (s.sets.pc i) ∧ s.getters ≠ ∅ then none
    else (OffsetThreads.step setup.sets s.sets i).map fun sets => { s with sets }

/-! ## One after the other -/

/-- A call that is alone: the offset it gets. What `set_offset` returns is dropped
by its only caller. -/
def apply (c : OffsetJson × Option Call) (om : OffsetManager) : Option Int × OffsetManager :=
  match c.2 with
  | none => (none, om)
  | some (.get g t) => (some (om.get_offset g t), om)
  | some (.set g t offset) => (none, (om.set_offset c.1 g t offset.toInt).2)

/-- The calls, each with its own `serde_json`. -/
def Setup.calls (i : ι) : OffsetJson × Option Call := (setup.json i, setup.call i)

/-- The answer of a call that has returned. -/
def outcome (s : State ι) (i : ι) : Option (Option Int) :=
  match setup.call i, s.get i, s.sets.pc i with
  | some (.get _ _), .returned offset, _ => some (some offset)
  | some (.set _ _ _), _, .done | some (.set _ _ _), _, .failed _ => some none
  | _, _, _ => none

def begun (s : State ι) (i : ι) : Prop :=
  match setup.call i with
  | none => False
  | some (.get _ _) => s.get i ≠ .ready
  | some (.set _ _ _) => s.sets.pc i ≠ .ready

/-- The answer of a call that has taken effect. -/
def effective (s : State ι) (i : ι) : Option (Option Int) :=
  match setup.call i, s.get i, s.sets.pc i with
  | some (.get _ _), .read offset, _ | some (.get _ _), .returned offset, _ => some (some offset)
  | some (.set _ _ _), _, .ready => none
  | some (.set _ _ _), _, _ => some none
  | _, _, _ => none

structure Rel (s : State ι) (a : Atomic.State ι OffsetManager (Option Int)) : Prop where
  offsets : a.obj.offsets = s.sets.offsets
  answer : ∀ i, a.answer i = effective setup s i

end

variable {setup : Setup ι} {s s' : State ι} {a : Atomic.State ι OffsetManager (Option Int)} {i : ι}

theorem rel_start (om : OffsetManager) : Rel setup (start om) (Atomic.start om) where
  offsets := rfl
  answer i := by
    unfold effective
    cases setup.call i with
    | none => rfl
    | some call => cases call <;> rfl

theorem Rel.outcome (h : Rel setup s a) {r : Option Int} (hr : outcome setup s i = some r) : a.answer i = some r := by
  rw [h.answer]
  unfold OffsetCalls.outcome at hr
  unfold effective
  split at hr
  · rename_i offset hcall hget
    rw [hcall, hget]
    exact hr
  · rename_i g t o hcall hpc
    rw [hcall, hpc]
    exact hr
  · rename_i g t o e hcall hpc
    rw [hcall, hpc]
    exact hr
  · cases hr

theorem Rel.not_begun (h : Rel setup s a) (hb : ¬ begun setup s i) : a.answer i = none := by
  rw [h.answer]
  unfold begun at hb
  unfold effective
  split at hb
  · rename_i hcall
    rw [hcall]
  · rename_i g t hcall
    rw [hcall, not_not.1 hb]
  · rename_i g t o hcall
    rw [hcall, not_not.1 hb]

/-- A call that has left `ready` has inserted. -/
theorem effective_set {g t : String} {o : Int64} (hcall : setup.call i = some (.set g t o)) (s : State ι) :
    effective setup s i = if OffsetThreads.isReady (s.sets.pc i) then none else some none := by
  rw [effective, hcall]
  cases s.sets.pc i <;> rfl

theorem effective_get {g t : String} (hcall : setup.call i = some (.get g t)) (s : State ι) :
    effective setup s i = match s.get i with | .ready => none | .read o | .returned o => some (some o) := by
  rw [effective, hcall]
  cases s.get i <;> rfl

theorem effective_congr (hget : s'.get i = s.get i) (hpc : s'.sets.pc i = s.sets.pc i) :
    effective setup s' i = effective setup s i := by
  rw [effective, effective, hget, hpc]

variable [DecidableEq ι]

theorem Rel.effect (h : Rel setup s a) (hi : effective setup s i = none)
    (hoffsets : (apply (setup.calls i) a.obj).2.offsets = s'.sets.offsets)
    (hi' : effective setup s' i = some (apply (setup.calls i) a.obj).1)
    (hother : ∀ j, j ≠ i → effective setup s' j = effective setup s j) :
    ∃ ls a', exec (Atomic.step apply setup.calls) a ls = some a' ∧ Rel setup s' a' := by
  have hfire : Atomic.step apply setup.calls a i = some (Atomic.effect apply setup.calls a i) :=
    Atomic.step_eq_some ((h.answer i).trans hi) rfl
  refine ⟨[i], Atomic.effect apply setup.calls a i, by rw [exec, hfire]; rfl, hoffsets, fun j => ?_⟩
  by_cases hj : j = i
  · subst hj
    rw [hi']
    exact Function.update_self _ _ _
  · rw [hother j hj, ← h.answer]
    exact Function.update_of_ne hj _ _

/-- What a step of a `set_offset` changes. -/
theorem sets_step {setup : OffsetThreads.Setup ι} {s s' : OffsetThreads.State ι}
    (hs : OffsetThreads.step setup s i = some s') :
    (∀ j, j ≠ i → s'.pc j = s.pc j) ∧ OffsetThreads.isReady (s'.pc i) = false ∧
      s'.offsets = if OffsetThreads.isReady (s.pc i) then s.offsets.insert (setup.key i) (setup.offset i).toInt
        else s.offsets := by
  unfold OffsetThreads.step at hs
  cases hi : s.pc i with
  | ready =>
    simp only [hi, Option.ite_none_right_eq_some, Option.some.injEq] at hs
    obtain ⟨-, rfl⟩ := hs
    refine ⟨fun j hj => Function.update_of_ne hj _ _, ?_, rfl⟩
    dsimp only
    rw [Function.update_self]
    rfl
  | inserted =>
    simp only [hi] at hs
    split at hs <;> cases hs <;>
      exact ⟨fun j hj => Function.update_of_ne hj _ _, by dsimp only; rw [Function.update_self]; rfl, rfl⟩
  | snapshot text | truncated text | written =>
    simp only [hi, Option.some.injEq] at hs
    subst hs
    exact ⟨fun j hj => Function.update_of_ne hj _ _, by dsimp only; rw [Function.update_self]; rfl, rfl⟩
  | done | failed e => simp [hi] at hs

/-- A step of one thread leaves the others where they are. -/
theorem step_other (hs : step setup s i = some s') {j : ι} (hj : j ≠ i) :
    s'.get j = s.get j ∧ s'.sets.pc j = s.sets.pc j := by
  unfold step at hs
  split at hs
  · cases hs
  · split at hs
    · cases hs
      exact ⟨Function.update_of_ne hj _ _, rfl⟩
    · cases hs
      exact ⟨Function.update_of_ne hj _ _, rfl⟩
    · cases hs
  · rw [Option.ite_none_left_eq_some, Option.map_eq_some_iff] at hs
    obtain ⟨-, sets, hstep, rfl⟩ := hs
    exact ⟨rfl, (sets_step hstep).1 j hj⟩

/-- The look-up and the insert are where the calls take effect. -/
theorem rel_step (h : Rel setup s a) (hs : step setup s i = some s') :
    ∃ ls a', exec (Atomic.step apply setup.calls) a ls = some a' ∧ Rel setup s' a' := by
  unfold step at hs
  split at hs
  · cases hs
  · rename_i g t hcall
    split at hs
    · rename_i hget
      cases hs
      refine h.effect (i := i) (by rw [effective_get hcall, hget]) ?_ ?_ fun j hj =>
        effective_congr (Function.update_of_ne hj _ _) rfl
      · simp only [apply, Setup.calls, hcall]
        exact h.offsets
      · simp only [effective_get hcall, Function.update_self, apply, Setup.calls, hcall, get_offset, State.om, h.offsets]
    · rename_i offset hget
      cases hs
      refine ⟨[], a, rfl, h.offsets, fun j => (h.answer j).trans ?_⟩
      by_cases hj : j = i
      · subst hj
        simp only [effective_get hcall, Function.update_self, hget]
      · refine Eq.symm (effective_congr ?_ rfl)
        exact Function.update_of_ne hj _ _
    · cases hs
  · rename_i g t o hcall
    rw [Option.ite_none_left_eq_some, Option.map_eq_some_iff] at hs
    obtain ⟨-, sets, hstep, rfl⟩ := hs
    obtain ⟨hother, hi', hoffsets⟩ := sets_step hstep
    have hsame : ∀ j, j ≠ i → effective setup { s with sets } j = effective setup s j :=
      fun j hj => effective_congr rfl (hother j hj)
    have heff : effective setup { s with sets } i = some none := by rw [effective_set hcall, hi']; rfl
    cases hready : OffsetThreads.isReady (s.sets.pc i) with
    | true =>
      refine h.effect (i := i) (by rw [effective_set hcall, hready]; rfl) ?_ ?_ hsame
      · simp only [apply, Setup.calls, hcall, set_offset, offsets_flush, hoffsets, hready, if_true, h.offsets]
        simp only [Setup.sets, hcall]
      · simp only [heff, apply, Setup.calls, hcall]
    | false =>
      refine ⟨[], a, rfl, ?_, fun j => (h.answer j).trans ?_⟩
      · rw [hoffsets, hready]
        exact h.offsets
      · by_cases hj : j = i
        · subst hj
          rw [heff, effective_set hcall, hready]
          rfl
        · exact (hsame j hj).symm

end herbert.OffsetCalls
