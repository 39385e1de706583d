import Mathlib.Order.Fin.Basic
import Herbert.Group
/-!
# One consumer, call after call

A single client calls `consume` again and again, each call after the last one
returned. A call returns without waiting for its commit, so the next call may be
told the offset before that commit is handled, on a connection of its own, and
then gets the same records again (`consumed_twice`). While no commit is on its
way when an OffsetFetch is handled, no record is returned by two calls
(`exactly_once`).
-/
open Lib Lib.Runs herbert.Consumers herbert.Group

namespace herbert.Sequential

variable {ι σ ρ : Type} [LinearOrder ι] [DecidableEq σ] {setup : Setup ι σ ρ} {s s' : State ι σ ρ}

def hasReturned : Pc → Bool
  | .returned _ _ => true
  | _ => false

def isCommit : KafkaRequest → Bool
  | .OffsetCommit _ => true
  | _ => false

/-- A call begins when those before it returned. -/
def OneByOne (s : State ι σ ρ) : Label ι σ → Prop
  | .begin k => ∀ j < k, hasReturned (s.call j).pc
  | _ => True

/-- An OffsetFetch is handled while no OffsetCommit of a call is on its way. -/
def Settled (setup : Setup ι σ ρ) (s : State ι σ ρ) : Label ι σ → Prop
  | .handle k => (s.call k).toServer.head? = some (offset_request setup) →
      ∀ j, ∀ request ∈ (s.call j).toServer, ¬ isCommit request
  | _ => True

instance (s : State Nat σ ρ) (l : Label Nat σ) : Decidable (OneByOne s l) :=
  match l with
  | .begin k => inferInstanceAs (Decidable (∀ j, j < k → hasReturned (s.call j).pc = true))
  | .handle _ | .receive _ | .produce _ _ | .commit _ _ _ | .create_topic _ _ => .isTrue trivial

instance {n : Nat} (setup : Setup (Fin n) σ ρ) (s : State (Fin n) σ ρ) (l : Label (Fin n) σ) :
    Decidable (OneByOne s l ∧ Settled setup s l) :=
  match l with
  | .begin k => inferInstanceAs (Decidable ((∀ j, j < k → hasReturned (s.call j).pc = true) ∧ True))
  | .handle k => inferInstanceAs (Decidable (True ∧ ((s.call k).toServer.head? = some (offset_request setup) →
      ∀ j, ∀ request ∈ (s.call j).toServer, ¬ isCommit request = true)))
  | .receive _ | .produce _ _ | .commit _ _ _ | .create_topic _ _ => .isTrue ⟨trivial, trivial⟩

omit [DecidableEq σ] in
/-- One call after another, each told an offset that is settled, is an orderly use
of the cursor. -/
theorem orderly (hi : Inv setup s) {l : Label ι σ} (hl : OneByOne s l ∧ Settled setup s l) {l' : Cursor.Label ι}
    (hm : Matches setup s l l') : Cursor.InOrder (cursor setup s) l' ∧ Cursor.Quiet (cursor setup s) l' := by
  cases l' with
  | ask k =>
    refine ⟨?_, trivial⟩
    intro j hj
    rw [show l = .begin k from hm] at hl
    have hreturned := hl.1 j hj
    cases hpc : (s.call j).pc with
    | returned o parts =>
      refine ⟨o, parts.length, !(s.call j).toServer.isEmpty, ?_⟩
      show reader (s.call j) = _
      rw [reader, hpc]
    | _ => simp [hasReturned, hpc] at hreturned
  | tell k =>
    refine ⟨trivial, ?_⟩
    intro j o n hj
    obtain ⟨rfl, hk⟩ := hm
    have hnone := hl.2 (by rw [hk]; rfl) j
    have hconv := hi.calls j
    change reader (s.call j) = _ at hj
    generalize s.call j = c at hnone hconv hj
    cases hconv with
    | committing o' parts hs hne => exact hnone _ (List.mem_singleton.2 rfl) rfl
    | _ => cases hj
  | read k n => exact ⟨trivial, trivial⟩
  | write k => exact ⟨trivial, trivial⟩

/-- Exactly once. If an OffsetFetch is only handled while no commit is on its way,
what the calls return are records, and no record is returned by two of them. -/
theorem exactly_once {config : Config} {tr} (hr : Run (step setup) (start config) tr s)
    (hc : Always (fun s l => OneByOne s l ∧ Settled setup s l) tr) :
    (∀ i o parts, (s.call i).pc = .returned o parts → ∀ n < parts.length, ReceivedBy setup s i (o.toNat + n)) ∧
      ∀ j k idx, ReceivedBy setup s j idx → ReceivedBy setup s k idx → j = k := by
  have hi := inv_run hr
  obtain ⟨_, hrun, horderly⟩ := hr.simulate (D := fun s l => Cursor.InOrder s l ∧ Cursor.Quiet s l) (cursor setup)
    (Inv setup) (inv_start config) (fun _ _ _ hi h => inv_step hi h)
    (fun _ _ _ hi hl h => (cursor_step hi h).imp_right fun ⟨l', hm, hl'⟩ => ⟨l', orderly hi hl hm, hl'⟩) hc
  constructor
  · intro i o parts hpc n hn
    exact (hi.returned hpc hn).2
  · intro j k idx hj hk
    exact Cursor.disjoint hrun horderly ((reads_iff hi).2 hj) ((reads_iff hi).2 hk)

/-- The second call begins after the first one's commit, and gets the next record. -/
theorem exactly_once_two :
    ∃ s : State (Fin 2) UInt8 UInt8, (s.call 0).pc = .returned 0 [[97]] ∧ (s.call 1).pc = .returned 1 [[98]] ∧
      ReceivedBy pocketSetup s 1 1 ∧ ¬ ReceivedBy pocketSetup s 0 1 := by
  let schedule : List (Label (Fin 2) UInt8) := [.produce "t" [97], .begin 0, .handle 0, .receive 0, .handle 0,
    .receive 0, .produce "t" [98], .begin 1, .handle 0, .handle 1, .receive 1, .handle 1, .receive 1]
  let run := execWhile (step pocketSetup) (fun s l => OneByOne s l ∧ Settled pocketSetup s l) (start ⟨1⟩) schedule
  obtain ⟨s, hs⟩ : ∃ s, run = some s := Option.isSome_iff_exists.1 (by decide)
  have hfirst : run.map (fun s => (s.call 0).pc) = some (.returned 0 [[97]]) := by decide
  have hsecond : run.map (fun s => (s.call 1).pc) = some (.returned 1 [[98]]) := by decide
  rw [hs] at hfirst hsecond
  obtain ⟨tr, hr, hc⟩ := run_execWhile Run.nil always_nil (show execWhile (step pocketSetup) _ _ _ = _ from hs)
  obtain ⟨hrecords, honce⟩ := exactly_once hr hc
  have hone := hrecords 1 1 [[98]] (Option.some.inj hsecond) 0 (by decide)
  exact ⟨s, Option.some.inj hfirst, Option.some.inj hsecond, hone, fun h => absurd (honce 0 1 1 h hone) (by decide)⟩

/-- Not every run is like that: the second OffsetFetch is handled before the first
call's commit, and both calls return the record. -/
theorem consumed_twice :
    ¬ ∀ (tr : List (State Nat UInt8 UInt8 × Label Nat UInt8)) (s : State Nat UInt8 UInt8),
      Run (step pocketSetup) (start ⟨1⟩) tr s → Always OneByOne tr →
      ∀ j k idx, ReceivedBy pocketSetup s j idx → ReceivedBy pocketSetup s k idx → j = k := by
  intro h
  let schedule : List (Label Nat UInt8) := [.produce "t" [97], .begin 0, .handle 0, .receive 0, .handle 0,
    .receive 0, .begin 1, .handle 1, .receive 1, .handle 1, .receive 1]
  let run := execWhile (step pocketSetup) OneByOne (start ⟨1⟩) schedule
  obtain ⟨s, hs⟩ : ∃ s, run = some s := Option.isSome_iff_exists.1 (by decide)
  have hboth : run.map (fun s => ((s.call 0).pc, (s.call 1).pc, topicQueue pocketSetup s)) =
      some (.returned 0 [[97]], .returned 0 [[97]], [.Raw [97]]) := by decide
  rw [hs] at hboth
  obtain ⟨hfirst, hsecond, hqueue⟩ : (s.call 0).pc = .returned 0 [[97]] ∧ (s.call 1).pc = .returned 0 [[97]] ∧
      topicQueue pocketSetup s = [.Raw [97]] := by simpa using hboth
  obtain ⟨tr, hr, hc⟩ := run_execWhile Run.nil always_nil (show execWhile (step pocketSetup) _ _ _ = _ from hs)
  have htwice := h tr s hr hc 0 1 0 ⟨0, [[97]], [97], hfirst, by decide, rfl, by rw [hqueue]; rfl⟩
    ⟨0, [[97]], [97], hsecond, by decide, rfl, by rw [hqueue]; rfl⟩
  exact absurd htwice (by decide)

end herbert.Sequential
