import Herbert.Client
import Herbert.Fetch
/-!
# The payload of a raw topic

`fetch` joins the raw records from an offset on with zero bytes, and `consume`
takes the payload apart at its zero bytes. The parts are the records exactly if
no record holds a zero byte, and the payload is taken for the end of the topic
if it is that of one empty record.
-/
open Lib.Bytes herbert.InMemoryLog herbert.Fetch herbert.Client

namespace herbert.Payload

variable {σ ρ : Type} (ipc : ArrowIpc σ ρ)

/-- Nothing is left of the separators only if there is none. -/
theorem join_eq_nil_iff (ms : List Bytes) : [0].intercalate ms = [] ↔ ms = [] ∨ ms = [[]] := by
  match ms with
  | [] => simp
  | [m] => simp
  | m :: m' :: ms => simp [List.intercalate_cons_cons]

/-- The parts are the records, unless a record makes a part more. -/
theorem split_join_iff {ms : List Bytes} (hne : ms ≠ []) : split ([0].intercalate ms) = ms ↔ ∀ m ∈ ms, 0 ∉ m := by
  constructor
  · intro h m hm
    have hlen := length_split_join hne
    rw [h] at hlen
    have hzero : (ms.map (·.count 0)).sum = 0 := by omega
    exact List.count_eq_zero.1 (List.sum_eq_zero_iff_forall_eq_nat.1 hzero _ (List.mem_map_of_mem hm))
  · intro hz
    exact split_join hz hne

/-- What `consume` returns for the joined records. -/
theorem consume_join_iff (ms : List Bytes) (o : Int) :
    (consume o ([0].intercalate ms)).1 = ms ↔ (∀ m ∈ ms, 0 ∉ m) ∧ ms ≠ [[]] := by
  unfold consume
  by_cases hnil : [0].intercalate ms = []
  · rw [hnil]
    rcases (join_eq_nil_iff ms).1 hnil with rfl | rfl <;> simp
  · have hne : ms ≠ [] ∧ ms ≠ [[]] := not_or.1 fun h => hnil ((join_eq_nil_iff ms).2 h)
    rw [if_neg (by simpa using hnil)]
    dsimp only
    rw [split_join_iff hne.1]
    exact ⟨fun h => ⟨h, hne.2⟩, And.left⟩

/-- A raw topic is read as its records from the offset on, up to the offset
behind the last one. -/
theorem readFrom_raw_le (bs : List Bytes) {o : Int} (h0 : 0 ≤ o) (h1 : o < 2 ^ 63) (h : o ≤ bs.length) :
    readFrom ipc (bs.map .Raw) o = .ok ([0].intercalate (bs.drop o.toNat)) := by
  rcases (show o < bs.length ∨ o = bs.length by omega) with hlt | rfl
  · exact readFrom_raw ipc bs h0 h1 hlt
  · have hcount := entryCount_raw (σ := σ) (ρ := ρ) bs
    rw [readFrom_outside ipc (bs.map .Raw) (by omega) h1 (.inr (by omega)), Int.toNat_natCast, List.drop_length,
      List.intercalate_nil]

/-- `consume` gets the records from an offset on out of what `fetch` returns for
it if and only if none of them holds a zero byte, and they are not one empty
record. -/
theorem delivered_iff (ops : List (LogOp σ ρ)) (t : String) (bs : List Bytes)
    (hraw : (added ops).ofTopic t = bs.map .Raw) (o : Int64) (h0 : 0 ≤ o.toInt) (hlen : o.toInt ≤ bs.length) :
    (∃ records, ((applyAll ipc new ops).fetch ipc t o.toInt).1 = .ok records ∧
      (consume o.toInt records).1 = bs.drop o.toInt.toNat) ↔
      (∀ b ∈ bs.drop o.toInt.toNat, 0 ∉ b) ∧ bs.drop o.toInt.toNat ≠ [[]] := by
  rw [fetch_run, hraw, readFrom_raw_le ipc bs h0 o.toInt_lt hlen, ← consume_join_iff _ o.toInt]
  constructor
  · rintro ⟨records, h, hparts⟩
    cases h
    exact hparts
  · intro hparts
    exact ⟨_, rfl, hparts⟩

/-- Three records, read from the second one. -/
theorem delivered_iff_three :
    ∃ records : Bytes, ((applyAll pocketIpc new [.add "t" (.Raw [97, 0]), .add "t" (.Raw []), .fetch "t" 0,
        .add "t" (.Raw [98])]).fetch pocketIpc "t" (1 : Int64).toInt).1 = .ok records ∧
      (consume (1 : Int64).toInt records).1 = [[], [98]] :=
  (delivered_iff pocketIpc [.add "t" (.Raw [97, 0]), .add "t" (.Raw []), .fetch "t" 0, .add "t" (.Raw [98])] "t"
    [[97, 0], [], [98]] (by decide) 1 (by decide) (by decide)).2 (by decide)

/-- A record with a zero byte comes out as two, and a lone empty record as none. -/
theorem record_cut_in_two :
    (¬ ∃ records : Bytes, ((applyAll pocketIpc new [.add "t" (.Raw [97, 0, 98])]).fetch pocketIpc "t"
        (0 : Int64).toInt).1 = .ok records ∧ (consume (0 : Int64).toInt records).1 = [[97, 0, 98]]) ∧
      ¬ ∃ records : Bytes, ((applyAll pocketIpc new [.add "t" (.Raw [])]).fetch pocketIpc "t"
        (0 : Int64).toInt).1 = .ok records ∧ (consume (0 : Int64).toInt records).1 = [[]] := by
  have hcut : ((applyAll pocketIpc new [.add "t" (.Raw [97, 0, 98])]).fetch pocketIpc "t" (0 : Int64).toInt).1 =
      .ok [97, 0, 98] := by decide
  have hempty : ((applyAll pocketIpc new [.add "t" (.Raw [])]).fetch pocketIpc "t" (0 : Int64).toInt).1 = .ok [] := by
    decide
  rw [hcut, hempty]
  refine ⟨?_, ?_⟩
  · rintro ⟨records, h, hparts⟩
    cases h
    exact absurd hparts (by decide)
  · rintro ⟨records, h, hparts⟩
    cases h
    exact absurd hparts (by decide)

end herbert.Payload
