import Mathlib.Data.List.AList
import Mathlib.Data.List.Induction
/-!
# Collecting entries into a map

An iterator over entries is collected into a map by inserting one after the
other, so of several entries with one key the last one stays. If the keys are
distinct nothing is lost, and the order does not matter (`lookup_collect`).
-/

namespace Lib.Collect

variable {κ α β : Type} [DecidableEq κ] (key : β → κ) (val : β → α)

def collect (es : List β) : AList fun _ : κ => α := es.foldl (fun m e => m.insert (key e) (val e)) ∅

variable {key val} {es : List β} {k : κ} {a : α}

theorem collect_snoc (es : List β) (e : β) : collect key val (es ++ [e]) = (collect key val es).insert (key e) (val e) := by
  simp [collect, List.foldl_append]

/-- The keys are those of the entries. -/
theorem mem_collect : k ∈ collect key val es ↔ ∃ e ∈ es, key e = k := by
  induction es using List.reverseRecOn with
  | nil => simp [collect]
  | append_singleton es e ih =>
    rw [collect_snoc, AList.mem_insert, ih]
    simp only [List.mem_append, List.mem_singleton, or_and_right, exists_or, exists_eq_left]
    rw [or_comm, eq_comm]

/-- A value comes from an entry. -/
theorem of_lookup_collect (h : (collect key val es).lookup k = some a) : ∃ e ∈ es, key e = k ∧ val e = a := by
  induction es using List.reverseRecOn with
  | nil => simp [collect] at h
  | append_singleton es e ih =>
    rw [collect_snoc] at h
    by_cases hk : k = key e
    · subst hk
      rw [AList.lookup_insert, Option.some.injEq] at h
      exact ⟨e, by simp, rfl, h⟩
    · rw [AList.lookup_insert_ne hk] at h
      obtain ⟨e', he', h'⟩ := ih h
      exact ⟨e', by simp [he'], h'⟩

/-- With distinct keys, every entry is found. -/
theorem lookup_collect (hkeys : (es.map key).Nodup) :
    (collect key val es).lookup k = some a ↔ ∃ e ∈ es, key e = k ∧ val e = a := by
  refine ⟨of_lookup_collect, ?_⟩
  rintro ⟨e, he, rfl, rfl⟩
  have hmem : key e ∈ collect key val es := mem_collect.2 ⟨e, he, rfl⟩
  obtain ⟨a, ha⟩ := Option.isSome_iff_exists.1 (AList.lookup_isSome.2 hmem)
  obtain ⟨e', he', hk, rfl⟩ := of_lookup_collect ha
  rw [ha, List.inj_on_of_nodup_map hkeys he' he hk]

end Lib.Collect
