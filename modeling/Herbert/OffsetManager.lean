import Herbert.Arrow
import Mathlib.Data.List.TakeWhile
import Herbert.Lib.Collect
/-!
# The offset manager

The committed offset of each consumer group on each topic. `set_offset` changes
the map and writes all of it to the offset file, as JSON with one
`group:topic` key for each entry. `recover` reads the file, and splits each key
at its first colon.
-/
open Lib Lib.Bytes

namespace herbert

/-- `serde_json` on maps from strings to offsets. -/
structure OffsetJson where
  to_string : HashMap String Int → Option Bytes

/-- The text of a map whose keys need no escapes. -/
def plainJson : OffsetJson where
  to_string m :=
    let fields := m.entries.map fun e => "\"" ++ e.1 ++ "\":" ++ toString e.2
    some (utf8 ("\x7b" ++ ",".intercalate fields ++ "\x7d"))

structure OffsetManager where
  offsets : HashMap (String × String) Int
  /-- The file at the offset path, if there is one. -/
  file : Option Bytes

namespace OffsetManager

def new : OffsetManager := ⟨∅, none⟩

def get_offset (om : OffsetManager) (consumer_group topic : String) : Int :=
  (om.offsets.lookup (consumer_group, topic)).getD 0

/-- The map as it is written: a later entry overwrites an earlier one of the
same key. -/
def flushed_map (offsets : HashMap (String × String) Int) : HashMap String Int :=
  offsets.entries.foldl (fun m e => m.insert (e.1.1 ++ ":" ++ e.1.2) e.2) ∅

def flush (json : OffsetJson) (om : OffsetManager) : Except HerbertError Unit × OffsetManager :=
  match json.to_string (flushed_map om.offsets) with
  | none => (.error .Serialization, om)
  | some text => (.ok (), { om with file := some text })

/-- The map keeps the new offset when the flush fails. -/
def set_offset (json : OffsetJson) (om : OffsetManager) (consumer_group topic : String) (offset : Int) :
    Except HerbertError Unit × OffsetManager :=
  flush json { om with offsets := om.offsets.insert (consumer_group, topic) offset }

theorem offsets_flush (json : OffsetJson) (om : OffsetManager) : (om.flush json).2.offsets = om.offsets := by
  unfold flush; split <;> rfl

/-- An offset is read back as it was set last. -/
theorem get_offset_set_offset (json : OffsetJson) (om : OffsetManager) (g t g' t' : String) (o : Int) :
    (om.set_offset json g t o).2.get_offset g' t' = if (g', t') = (g, t) then o else om.get_offset g' t' := by
  rw [get_offset, set_offset, offsets_flush]
  split
  · rename_i h; rw [h, AList.lookup_insert]; rfl
  · rename_i h; rw [AList.lookup_insert_ne h]; rfl

/-! ## Recovery -/

/-- `str::split_once`: what is before and behind the first `d`. -/
def split_once (d : Char) (s : String) : Option (String × String) :=
  match s.toList.dropWhile (· ≠ d) with
  | [] => none
  | _ :: rest => some (String.ofList (s.toList.takeWhile (· ≠ d)), String.ofList rest)

/-- The iterator that `recover` collects; `none` if `expect` panics. -/
def split_keys : List (Σ _ : String, Int) → Option (List ((String × String) × Int))
  | [] => some []
  | ⟨key, offset⟩ :: es =>
    match split_once ':' key, split_keys es with
    | some k, some rest => some ((k, offset) :: rest)
    | _, _ => none

end OffsetManager

/-- `serde_json` in both directions. -/
structure OffsetFormat extends OffsetJson where
  from_slice : Bytes → Option (HashMap String Int)

namespace OffsetManager

/-- `none` is a panic. -/
def recover (format : OffsetFormat) (om : OffsetManager) : Option (Except HerbertError Unit × OffsetManager) :=
  match om.file with
  | none => some (.error .NoOffsetFileFound, om)
  | some json =>
    match format.from_slice json with
    | none => some (.error .Deserialization, om)
    | some stored_offsets =>
      match split_keys stored_offsets.entries with
      | none => none
      | some offsets => some (.ok (), { om with offsets := Collect.collect Prod.fst Prod.snd offsets })

/-- `recover` reads the file and leaves it. -/
theorem file_recover {format : OffsetFormat} {om om' : OffsetManager} {result : Except HerbertError Unit}
    (h : recover format om = some (result, om')) : om'.file = om.file := by
  unfold recover at h
  split at h
  · cases h
    rfl
  · split at h
    · cases h
      rfl
    · split at h
      · cases h
      · cases h
        rfl

/-- A key is split where the group that has no colon ends. -/
theorem split_once_eq_some {d : Char} {s g t : String} :
    split_once d s = some (g, t) ↔ s = g ++ String.singleton d ++ t ∧ d ∉ g.toList := by
  unfold split_once
  constructor
  · intro h
    split at h
    · cases h
    · rename_i c rest hdrop
      have hd : c = d := by
        have := List.head?_dropWhile_not (fun x => decide (x ≠ d)) s.toList
        rw [hdrop] at this
        simpa using this
      subst hd
      simp only [Option.some.injEq, Prod.mk.injEq] at h
      obtain ⟨rfl, rfl⟩ := h
      constructor
      · rw [← String.toList_inj]
        simp only [String.toList_append, String.toList_ofList, String.toList_singleton, List.append_assoc,
          List.singleton_append]
        rw [← hdrop, List.takeWhile_append_dropWhile]
      · rw [String.toList_ofList]
        intro hm
        simpa using List.mem_takeWhile_imp hm
  · rintro ⟨rfl, hg⟩
    have hne : ∀ c ∈ g.toList, decide (c ≠ d) = true := by
      intro c hc
      exact decide_eq_true fun h => hg (h ▸ hc)
    simp only [String.toList_append, String.toList_singleton, List.append_assoc, List.singleton_append,
      List.dropWhile_append_of_pos hne, List.takeWhile_append_of_pos hne]
    simp

end OffsetManager
end herbert
