import Mathlib.Algebra.Group.Int.Defs
import Herbert.OffsetManager
import Herbert.Lib.Json
import Herbert.Lib.Runs
/-!
# Offsets after a restart

The offset file is read back as the map that was flushed, except that a key is
split at its first colon: what a group with a colon in its name committed comes
back under another group and topic (`recover_flushed`). So `recover` undoes
`flush` exactly if no such group committed (`survives_iff`).

`fs::write` empties the file before it writes the new text, and no part of a
text can be read (`Lawful.refuses`). A process that stops in between leaves a
file that `recover` fails on (`atomic_iff`).
-/
open Lib Lib.Bytes Lib.Collect Lib.Runs herbert.OffsetManager

namespace herbert.OffsetRecovery

/-! ## The format -/

def IsI64 (o : Int) : Prop := -2 ^ 63 ≤ o ∧ o < 2 ^ 63

/-- `serde_json` reads back what it writes, and refuses a text that is cut short. -/
structure Lawful (format : OffsetFormat) : Prop where
  reads : ∀ m : HashMap String Int, (∀ k o, m.lookup k = some o → IsI64 o) →
    ∃ text m', format.to_string m = some text ∧ format.from_slice text = some m' ∧ ∀ k, m'.lookup k = m.lookup k
  refuses : ∀ m text p, format.to_string m = some text → p <+: text → p ≠ text → format.from_slice p = none

/-- Flat JSON objects. Control characters are left as they are. -/
def flatJson : OffsetFormat where
  to_string m := some (Json.encode (m.entries.map fun e => (utf8 e.1, e.2)))
  from_slice text :=
    (Json.decode text).bind fun fs =>
      (fs.mapM fun f => (fromUtf8 f.1).map (·, f.2)).map (collect Prod.fst Prod.snd)

theorem lookup_iff {κ α : Type} [DecidableEq κ] {m : HashMap κ α} {k : κ} {a : α} :
    m.lookup k = some a ↔ ⟨k, a⟩ ∈ m.entries := AList.mem_lookup_iff

theorem flatJson_lawful : Lawful flatJson where
  reads m _ := by
    have hnames : ∀ es : List (Σ _ : String, Int),
        (es.map fun e => (utf8 e.1, e.2)).mapM (fun f : Json.Field => (fromUtf8 f.1).map (·, f.2)) =
          some (es.map fun e => (e.1, e.2)) := by
      intro es
      induction es with
      | nil => rfl
      | cons e es ih => simp [List.mapM_cons, fromUtf8_utf8, ih]
    refine ⟨_, collect Prod.fst Prod.snd (m.entries.map fun e => (e.1, e.2)), rfl, ?_, ?_⟩
    · simp only [flatJson, Json.decode_encode, Option.bind_some, hnames, Option.map_some]
    · intro k
      apply Option.ext
      intro a
      rw [lookup_collect (by rw [List.map_map]; exact m.keys_nodup), lookup_iff]
      constructor
      · rintro ⟨e, he, rfl, rfl⟩
        obtain ⟨e', he', rfl⟩ := List.mem_map.1 he
        exact he'
      · intro h
        exact ⟨(k, a), List.mem_map.2 ⟨⟨k, a⟩, h, rfl⟩, rfl, rfl⟩
  refuses m text p htext hp hne := by
    cases htext
    simp only [flatJson, Json.decode_prefix hp hne, Option.bind_none]

/-! ## Reading back -/

theorem split_key {g : String} (hg : ':' ∉ g.toList) (t : String) : split_once ':' (g ++ ":" ++ t) = some (g, t) :=
  split_once_eq_some.2 ⟨rfl, hg⟩

/-- Every key that `flush` writes can be split. -/
theorem split_isSome (g t : String) : (split_once ':' (g ++ ":" ++ t)).isSome := by
  by_contra hnone
  have hdrop : (g ++ ":" ++ t).toList.dropWhile (· ≠ ':') = [] := by
    unfold split_once at hnone
    split at hnone
    · assumption
    · exact absurd rfl hnone
  have hall := List.dropWhile_eq_nil_iff.1 hdrop ':' (by simp)
  simp at hall

theorem split_keys_eq {es : List (Σ _ : String, Int)} (h : ∀ e ∈ es, (split_once ':' e.1).isSome) :
    split_keys es = some (es.filterMap fun e => (split_once ':' e.1).map (·, e.2)) := by
  induction es with
  | nil => rfl
  | cons e es ih =>
    obtain ⟨k, hk⟩ := Option.isSome_iff_exists.1 (h e (by simp))
    have hrest := ih fun e' he' => h e' (by simp [he'])
    simp only [split_keys, hk, hrest, List.filterMap_cons, Option.map_some]

/-- Different keys are split differently. -/
theorem nodup_split {es : List (Σ _ : String, Int)} (h : (es.map (·.1)).Nodup) :
    ((es.filterMap fun e => (split_once ':' e.1).map (·, e.2)).map Prod.fst).Nodup := by
  have hkeys : (es.filterMap fun e => (split_once ':' e.1).map (·, e.2)).map Prod.fst =
      (es.map (·.1)).filterMap (split_once ':') := by
    rw [List.map_filterMap, List.filterMap_map]
    congr 1
    funext e
    simp [Function.comp_def]
  rw [hkeys]
  refine h.filterMap fun a a' k ha ha' => ?_
  obtain ⟨g, t⟩ := k
  rw [(split_once_eq_some.1 ha).1, (split_once_eq_some.1 ha').1]

variable {format : OffsetFormat}

/-- A file that `flush` wrote is read back without a panic: a group without a
colon finds what is stored under its key, and no other group finds anything. -/
theorem recover_flushed (hf : Lawful format) {table : HashMap (String × String) Int}
    (h64 : ∀ k o, table.lookup k = some o → IsI64 o) :
    ∃ text, format.to_string (flushed_map table) = some text ∧
      ∀ om : OffsetManager, om.file = some text → ∃ om', recover format om = some (.ok (), om') ∧
        ∀ g t, om'.offsets.lookup (g, t) = if ':' ∈ g.toList then none else (flushed_map table).lookup (g ++ ":" ++ t) := by
  have hentry : ∀ key o, (flushed_map table).lookup key = some o →
      ∃ k, k.1 ++ ":" ++ k.2 = key ∧ table.lookup k = some o := by
    intro key o h
    obtain ⟨e, he, rfl, rfl⟩ := of_lookup_collect h
    exact ⟨e.1, rfl, lookup_iff.2 he⟩
  obtain ⟨text, m, htext, hread, hm⟩ := hf.reads (flushed_map table) (by
    intro key o h
    obtain ⟨k, -, hk⟩ := hentry key o h
    exact h64 k o hk)
  refine ⟨text, htext, fun om hfile => ?_⟩
  have hsplit : ∀ e ∈ m.entries, (split_once ':' e.1).isSome := by
    intro e he
    obtain ⟨k, hk, -⟩ := hentry e.1 e.2 (by rw [← hm]; exact lookup_iff.2 he)
    rw [← hk]
    exact split_isSome k.1 k.2
  refine ⟨_, by simp only [recover, hfile, hread, split_keys_eq hsplit]; rfl, fun g t => ?_⟩
  apply Option.ext
  intro o
  rw [lookup_collect (nodup_split m.keys_nodup)]
  constructor
  · rintro ⟨⟨k, o⟩, hentry, rfl, rfl⟩
    obtain ⟨⟨key, o⟩, he, hmap⟩ := List.mem_filterMap.1 hentry
    obtain ⟨k, hk, heq⟩ := Option.map_eq_some_iff.1 hmap
    cases heq
    obtain ⟨rfl, hg⟩ := split_once_eq_some.1 hk
    rw [if_neg hg, ← hm]
    exact lookup_iff.2 he
  · intro h
    by_cases hg : ':' ∈ g.toList
    · rw [if_pos hg] at h
      cases h
    · rw [if_neg hg, ← hm] at h
      refine ⟨((g, t), o), List.mem_filterMap.2 ⟨_, lookup_iff.1 h, ?_⟩, rfl, rfl⟩
      rw [split_key hg, Option.map_some]

/-- Without colons in the groups no two keys merge. -/
theorem lookup_flushed_map {table : HashMap (String × String) Int} (h : ∀ k ∈ table, ':' ∉ k.1.toList) {g : String}
    (hg : ':' ∉ g.toList) (t : String) : (flushed_map table).lookup (g ++ ":" ++ t) = table.lookup (g, t) := by
  have hinj : ∀ k k' : String × String, ':' ∉ k.1.toList → ':' ∉ k'.1.toList →
      k.1 ++ ":" ++ k.2 = k'.1 ++ ":" ++ k'.2 → k = k' := by
    intro k k' hk hk' heq
    have hsplit := split_key hk k.2
    rw [heq, split_key hk'] at hsplit
    exact (Option.some.inj hsplit).symm
  have hmem : ∀ e ∈ table.entries, ':' ∉ e.1.1.toList := by
    intro e he
    exact h e.1 (AList.lookup_isSome.1 (Option.isSome_iff_exists.2 ⟨e.2, lookup_iff.2 he⟩))
  have hnodup : (table.entries.map fun e => e.1.1 ++ ":" ++ e.1.2).Nodup := by
    have := table.keys_nodup.map_on (f := fun k : String × String => k.1 ++ ":" ++ k.2) (by
      intro k hk k' hk' heq
      exact hinj k k' (h k hk) (h k' hk') heq)
    rwa [AList.keys, List.keys, List.map_map] at this
  apply Option.ext
  intro o
  rw [show flushed_map table = collect (fun e => e.1.1 ++ ":" ++ e.1.2) (·.2) table.entries from rfl,
    lookup_collect hnodup, lookup_iff]
  constructor
  · rintro ⟨e, he, hk, rfl⟩
    rw [← hinj e.1 (g, t) (hmem e he) hg hk]
    exact he
  · intro he
    exact ⟨_, he, rfl, rfl⟩

/-! ## Runs of `set_offset` -/

/-- A call, and the table that holds its entry, in the order it is iterated over.
A `HashMap` has an order of its own. -/
structure SetOffset where
  consumer_group : String
  topic : String
  offset : Int64
  table : HashMap (String × String) Int

variable (format) in
def step (om : OffsetManager) (call : SetOffset) : Option OffsetManager :=
  if call.table.entries.Perm (om.offsets.insert (call.consumer_group, call.topic) call.offset.toInt).entries then
    some (flush format.toOffsetJson { om with offsets := call.table }).2
  else none

/-- In one of the orders a call is `set_offset`. -/
theorem step_set_offset (om : OffsetManager) (g t : String) (o : Int64) :
    step format om ⟨g, t, o, om.offsets.insert (g, t) o.toInt⟩ =
      some (om.set_offset format.toOffsetJson g t o.toInt).2 := by
  rw [step, if_pos (List.Perm.refl _), set_offset]

/-- The file holds the map, if anything was flushed. -/
structure Inv (format : OffsetFormat) (om : OffsetManager) : Prop where
  i64 : ∀ k o, om.offsets.lookup k = some o → IsI64 o
  file : (om.file = none ∧ om.offsets = ∅) ∨ (om.file.isSome ∧ om.file = format.to_string (flushed_map om.offsets))

theorem inv_new : Inv format new := ⟨by simp [new], .inl ⟨rfl, rfl⟩⟩

theorem offsets_step {om om' : OffsetManager} {call : SetOffset} (hs : step format om call = some om') :
    om'.offsets.entries.Perm (om.offsets.insert (call.consumer_group, call.topic) call.offset.toInt).entries ∧
      om' = (flush format.toOffsetJson { om with offsets := om'.offsets }).2 := by
  rw [step, Option.ite_none_right_eq_some, Option.some.injEq] at hs
  obtain ⟨hperm, rfl⟩ := hs
  rw [offsets_flush]
  exact ⟨hperm, rfl⟩

theorem inv_step (hf : Lawful format) {om om' : OffsetManager} {call : SetOffset} (hi : Inv format om)
    (hs : step format om call = some om') : Inv format om' := by
  obtain ⟨hperm, heq⟩ := offsets_step hs
  have h64 : ∀ k o, om'.offsets.lookup k = some o → IsI64 o := by
    intro k o hk
    rw [AList.perm_lookup hperm] at hk
    by_cases h : k = (call.consumer_group, call.topic)
    · rw [h, AList.lookup_insert, Option.some.injEq] at hk
      subst hk
      exact ⟨call.offset.le_toInt, call.offset.toInt_lt⟩
    · rw [AList.lookup_insert_ne h] at hk
      exact hi.i64 k o hk
  obtain ⟨text, htext, -⟩ := recover_flushed hf h64
  have hfile : om'.file = some text := by
    rw [heq]
    simp only [flush, htext]
  exact ⟨h64, .inr ⟨by rw [hfile]; rfl, by rw [hfile, htext]⟩⟩

/-- The keys of the map are those that were set. -/
theorem mem_offsets {tr} {om : OffsetManager} (hr : Run (step format) new tr om) (k : String × String) :
    k ∈ om.offsets ↔ ∃ x ∈ tr, (x.2.consumer_group, x.2.topic) = k := by
  induction hr with
  | nil => simp [new]
  | @snoc tr om call om' hr hs ih =>
    rw [AList.mem_of_perm (offsets_step hs).1, AList.mem_insert, ih]
    simp only [List.mem_append, List.mem_singleton, or_and_right, exists_or, exists_eq_left]
    rw [or_comm, eq_comm]

/-! ## After a restart -/

/-- A file that is there is the text of the map. -/
theorem Inv.file_text {om : OffsetManager} (hi : Inv format om) {text text' : Bytes}
    (htext : format.to_string (flushed_map om.offsets) = some text) (h : om.file = some text') : text' = text := by
  rcases hi.file with ⟨hnone, -⟩ | ⟨-, hsome⟩
  · rw [h] at hnone
    cases hnone
  · rw [h, htext] at hsome
    exact Option.some.inj hsome

theorem Inv.file_of_mem {om : OffsetManager} (hi : Inv format om) {k : String × String} (hk : k ∈ om.offsets) :
    ∃ text, om.file = some text := by
  rcases hi.file with ⟨-, hnil⟩ | ⟨hsome, -⟩
  · rw [hnil] at hk
    exact absurd hk (AList.notMem_empty _)
  · exact Option.isSome_iff_exists.1 hsome

variable (format) in
/-- A new manager reads the file without a panic, and answers as the old one did. -/
def Survives (om : OffsetManager) : Prop :=
  ∀ text, om.file = some text → ∃ om', recover format { new with file := some text } = some (.ok (), om') ∧
    (∀ g t, om'.get_offset g t = om.get_offset g t) ∧ ∀ k, om'.offsets.lookup k = om.offsets.lookup k

/-- The offsets survive a restart if and only if no group that committed has a
colon in its name. -/
theorem survives_iff (hf : Lawful format) {tr} {om : OffsetManager} (hr : Run (step format) new tr om) :
    Survives format om ↔ Always (fun _ call => ':' ∉ call.consumer_group.toList) tr := by
  have hi := hr.inv (Inv format) inv_new fun _ _ _ => inv_step hf
  obtain ⟨text, htext, hrec⟩ := recover_flushed hf hi.i64
  constructor
  · intro hs x hx hg
    have hmem : (x.2.consumer_group, x.2.topic) ∈ om.offsets := (mem_offsets hr _).2 ⟨x, hx, rfl⟩
    obtain ⟨o, ho⟩ := Option.isSome_iff_exists.1 (AList.lookup_isSome.2 hmem)
    obtain ⟨text', h'⟩ := hi.file_of_mem hmem
    obtain rfl := hi.file_text htext h'
    obtain ⟨om₁, h1, -, hsame⟩ := hs _ h'
    obtain ⟨om₂, h2, hlookup⟩ := hrec { new with file := some text' } rfl
    rw [h1] at h2
    cases h2
    have := hlookup x.2.consumer_group x.2.topic
    rw [hsame, ho, if_pos hg] at this
    cases this
  · intro hall text' h'
    obtain rfl := hi.file_text htext h'
    obtain ⟨om', h1, hlookup⟩ := hrec { new with file := some text' } rfl
    have hcolon : ∀ k ∈ om.offsets, ':' ∉ k.1.toList := by
      intro k hk
      obtain ⟨x, hx, rfl⟩ := (mem_offsets hr k).1 hk
      exact hall x hx
    have hsame : ∀ k, om'.offsets.lookup k = om.offsets.lookup k := by
      rintro ⟨g, t⟩
      rw [hlookup g t]
      split
      · rename_i hg
        rw [eq_comm, AList.lookup_eq_none]
        exact fun hmem => hcolon _ hmem hg
      · rename_i hg
        exact lookup_flushed_map hcolon hg t
    refine ⟨om', h1, ?_, hsame⟩
    intro g t
    rw [get_offset, get_offset, hsame]

/-- Two groups without colons, one on a topic with a colon. -/
theorem survives_iff_two :
    ∃ tr om, Run (step flatJson) new tr om ∧ om.get_offset "walk" "foo:bar" = 11 ∧ Survives flatJson om := by
  have hr := (Run.nil.snoc (show step flatJson new _ = some _ from step_set_offset new "test" "foobar" 10)).snoc
    (step_set_offset _ "walk" "foo:bar" 11)
  refine ⟨_, _, hr, by decide, (survives_iff flatJson_lawful hr).2 ?_⟩
  exact always_snoc.2 ⟨always_snoc.2 ⟨always_nil, by decide⟩, by decide⟩

/-- Not every run is like that: what group `"a:b"` committed on `"c"` comes back
under group `"a"` on `"b:c"`. -/
theorem group_with_colon :
    ¬ ∀ tr om, Run (step flatJson) new tr om → Survives flatJson om := by
  intro h
  have hr := Run.nil.snoc (show step flatJson new _ = some _ from step_set_offset new "a:b" "c" 5)
  obtain ⟨om', hrec, hsame, -⟩ := h _ _ hr (utf8 "\x7b\"a:b:c\":5\x7d") (by decide)
  have hlost : (recover flatJson { new with file := some (utf8 "\x7b\"a:b:c\":5\x7d") }).map
      (·.2.get_offset "a:b" "c") = some 0 := by decide
  rw [hrec, Option.map_some, Option.some.injEq, hsame "a:b" "c"] at hlost
  exact absurd hlost (by decide)

/-! ## A crash inside the call -/

variable (format) in
/-- The text a flush of the map may write: the table is iterated over in some
order. -/
def Writes (offsets : HashMap (String × String) Int) (text : Bytes) : Prop :=
  ∃ table : HashMap (String × String) Int, table.entries.Perm offsets.entries ∧
    format.to_string (flushed_map table) = some text

/-- Where the process stops: before `fs::write`, or once it has emptied the file
and written the first `n` bytes. -/
inductive Stop where
  | before
  | written (n : Nat)

def stopped (file : Option Bytes) (text : Bytes) : Stop → Option Bytes
  | .before => file
  | .written n => some (text.take n)

variable (format) in
/-- Both files are read back, as the same map. -/
def ReadsAs (file file' : Option Bytes) : Prop :=
  ∃ om om', recover format { new with file } = some (.ok (), om) ∧
    recover format { new with file := file' } = some (.ok (), om') ∧ ∀ k, om.offsets.lookup k = om'.offsets.lookup k

/-- What `set_offset` writes is a text of the new map. -/
theorem writes_set_offset (om : OffsetManager) (g t : String) (o : Int) {text : Bytes}
    (h : format.to_string (flushed_map (om.offsets.insert (g, t) o)) = some text) :
    Writes format (om.offsets.insert (g, t) o) text ∧
      (om.set_offset format.toOffsetJson g t o).2.file = stopped om.file text (.written text.length) := by
  refine ⟨⟨_, List.Perm.refl _, h⟩, ?_⟩
  simp only [set_offset, flush, h, stopped, List.take_length]

theorem Writes.readsAs (hf : Lawful format) {offsets : HashMap (String × String) Int} {text : Bytes}
    (h64 : ∀ k o, offsets.lookup k = some o → IsI64 o) (h : Writes format offsets text) :
    ReadsAs format (some text) (some text) := by
  obtain ⟨table, hperm, htext⟩ := h
  obtain ⟨text', htext', hrec⟩ := recover_flushed hf fun k o hk => h64 k o (by rwa [← AList.perm_lookup hperm])
  rw [htext] at htext'
  cases htext'
  obtain ⟨om, hom, -⟩ := hrec { new with file := some text } rfl
  exact ⟨om, om, hom, hom, fun _ => rfl⟩

/-- Of a text that is cut short nothing is read. -/
theorem Writes.refuses (hf : Lawful format) {offsets : HashMap (String × String) Int} {text : Bytes}
    (h : Writes format offsets text) {n : Nat} (hn : n < text.length) (file : Option Bytes) :
    ¬ ReadsAs format (some (text.take n)) file := by
  obtain ⟨table, -, htext⟩ := h
  have hne : text.take n ≠ text := by
    intro heq
    have := congrArg List.length heq
    rw [List.length_take] at this
    omega
  have hnone := hf.refuses _ text _ htext (List.take_prefix n text) hne
  rintro ⟨om, om', hom, -⟩
  simp only [recover, hnone] at hom
  cases hom

/-- A stop inside `set_offset` leaves the old map or the new one if and only if it
comes before the file is emptied or after the last byte is written. -/
theorem atomic_iff (hf : Lawful format) {om : OffsetManager} (h64 : ∀ k o, om.offsets.lookup k = some o → IsI64 o)
    {old : Bytes} (hfile : om.file = some old) (hold : Writes format om.offsets old) (g t : String) (o : Int64)
    {text : Bytes} (htext : Writes format (om.offsets.insert (g, t) o.toInt) text) (stop : Stop) :
    (ReadsAs format (stopped om.file text stop) om.file ∨ ReadsAs format (stopped om.file text stop) (some text)) ↔
      (stop = .before ∨ ∃ n, stop = .written n ∧ text.length ≤ n) := by
  have h64' : ∀ k o', (om.offsets.insert (g, t) o.toInt).lookup k = some o' → IsI64 o' := by
    intro k o' hk
    by_cases h : k = (g, t)
    · rw [h, AList.lookup_insert, Option.some.injEq] at hk
      subst hk
      exact ⟨o.le_toInt, o.toInt_lt⟩
    · rw [AList.lookup_insert_ne h] at hk
      exact h64 k o' hk
  cases stop with
  | before =>
    rw [stopped, hfile]
    exact iff_of_true (.inl (hold.readsAs hf h64)) (.inl rfl)
  | written n =>
    rw [stopped]
    by_cases hn : n < text.length
    · refine iff_of_false ?_ ?_
      · rintro (h | h) <;> exact htext.refuses hf hn _ h
      · rintro (h | ⟨m, h, hm⟩) <;> cases h
        omega
    · rw [List.take_of_length_le (by omega)]
      exact iff_of_true (.inr (htext.readsAs hf h64')) (.inr ⟨n, rfl, by omega⟩)

/-- The second commit is stopped before it touches the file, or right after. -/
theorem atomic_iff_two :
    let om := (new.set_offset flatJson.toOffsetJson "g" "t" 1).2
    let text := utf8 "\x7b\"g:t\":1,\"h:t\":2\x7d"
    (ReadsAs flatJson om.file om.file ∨ ReadsAs flatJson om.file (some text)) ∧
      ¬ (ReadsAs flatJson (some []) om.file ∨ ReadsAs flatJson (some []) (some text)) := by
  intro om text
  have h64 := (inv_step flatJson_lawful inv_new (step_set_offset new "g" "t" 1)).i64
  have hold : Writes flatJson om.offsets (utf8 "\x7b\"g:t\":1\x7d") := ⟨_, List.Perm.refl _, by decide⟩
  have htext : Writes flatJson (om.offsets.insert ("h", "t") (2 : Int64).toInt) text := ⟨_, List.Perm.refl _, by decide⟩
  have h := atomic_iff flatJson_lawful h64 (by decide) hold "h" "t" 2 htext
  refine ⟨(h .before).2 (.inl rfl), fun hempty => ?_⟩
  rcases (h (.written 0)).1 hempty with hb | ⟨n, hn, hle⟩
  · cases hb
  · cases hn
    exact absurd hle (by decide)

/-- Not every stop is harmless: the emptied file cannot be read. -/
theorem emptied_file :
    ¬ ∀ (om : OffsetManager) (old text : Bytes) (g t : String) (o : Int64) (stop : Stop),
      (∀ k o, om.offsets.lookup k = some o → IsI64 o) → om.file = some old → Writes flatJson om.offsets old →
      Writes flatJson (om.offsets.insert (g, t) o.toInt) text →
      ReadsAs flatJson (stopped om.file text stop) om.file ∨ ReadsAs flatJson (stopped om.file text stop) (some text) := by
  intro h
  have h64 := (inv_step flatJson_lawful inv_new (step_set_offset new "g" "t" 1)).i64
  have hread : recover flatJson { new with file := some [] } = some (.error .Deserialization, ⟨∅, some []⟩) := by rfl
  rcases h _ (utf8 "\x7b\"g:t\":1\x7d") (utf8 "\x7b\"g:t\":1,\"h:t\":2\x7d") "h" "t" 2 (.written 0) h64 (by decide)
    ⟨_, List.Perm.refl _, by decide⟩ ⟨_, List.Perm.refl _, by decide⟩ with ⟨om, om', hom, -⟩ | ⟨om, om', hom, -⟩
  · rw [stopped, List.take_zero, hread] at hom
    cases hom
  · rw [stopped, List.take_zero, hread] at hom
    cases hom

end herbert.OffsetRecovery
