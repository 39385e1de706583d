import Mathlib.Data.List.Infix
import Herbert.Consumers
import Herbert.Fetch
import Herbert.Lib.Cursor
/-!
# A group skips no record

The committed offset is a cursor that the group's calls share (`cursor`): a step
of the system is a step of `Lib.Cursor` or leaves the cursor's state alone
(`cursor_step`). So every index below the committed offset was read by a call,
whatever commits arrive late or in another order, and what a call read there is
the record.

`Inv` says that what is on a connection follows from where its call is, and
`step_move` what one step can then be.
-/
open Lib Lib.Runs Lib.Bytes herbert.TopicManager herbert.Fetch herbert.Client herbert.Consumers

namespace herbert.Group

variable {ι σ ρ : Type}

/-! ## The topic -/

/-- The topic takes raw records, has only those without zero bytes, and fits a
`VecDeque`. -/
structure RawTopic (t : String) (tm : TopicManager σ ρ (InMemoryLog σ ρ)) : Prop where
  tracks : ∃ h, Tracks tm h ∧ ∀ r ∈ h.ofTopic t, ∃ m, r = .Raw m ∧ 0 ∉ m
  schema : ∀ name s, tm.topic_metadatas.lookup t ≠ some ⟨name, some s⟩
  fits : (tm.backend.queue t).length < 2 ^ 63

/-- Messages without zero bytes that are the queue's records from the offset on,
or were when it was shorter. -/
def Snapshot (q : List (StoredRecord σ ρ)) (o : Int) (ms : List Bytes) : Prop :=
  0 ≤ o ∧ ms.map .Raw <+: q.drop o.toNat ∧ ∀ m ∈ ms, 0 ∉ m

variable {t : String} {tm : TopicManager σ ρ (InMemoryLog σ ρ)}

theorem RawTopic.messages (h : RawTopic t tm) :
    ∃ ms : List Bytes, tm.backend.queue t = ms.map .Raw ∧ ∀ m ∈ ms, 0 ∉ m := by
  obtain ⟨hist, htracks, hraw⟩ := h.tracks
  have hq : ∀ r ∈ tm.backend.queue t, ∃ m, r = .Raw m ∧ 0 ∉ m :=
    fun r hr => hraw r ((htracks.queue_isPrefix t).subset hr)
  generalize tm.backend.queue t = q at hq
  induction q with
  | nil => exact ⟨[], rfl, by simp⟩
  | cons r q ih =>
    obtain ⟨m, rfl, hm⟩ := hq r (by simp)
    obtain ⟨ms, rfl, hms⟩ := ih fun r hr => hq r (by simp [hr])
    exact ⟨m :: ms, rfl, by simp [hm]; exact hms⟩

/-- A fetch from inside the queue or its end returns a snapshot. -/
theorem RawTopic.fetch_snapshot (ipc : ArrowIpc σ ρ) (h : RawTopic t tm) {o : Int} (h0 : 0 ≤ o)
    (hle : o ≤ (tm.backend.queue t).length) :
    ∃ ms, (tm.fetch ipc t o).1 = .ok ([0].intercalate ms) ∧ Snapshot (tm.backend.queue t) o ms := by
  obtain ⟨ms, hq, hz⟩ := h.messages
  have hfits := h.fits
  obtain ⟨-, ⟨visible, -, hvis⟩, -⟩ := h.tracks
  have hfetch : (tm.fetch ipc t o).1 = readFrom ipc (ms.map .Raw) o := by
    rw [← hq, hvis.queue, ← fetch_holds ipc hvis]
    rfl
  rw [hq, List.length_map] at hle hfits
  rw [hfetch, hq]
  by_cases hlt : o < ms.length
  · refine ⟨ms.drop o.toNat, readFrom_raw ipc ms h0 (by omega) hlt, h0, ?_, ?_⟩
    · rw [List.map_drop]
    · exact fun m hm => hz m (List.mem_of_mem_drop hm)
  · refine ⟨[], readFrom_outside ipc _ (by omega) (by omega) ?_, h0, by simp, by simp⟩
    rw [entryCount_raw]
    omega

/-- A later queue has the same records at the same places. -/
theorem Snapshot.mono {q q' : List (StoredRecord σ ρ)} (hq : q <+: q') {o : Int} {ms : List Bytes}
    (h : Snapshot q o ms) : Snapshot q' o ms := by
  obtain ⟨h0, hp, hz⟩ := h
  exact ⟨h0, hp.trans (hq.drop o.toNat), hz⟩

theorem snapshot_nil (q : List (StoredRecord σ ρ)) {o : Int} (h0 : 0 ≤ o) : Snapshot q o [] := ⟨h0, by simp, by simp⟩

theorem Snapshot.getElem? {q : List (StoredRecord σ ρ)} {o : Int} {ms : List Bytes} (h : Snapshot q o ms) {n : Nat}
    (hn : n < ms.length) : ∃ m, ms[n]? = some m ∧ q[o.toNat + n]? = some (.Raw m) := by
  obtain ⟨-, ⟨tail, heq⟩, -⟩ := h
  refine ⟨ms[n], List.getElem?_eq_getElem hn, ?_⟩
  rw [← List.getElem?_drop, ← heq, List.getElem?_append_left (by simpa using hn)]
  simp [hn]

theorem RawTopic.fetch (ipc : ArrowIpc σ ρ) (h : RawTopic t tm) (t' : String) (o : Int) :
    RawTopic t (tm.fetch ipc t' o).2 where
  tracks := by
    obtain ⟨hist, htracks, hraw⟩ := h.tracks
    exact ⟨hist, htracks.fetch ipc t' o, hraw⟩
  schema := h.schema
  fits := by
    rw [queue_fetch]
    exact h.fits

section
variable [DecidableEq σ]

/-- `add` for any topic keeps the topic raw, if what it adds has no zero bytes. -/
theorem RawTopic.add (ipc : ArrowIpc σ ρ) (h : RawTopic t tm) {t' : String} {record : Bytes}
    (hz : t' = t → 0 ∉ record) (hfits : ((tm.add ipc t' record).2.backend.queue t).length < 2 ^ 63) :
    RawTopic t (tm.add ipc t' record).2 ∧ tm.backend.queue t <+: (tm.add ipc t' record).2.backend.queue t := by
  rcases add_cases ipc tm t' record with ⟨e, he⟩ | ⟨r, hr, hw⟩
  · rw [he]
    exact ⟨h, List.prefix_rfl⟩
  obtain ⟨hist, htracks, hraw⟩ := h.tracks
  obtain ⟨htracks', hq, hm⟩ := htracks.add hr hw
  refine ⟨⟨⟨_, htracks', ?_⟩, ?_, hfits⟩, hq t⟩
  · intro x hx
    rw [History.ofTopic_append, History.ofTopic_singleton] at hx
    rcases List.mem_append.1 hx with hold | hnew
    · exact hraw x hold
    · by_cases ht : t' = t
      · subst ht
        rw [stored_record_no_schema h.schema] at hr
        cases hr
        rw [if_pos rfl, List.mem_singleton] at hnew
        exact ⟨record, hnew, hz rfl⟩
      · rw [if_neg ht] at hnew
        cases hnew
  · rw [hm]
    exact h.schema

end

theorem RawTopic.create (h : RawTopic t tm) {t' : String} {schema : Option σ} (hs : t' = t → schema = none) :
    RawTopic t (tm.create t' schema).2 ∧ (tm.create t' schema).2.backend = tm.backend := by
  obtain ⟨hist, htracks, hraw⟩ := h.tracks
  refine ⟨⟨⟨hist, htracks.create t' schema, hraw⟩, ?_, ?_⟩, backend_create tm t' schema⟩
  · intro name sch
    rw [lookup_create]
    split
    · rename_i hnew
      rw [hs hnew.1.symm]
      simp
    · exact h.schema name sch
  · rw [backend_create]
    exact h.fits

/-! ## The calls -/

variable {setup : Setup ι σ ρ} {s s' : State ι σ ρ}

/-- An offset in the queue, or its end. -/
def Within (q : List (StoredRecord σ ρ)) (o : Int) : Prop := 0 ≤ o ∧ o ≤ q.length

theorem Within.mono {q q' : List (StoredRecord σ ρ)} (hq : q <+: q') {o : Int} (h : Within q o) : Within q' o := by
  have := hq.length_le
  exact ⟨h.1, by have := h.2; omega⟩

theorem Snapshot.within {q : List (StoredRecord σ ρ)} {o : Int} {ms : List Bytes} (h : Snapshot q o ms)
    (hne : ms ≠ []) : Within q (o + ms.length) := by
  have hle := h.2.1.length_le
  have hpos := List.length_pos_of_ne_nil hne
  rw [List.length_map, List.length_drop] at hle
  exact ⟨by have := h.1; omega, by have := h.1; omega⟩

def offset_response (setup : Setup ι σ ρ) (o : Int) : KafkaResponse := .OffsetFetch ⟨[⟨setup.topic, [⟨o⟩]⟩]⟩

def fetch_response (ms : List Bytes) : KafkaResponse := .Fetch ⟨[⟨[⟨some ([0].intercalate ms)⟩]⟩]⟩

/-- What a call and its connection can look like when the queue is `q`. -/
inductive Conversation (setup : Setup ι σ ρ) (i : ι) (q : List (StoredRecord σ ρ)) : Call → Prop
  | idle : Conversation setup i q ⟨.idle, [], []⟩
  | asked : Conversation setup i q ⟨.offsetSent, [offset_request setup], []⟩
  | told (o : Int) : Within q o → Conversation setup i q ⟨.offsetSent, [], [some (offset_response setup o)]⟩
  | fetching (o : Int) : Within q o → Conversation setup i q ⟨.fetchSent o, [fetch_request setup i o], []⟩
  | fetched (o : Int) (ms : List Bytes) : Snapshot q o ms →
      Conversation setup i q ⟨.fetchSent o, [], [some (fetch_response ms)]⟩
  | committing (o : Int) (parts : List Bytes) : Snapshot q o parts → parts ≠ [] →
      Conversation setup i q ⟨.returned o parts, [commit_request setup (o + parts.length)], []⟩
  | done (o : Int) (parts : List Bytes) : Snapshot q o parts → Conversation setup i q ⟨.returned o parts, [], []⟩

theorem Conversation.mono {i : ι} {q q' : List (StoredRecord σ ρ)} {c : Call} (h : Conversation setup i q c)
    (hq : q <+: q') : Conversation setup i q' c := by
  cases h with
  | idle => exact .idle
  | asked => exact .asked
  | told o ho => exact .told o (ho.mono hq)
  | fetching o ho => exact .fetching o (ho.mono hq)
  | fetched o ms hs => exact .fetched o ms (hs.mono hq)
  | committing o parts hs hne => exact .committing o parts (hs.mono hq) hne
  | done o parts hs => exact .done o parts (hs.mono hq)

variable (setup) in
structure Inv (s : State ι σ ρ) : Prop where
  raw : RawTopic setup.topic s.server.topic_manager
  committed : Within (topicQueue setup s) (committed setup s)
  calls : ∀ i, Conversation setup i (topicQueue setup s) (s.call i)

theorem inv_start (config : Config) : Inv setup (start config) where
  raw := by
    refine ⟨⟨[], tracks_new config [], by simp⟩, ?_, ?_⟩
    · simp [start, Server.new, TopicManager.new]
    · simp [start, Server.new, TopicManager.new]
  committed := ⟨Int.le_refl 0, Int.natCast_nonneg _⟩
  calls _ := .idle

/-! ## Steps -/

section
variable [DecidableEq ι]

variable (setup) in
/-- What one step can be. -/
inductive Move (s : State ι σ ρ) : Label ι σ → State ι σ ρ → Prop
  | serve (l : Label ι σ) (server : Server σ ρ) : RawTopic setup.topic server.topic_manager →
      topicQueue setup s <+: server.topic_manager.backend.queue setup.topic →
      server.offset_manager.get_offset setup.consumer_group setup.topic = committed setup s →
      Move s l { s with server }
  | ask (i : ι) : s.call i = ⟨.idle, [], []⟩ →
      Move s (.begin i) { s with call := Function.update s.call i ⟨.offsetSent, [offset_request setup], []⟩ }
  | tell (i : ι) : s.call i = ⟨.offsetSent, [offset_request setup], []⟩ →
      Move s (.handle i) { s with
        call := Function.update s.call i ⟨.offsetSent, [], [some (offset_response setup (committed setup s))]⟩ }
  | told (i : ι) (o : Int) : s.call i = ⟨.offsetSent, [], [some (offset_response setup o)]⟩ →
      Within (topicQueue setup s) o → Move s (.receive i) { s with
        call := Function.update s.call i ⟨.fetchSent o, [fetch_request setup i o], []⟩ }
  | fetch (i : ι) (o : Int) (ms : List Bytes) (topic_manager : TopicManager σ ρ (InMemoryLog σ ρ)) :
      s.call i = ⟨.fetchSent o, [fetch_request setup i o], []⟩ → Snapshot (topicQueue setup s) o ms →
      RawTopic setup.topic topic_manager → topic_manager.backend.queue setup.topic = topicQueue setup s →
      Move s (.handle i) ⟨{ s.server with topic_manager },
        Function.update s.call i ⟨.fetchSent o, [], [some (fetch_response ms)]⟩⟩
  | read (i : ι) (o : Int) (ms : List Bytes) : s.call i = ⟨.fetchSent o, [], [some (fetch_response ms)]⟩ →
      Snapshot (topicQueue setup s) o ms → ms ≠ [] → Move s (.receive i) { s with
        call := Function.update s.call i ⟨.returned o ms, [commit_request setup (o + ms.length)], []⟩ }
  | nothing (i : ι) (o : Int) (ms : List Bytes) : s.call i = ⟨.fetchSent o, [], [some (fetch_response ms)]⟩ →
      Snapshot (topicQueue setup s) o ms → Move s (.receive i) { s with call := Function.update s.call i ⟨.returned o [], [], []⟩ }
  | commit (i : ι) (o : Int) (parts : List Bytes) (offset_manager : OffsetManager) :
      s.call i = ⟨.returned o parts, [commit_request setup (o + parts.length)], []⟩ →
      Snapshot (topicQueue setup s) o parts → parts ≠ [] →
      offset_manager.get_offset setup.consumer_group setup.topic = o + parts.length →
      Move s (.handle i) ⟨{ s.server with offset_manager }, Function.update s.call i ⟨.returned o parts, [], []⟩⟩

variable [DecidableEq σ]

/-- The server takes the first message of a connection. -/
theorem handle_move (hi : Inv setup s) {i : ι} (h : step setup s (.handle i) = some s') : Move setup s (.handle i) s' := by
  have hconv := hi.calls i
  simp only [step] at h
  generalize hc : s.call i = c at h hconv
  cases hconv with
  | idle => cases h
  | asked =>
    simp only [offset_request, Server.handle_offset_fetch, List.nil_append] at h
    cases h
    exact .tell i hc
  | told o ho => cases h
  | fetching o ho =>
    obtain ⟨ms, hms, hsnap⟩ := hi.raw.fetch_snapshot setup.ipc ho.1 ho.2
    simp only [fetch_request, Server.handle_fetch setup.ipc setup.json hms, List.nil_append] at h
    cases h
    exact .fetch i o ms _ hc hsnap (hi.raw.fetch setup.ipc setup.topic o) (queue_fetch setup.ipc _ _ _ o)
  | fetched o ms hs => cases h
  | committing o parts hs hne =>
    simp only [commit_request, Server.handle_offset_commit] at h
    cases h
    apply Move.commit i o parts _ hc hs hne
    rw [OffsetManager.get_offset_set_offset, if_pos rfl]
  | done o parts hs => cases h

/-- A call reads a response: it fetches, or it returns and commits what it moved
past. -/
theorem receive_move (hi : Inv setup s) {i : ι} (h : step setup s (.receive i) = some s') :
    Move setup s (.receive i) s' := by
  have hconv := hi.calls i
  simp only [step] at h
  generalize hc : s.call i = c at h hconv
  cases hconv with
  | idle => cases h
  | asked => cases h
  | told o ho =>
    simp only [answered, offset_response, get_offset, List.getElem?_cons_zero, List.nil_append] at h
    cases h
    exact .told i o hc ho
  | fetching o ho => cases h
  | fetched o ms hs =>
    simp only [answered, fetch_response, get_records, List.getElem?_cons_zero, finish] at h
    rcases consume_join hs.2.2 o with ⟨hne, hread⟩ | hnone
    · simp only [hread, List.nil_append] at h
      cases h
      exact .read i o ms hc hs hne
    · simp only [hnone, List.append_nil] at h
      cases h
      exact .nothing i o ms hc hs
  | committing o parts hs hne => cases h
  | done o parts hs => cases h

theorem begin_move (hi : Inv setup s) {i : ι} (h : step setup s (.begin i) = some s') : Move setup s (.begin i) s' := by
  have hconv := hi.calls i
  simp only [step] at h
  generalize hc : s.call i = c at h hconv
  cases hconv with
  | idle =>
    cases h
    exact .ask i hc
  | _ => cases h

omit [DecidableEq ι] [DecidableEq σ] in
theorem handled_eq_some {server : Server σ ρ} (h : handled setup s server = some s') :
    (server.topic_manager.backend.queue setup.topic).length < 2 ^ 63 ∧ s' = { s with server } := by
  rw [handled, Option.ite_none_right_eq_some] at h
  exact ⟨h.1, (Option.some.inj h.2).symm⟩

theorem step_move (hi : Inv setup s) {l : Label ι σ} (h : step setup s l = some s') : Move setup s l s' := by
  cases l with
  | begin i => exact begin_move hi h
  | handle i => exact handle_move hi h
  | receive i => exact receive_move hi h
  | produce t' record =>
    rw [step, Option.ite_none_left_eq_some, Server.handle_produce] at h
    obtain ⟨hz, h⟩ := h
    obtain ⟨hfits, rfl⟩ := handled_eq_some h
    obtain ⟨hraw, hq⟩ := hi.raw.add setup.ipc (fun ht h0 => hz ⟨ht, h0⟩) hfits
    exact .serve _ _ hraw hq rfl
  | commit g t' o =>
    rw [step, Option.ite_none_left_eq_some, Server.handle_offset_commit] at h
    obtain ⟨hother, h⟩ := h
    obtain ⟨-, rfl⟩ := handled_eq_some h
    refine .serve _ _ hi.raw List.prefix_rfl ?_
    rw [OffsetManager.get_offset_set_offset, if_neg (Ne.symm hother)]
    rfl
  | create_topic t' schema =>
    rw [step, Option.ite_none_left_eq_some] at h
    obtain ⟨hs, h⟩ := h
    obtain ⟨-, rfl⟩ := handled_eq_some h
    have hnone : t' = setup.topic → schema = none := fun ht => by_contra fun hne => hs ⟨ht, hne⟩
    obtain ⟨hraw, hbackend⟩ := hi.raw.create hnone
    refine .serve _ _ hraw ?_ rfl
    show topicQueue setup s <+: (s.server.topic_manager.create t' schema).2.backend.queue setup.topic
    rw [hbackend]
    exact List.prefix_rfl

omit [DecidableEq σ] in
/-- One call changed, and the queue may have grown. -/
theorem Inv.update {i : ι} {c : Call} {server : Server σ ρ} (hi : Inv setup s)
    (hraw : RawTopic setup.topic server.topic_manager)
    (hq : topicQueue setup s <+: server.topic_manager.backend.queue setup.topic)
    (hcommitted : Within (server.topic_manager.backend.queue setup.topic)
      (server.offset_manager.get_offset setup.consumer_group setup.topic))
    (hc : Conversation setup i (server.topic_manager.backend.queue setup.topic) c) :
    Inv setup ⟨server, Function.update s.call i c⟩ where
  raw := hraw
  committed := hcommitted
  calls j := by
    show Conversation setup j (server.topic_manager.backend.queue setup.topic) (Function.update s.call i c j)
    by_cases hj : j = i
    · subst hj
      simpa using hc
    · simpa [hj] using (hi.calls j).mono hq

omit [DecidableEq σ] in
theorem Move.inv (hi : Inv setup s) {l : Label ι σ} (h : Move setup s l s') : Inv setup s' := by
  have hcall : ∀ {i : ι} {c : Call}, Conversation setup i (topicQueue setup s) c →
      Inv setup { s with call := Function.update s.call i c } :=
    fun hc => hi.update hi.raw List.prefix_rfl hi.committed hc
  cases h with
  | serve _ server hraw hq hcommitted =>
    refine ⟨hraw, ?_, fun j => (hi.calls j).mono hq⟩
    show Within _ (server.offset_manager.get_offset setup.consumer_group setup.topic)
    rw [hcommitted]
    exact hi.committed.mono hq
  | ask i hc => exact hcall .asked
  | tell i hc => exact hcall (.told _ hi.committed)
  | told i o hc ho => exact hcall (.fetching o ho)
  | fetch i o ms topic_manager hc hs hraw hq =>
    refine hi.update hraw (hq ▸ List.prefix_rfl) ?_ (.fetched o ms (hq ▸ hs))
    rw [hq]
    exact hi.committed
  | read i o ms hc hs hne => exact hcall (.committing o ms hs hne)
  | nothing i o ms hc hs => exact hcall (.done o [] (snapshot_nil _ hs.1))
  | commit i o parts offset_manager hc hs hne hoffset =>
    refine hi.update hi.raw List.prefix_rfl ?_ (.done o parts hs)
    rw [hoffset]
    exact hs.within hne

theorem inv_step (hi : Inv setup s) {l : Label ι σ} (h : step setup s l = some s') : Inv setup s' := (step_move hi h).inv hi

/-! ## The cursor -/

/-- The call as a reader of the cursor. Its write is pending while the commit is
on its way. -/
def reader (c : Call) : Cursor.Reader :=
  match c.pc with
  | .idle => .idle
  | .offsetSent =>
    match c.toClient with
    | some (.OffsetFetch response) :: _ =>
      match get_offset response with
      | .ok offset => .holds offset
      | .error _ => .asked
    | _ => .asked
  | .fetchSent initial_offset => .holds initial_offset
  | .returned initial_offset parts => .read initial_offset parts.length !c.toServer.isEmpty
  | .failed _ => .asked

variable (setup) in
def cursor (s : State ι σ ρ) : Cursor.State ι := ⟨committed setup s, reader ∘ s.call⟩

omit [DecidableEq σ] in
theorem cursor_update (server : Server σ ρ) (i : ι) (c : Call) :
    cursor setup ⟨server, Function.update s.call i c⟩ =
      ⟨server.offset_manager.get_offset setup.consumer_group setup.topic,
        Function.update (reader ∘ s.call) i (reader c)⟩ := by
  rw [cursor, Function.comp_update]
  rfl

/-- Only a call that begins asks, and it is told the offset when its OffsetFetch is
handled. -/
def Matches (setup : Setup ι σ ρ) (s : State ι σ ρ) (l : Label ι σ) : Cursor.Label ι → Prop
  | .ask i => l = .begin i
  | .tell i => l = .handle i ∧ s.call i = ⟨.offsetSent, [offset_request setup], []⟩
  | _ => True

omit [DecidableEq σ] in
/-- A step moves one reader of the cursor, or none. -/
theorem cursor_move {l : Label ι σ} (h : Move setup s l s') :
    cursor setup s' = cursor setup s ∨
      ∃ l', Matches setup s l l' ∧ Cursor.step (cursor setup s) l' = some (cursor setup s') := by
  have hreader : ∀ {i : ι} {c : Call}, s.call i = c → (cursor setup s).reader i = reader c := by
    intro i c hc
    rw [← hc]
    rfl
  -- the reader stays where it is
  have hstay : ∀ {i : ι} {c : Call} {server : Server σ ρ}, reader c = reader (s.call i) →
      server.offset_manager = s.server.offset_manager →
      cursor setup ⟨server, Function.update s.call i c⟩ = cursor setup s := by
    intro i c server hr hom
    rw [cursor_update, hr, hom, ← Function.comp_apply (f := reader), Function.update_eq_self]
    rfl
  cases h with
  | serve _ server hraw hq hcommitted =>
    left
    rw [cursor, cursor]
    exact congrArg (Cursor.State.mk · _) hcommitted
  | ask i hc =>
    right
    refine ⟨.ask i, rfl, ?_⟩
    rw [Cursor.step, hreader hc, cursor_update]
    rfl
  | tell i hc =>
    right
    refine ⟨.tell i, ⟨rfl, hc⟩, ?_⟩
    rw [Cursor.step, hreader hc, cursor_update]
    rfl
  | told i o hc ho =>
    left
    exact hstay (by rw [hc]; rfl) rfl
  | fetch i o ms topic_manager hc hs hraw hq =>
    left
    exact hstay (by rw [hc]; rfl) rfl
  | read i o ms hc hs hne =>
    right
    refine ⟨.read i ms.length, trivial, ?_⟩
    have hpos : decide (0 < ms.length) = true := decide_eq_true (List.length_pos_of_ne_nil hne)
    rw [Cursor.step, hreader hc, cursor_update]
    simp only [reader, hpos]
    rfl
  | nothing i o ms hc hs =>
    right
    refine ⟨.read i 0, trivial, ?_⟩
    rw [Cursor.step, hreader hc, cursor_update]
    rfl
  | commit i o parts offset_manager hc hs hne hoffset =>
    right
    refine ⟨.write i, trivial, ?_⟩
    rw [Cursor.step, hreader hc, cursor_update, hoffset]
    rfl

theorem cursor_step (hi : Inv setup s) {l : Label ι σ} (h : step setup s l = some s') :
    cursor setup s' = cursor setup s ∨
      ∃ l', Matches setup s l l' ∧ Cursor.step (cursor setup s) l' = some (cursor setup s') :=
  cursor_move (step_move hi h)

/-! ## Runs -/

theorem inv_run {config : Config} {tr} (hr : Run (step setup) (start config) tr s) : Inv setup s :=
  hr.inv (Inv setup) (inv_start config) fun _ _ _ hi h => inv_step hi h

omit [DecidableEq ι] [DecidableEq σ] in
/-- The parts a call returned are the records from its offset on. -/
theorem Inv.returned (hi : Inv setup s) {i : ι} {o : Int} {parts : List Bytes} (hpc : (s.call i).pc = .returned o parts)
    {n : Nat} (hn : n < parts.length) : 0 ≤ o ∧ ReceivedBy setup s i (o.toNat + n) := by
  have hs : Snapshot (topicQueue setup s) o parts := by
    have hconv := hi.calls i
    generalize s.call i = c at hpc hconv
    cases hconv with
    | committing o' parts' hs hne => cases hpc; exact hs
    | done o' parts' hs => cases hpc; exact hs
    | _ => cases hpc
  obtain ⟨m, hpart, hrec⟩ := hs.getElem? hn
  have h0 := hs.1
  refine ⟨h0, o, parts, m, hpc, by omega, ?_, hrec⟩
  rw [← hpart]
  congr 1
  omega

omit [DecidableEq ι] [DecidableEq σ] in
/-- What a call read through the cursor, it returned. -/
theorem reads_iff (hi : Inv setup s) {i : ι} {idx : Nat} :
    Cursor.Reads (cursor setup s) i idx ↔ ReceivedBy setup s i idx := by
  constructor
  · rintro ⟨o, n, b, hread, hle, hlt⟩
    change reader (s.call i) = _ at hread
    obtain ⟨parts, hpc, hn⟩ : ∃ parts, (s.call i).pc = .returned o parts ∧ n = parts.length := by
      have hconv := hi.calls i
      generalize s.call i = c at hread hconv
      cases hconv with
      | committing o' parts hs hne => cases hread; exact ⟨parts, rfl, rfl⟩
      | done o' parts hs => cases hread; exact ⟨parts, rfl, rfl⟩
      | _ => cases hread
    obtain ⟨h0, hreceived⟩ := hi.returned hpc (n := (idx - o).toNat) (by omega)
    rwa [show o.toNat + (idx - o).toNat = idx by omega] at hreceived
  · rintro ⟨o, parts, m, hpc, hle, hpart, -⟩
    have hlt := (List.getElem?_eq_some_iff.1 hpart).1
    refine ⟨o, parts.length, !(s.call i).toServer.isEmpty, ?_, hle, by omega⟩
    show reader (s.call i) = _
    rw [reader, hpc]

/-- A group skips nothing: every record below its committed offset was returned
by one of its calls. -/
theorem no_record_skipped {config : Config} {tr} (hr : Run (step setup) (start config) tr s) {idx : Nat}
    (h : idx < committed setup s) : Received setup s idx := by
  obtain ⟨_, hrun, -⟩ := hr.simulate (C := fun _ _ => True) (D := fun _ _ => True) (cursor setup) (Inv setup)
    (inv_start config) (fun _ _ _ hi h => inv_step hi h)
    (fun _ _ _ hi _ h => (cursor_step hi h).imp_right fun ⟨l', _, hl'⟩ => ⟨l', trivial, hl'⟩) (fun _ _ => trivial)
  obtain ⟨i, hi⟩ := Cursor.covered_cursor hrun idx (Int.natCast_nonneg _) h
  exact ⟨i, (reads_iff (inv_run hr)).1 hi⟩

/-- Two overlapping calls get the same record, and the later one's commit comes
first. -/
theorem no_record_skipped_two :
    ∃ s : State Nat UInt8 UInt8, Reachable (step pocketSetup) (start ⟨1⟩) s ∧ committed pocketSetup s = 1 ∧ Received pocketSetup s 0 := by
  let schedule : List (Label Nat UInt8) := [.begin 0, .begin 1, .handle 0, .produce "t" [97], .handle 1,
    .receive 1, .receive 0, .handle 0, .receive 0, .produce "t" [98], .handle 1, .receive 1, .handle 1, .handle 0]
  obtain ⟨s, hs⟩ := Option.isSome_iff_exists.1 (show (exec (step pocketSetup) (start ⟨1⟩) schedule).isSome by decide)
  have hone : (exec (step pocketSetup) (start ⟨1⟩) schedule).map (committed pocketSetup) = some 1 := by decide
  rw [hs] at hone
  have hcommitted : committed pocketSetup s = 1 := Option.some.inj hone
  obtain ⟨tr, hr⟩ := reachable_exec hs
  exact ⟨s, ⟨tr, hr⟩, hcommitted, no_record_skipped hr (by rw [hcommitted]; decide)⟩

end

end herbert.Group
