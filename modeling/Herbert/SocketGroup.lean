import Herbert.Sockets
/-!
# A group over connections skips no record

What is on the connection of a call stands for the messages of `Consumers`
(`Wired`), so a step on bytes is a `Group.Move` or changes nothing there
(`simulates`). The group then skips no record, and returns nothing but records, as
long as each read gets the whole response (`group_over_connections`).
-/
open Lib Lib.Bytes Lib.Runs herbert.Connection herbert.Framing herbert.Requests herbert.Sockets
open herbert.Consumers (Setup Pc)

namespace herbert.SocketGroup

variable {ι κ σ ρ : Type} {setup : Setup ι σ ρ} {kafka : KafkaCodec}

/-! ## What a connection stands for -/

/-- The connection of a call: what is on its way, whether the client has hung up,
and whether the task has ended. -/
structure View where
  pc : Pc
  toServer : Bytes
  toClient : Bytes
  closed : Bool
  ended : Bool

def view (socket : Socket) (task : Tasks.Task) : View :=
  ⟨socket.pc, task.input ++ socket.unsent, task.output, task.closed, task.result.isSome⟩

variable (setup kafka) in
/-- The messages that the bytes stand for. A request may be cut by its `write`, and
never becomes whole then. -/
inductive Wired (i : ι) : View → Consumers.Call → Prop
  | idle : Wired i ⟨.idle, [], [], false, false⟩ ⟨.idle, [], []⟩
  | asked (buffer toServer ended) : (offset_request setup).request_buffer kafka = .ok buffer → toServer <+: buffer →
      Wired i ⟨.offsetSent, toServer, [], false, ended⟩ ⟨.offsetSent, [Consumers.offset_request setup], []⟩
  | told (o sent) : Answers kafka 6 (Group.offset_response setup o) sent →
      Wired i ⟨.offsetSent, [], sent, false, false⟩ ⟨.offsetSent, [], [some (Group.offset_response setup o)]⟩
  | fetching (o buffer toServer) : (fetch_request setup i o).request_buffer kafka = .ok buffer → toServer <+: buffer →
      Wired i ⟨.fetchSent o, toServer, [], false, false⟩ ⟨.fetchSent o, [Consumers.fetch_request setup i o], []⟩
  | fetched (o ms sent) : Answers kafka 1 (Group.fetch_response ms) sent →
      Wired i ⟨.fetchSent o, [], sent, false, false⟩ ⟨.fetchSent o, [], [some (Group.fetch_response ms)]⟩
  /-- The task ends instead of answering. -/
  | cut (o ms) : Wired i ⟨.fetchSent o, [], [], false, true⟩ ⟨.fetchSent o, [], [some (Group.fetch_response ms)]⟩
  | committing (o) (parts : List Bytes) (buffer toServer closed ended) :
      (commit_request setup (o + parts.length)).request_buffer kafka = .ok buffer → toServer <+: buffer →
      Wired i ⟨.returned o parts, toServer, [], closed, ended⟩
        ⟨.returned o parts, [Consumers.commit_request setup (o + parts.length)], []⟩
  | done (o parts closed ended) : Wired i ⟨.returned o parts, [], [], closed, ended⟩ ⟨.returned o parts, [], []⟩
  | failed (e closed ended call) : (∀ o parts, call.pc ≠ .returned o parts) → Wired i ⟨.failed e, [], [], closed, ended⟩ call

variable (setup kafka) in
structure Related (a : Consumers.State ι σ ρ) (s : State ι κ σ ρ) : Prop where
  server : a.server = s.listener.server
  wired : ∀ i, Wired setup kafka i (view (s.client i) (s.listener.task (.inl i))) (a.call i)

theorem related_start (config : Config) :
    Related setup kafka (Consumers.start config) (start config : State ι κ σ ρ) := ⟨rfl, fun _ => .idle⟩

variable {a a' : Consumers.State ι σ ρ} {s s' : State ι κ σ ρ}

/-- A step that touches one connection. -/
theorem Related.update (h : Related setup kafka a s) {i : ι} (hserver : a'.server = s'.listener.server) {v : View}
    {c : Consumers.Call} (hview : view (s'.client i) (s'.listener.task (.inl i)) = v) (hcall : a'.call i = c)
    (hw : Wired setup kafka i v c)
    (hothers : ∀ j ≠ i, s'.client j = s.client j ∧ s'.listener.task (.inl j) = s.listener.task (.inl j) ∧
      a'.call j = a.call j) : Related setup kafka a' s' := by
  refine ⟨hserver, fun j => ?_⟩
  by_cases hj : j = i
  · subst hj
    rwa [hview, hcall]
  · obtain ⟨hclient, htask, hcall⟩ := hothers j hj
    rw [hclient, htask, hcall]
    exact h.wired j

variable (setup kafka) in
/-- The step is a move of the messages, or none. -/
def Simulated [DecidableEq ι] (a : Consumers.State ι σ ρ) (s' : State ι κ σ ρ) : Prop :=
  ∃ a', Related setup kafka a' s' ∧ (a' = a ∨ ∃ l, Group.Move setup a l a')

/-! ## Steps -/

section
variable [DecidableEq ι] [DecidableEq κ] [DecidableEq σ]

theorem simulates_begin (hrel : Related setup kafka a s) {i : ι} {n : Nat}
    (hs : step setup kafka s (.begin i n) = some s') : Simulated setup kafka a s' := by
  simp only [step] at hs
  split at hs
  case h_2 => cases hs
  rename_i unsent hclient
  cases hs
  have hw := hrel.wired i
  generalize hv : view (s.client i) (s.listener.task (.inl i)) = v at hw
  generalize hc : a.call i = c at hw
  cases hw with
  | idle =>
    simp only [view, hclient, View.mk.injEq, List.append_eq_nil_iff] at hv
    obtain ⟨-, ⟨hinput, hunsent⟩, houtput, hclosed, hended⟩ := hv
    cases hbuffer : (offset_request setup).request_buffer kafka with
    | error e =>
      refine ⟨a, hrel.update (i := i) hrel.server ?_ hc (.failed e false false _ (by simp)) fun j hj => ?_, .inl rfl⟩
      · simp [view, write, hinput, hunsent, houtput, hclosed, hended]
      · simp [hj]
    | ok buffer =>
      refine ⟨{ a with call := Function.update a.call i ⟨.offsetSent, [Consumers.offset_request setup], []⟩ },
        hrel.update (i := i) hrel.server ?_ (Function.update_self ..)
          (.asked buffer (buffer.take n) false hbuffer (List.take_prefix n buffer)) fun j hj => ?_, .inr ⟨_, .ask i hc⟩⟩
      · simp [view, write, hinput, hunsent, houtput, hclosed, hended]
      · simp [hj]
  | _ => simp [view, hclient] at hv

/-- Bytes that arrive stay on the connection. -/
theorem simulates_transmit (hrel : Related setup kafka a s) {i : ι} {n : Nat}
    (hs : step setup kafka s (.transmit i n) = some s') : Simulated setup kafka a s' := by
  simp only [step, Tasks.step, Option.map_eq_some_iff, Option.ite_none_left_eq_some, Option.some.injEq] at hs
  obtain ⟨_, ⟨-, rfl⟩, rfl⟩ := hs
  refine ⟨a, hrel.update (i := i) hrel.server ?_ rfl (hrel.wired i) fun j hj => ?_, .inl rfl⟩
  · simp [view, List.append_assoc]
  · simp [hj]

theorem simulates_hang_up (hrel : Related setup kafka a s) {i : ι}
    (hs : step setup kafka s (.hang_up i) = some s') : Simulated setup kafka a s' := by
  simp only [step, Tasks.step, Option.map_some] at hs
  have hw := hrel.wired i
  generalize hv : view (s.client i) (s.listener.task (.inl i)) = v at hw
  have hview : ∀ {pc toServer toClient closed ended}, v = ⟨pc, toServer, toClient, closed, ended⟩ →
      view (s.client i) { s.listener.task (.inl i) with closed := true } = ⟨pc, toServer, toClient, true, ended⟩ := by
    rintro pc toServer toClient closed ended rfl
    simp only [view, View.mk.injEq] at hv ⊢
    obtain ⟨hpc, hin, hout, -, hended⟩ := hv
    exact ⟨hpc, hin, hout, trivial, hended⟩
  have hothers : ∀ j ≠ i, s.client j = s.client j ∧
      Function.update s.listener.task (.inl i) { s.listener.task (.inl i) with closed := true } (.inl j) =
        s.listener.task (.inl j) ∧ a.call j = a.call j := by
    intro j hj
    simp [hj]
  split at hs
  case h_3 => cases hs
  all_goals
    rename_i hclient
    cases hs
    generalize hc : a.call i = c at hw
  · cases hw with
    | committing o parts buffer toServer closed ended hbuffer hpre =>
      refine ⟨a, hrel.update (i := i) hrel.server ?_ hc (.committing o parts buffer toServer true ended hbuffer hpre)
        hothers, .inl rfl⟩
      simpa using hview rfl
    | done o parts closed ended =>
      refine ⟨a, hrel.update (i := i) hrel.server ?_ hc (.done o parts true ended) hothers, .inl rfl⟩
      simpa using hview rfl
    | _ => simp [view, hclient] at hv
  · cases hw with
    | failed e closed ended _ hcall =>
      refine ⟨a, hrel.update (i := i) hrel.server ?_ hc (.failed e true ended _ hcall) hothers, .inl rfl⟩
      simpa using hview rfl
    | _ => simp [view, hclient] at hv

/-- A task behind a message. -/
def settled (task : Tasks.Task) (rest : Bytes) : Except Fault Bytes → Tasks.Task
  | .error e => { task with input := rest, result := some (.error e) }
  | .ok response => { task with input := rest, output := task.output ++ response }

theorem simulates_message (hk : LawfulCodec kafka) (hsmall : Small kafka setup) (hi : Group.Inv setup a)
    (hrel : Related setup kafka a s) {i : ι} {m rest : Bytes}
    (hnext : frames.next (s.listener.task (.inl i)).input = .ok (m, rest))
    (hrunning : (s.listener.task (.inl i)).result = none) :
    let handled := handle_message kafka setup.ipc setup.json s.listener.server m
    Simulated setup kafka a { s with listener :=
      ⟨handled.2, Function.update s.listener.task (.inl i) (settled (s.listener.task (.inl i)) rest handled.1)⟩ } := by
  intro handled
  obtain ⟨server, call⟩ := a
  obtain rfl : server = s.listener.server := hrel.server
  have hconv : Group.Conversation setup i _ (call i) := hi.calls i
  have hw : Wired setup kafka i _ (call i) := hrel.wired i
  generalize hv : view (s.client i) (s.listener.task (.inl i)) = v at hw
  generalize hc : call i = c at hw hconv
  cases hw with
  | asked buffer toServer ended hbuffer hpre =>
    simp only [view, View.mk.injEq] at hv
    obtain ⟨hpc, rfl, houtput, hclosed, hended⟩ := hv
    obtain ⟨rfl, hunsent, hm⟩ := read_off hk hbuffer (hsmall _ _ .offset hbuffer) hpre hnext
    obtain ⟨hserver, hsent⟩ := tells hk hm s.listener.server
    cases hr : handled.1 with
    | error e =>
      refine ⟨⟨s.listener.server, call⟩, hrel.update (i := i) hserver.symm ?_ hc
        (.asked buffer [] true hbuffer List.nil_prefix) fun j hj => ?_, .inl rfl⟩
      · simp [view, settled, hpc, hunsent, houtput, hclosed]
      · simp [hj]
    | ok sent =>
      refine ⟨⟨s.listener.server, Function.update call i ⟨.offsetSent, [], [some (Group.offset_response setup _)]⟩⟩,
        hrel.update (i := i) hserver.symm ?_ (Function.update_self ..) (.told _ sent (hsent sent hr)) fun j hj => ?_,
        .inr ⟨_, .tell i hc⟩⟩
      · simp [view, settled, hpc, hunsent, houtput, hclosed, hrunning]
      · simp [hj]
  | fetching o buffer toServer hbuffer hpre =>
    simp only [view, View.mk.injEq] at hv
    obtain ⟨hpc, rfl, houtput, hclosed, hended⟩ := hv
    obtain ⟨rfl, hunsent, hm⟩ := read_off hk hbuffer (hsmall _ _ (.fetch i o) hbuffer) hpre hnext
    cases hconv with
    | fetching _ ho =>
      obtain ⟨ms, tm, hsnap, hraw, hqueue, hserver, hsent⟩ := fetches hk hm hi.raw ho
      cases hr : handled.1 with
      | error e =>
        refine ⟨⟨_, Function.update call i ⟨.fetchSent o, [], [some (Group.fetch_response ms)]⟩⟩,
          hrel.update (i := i) hserver.symm ?_ (Function.update_self ..) (.cut o ms) fun j hj => ?_,
          .inr ⟨_, .fetch i o ms tm hc hsnap hraw hqueue⟩⟩
        · simp [view, settled, hpc, hunsent, houtput, hclosed]
        · simp [hj]
      | ok sent =>
        refine ⟨⟨_, Function.update call i ⟨.fetchSent o, [], [some (Group.fetch_response ms)]⟩⟩,
          hrel.update (i := i) hserver.symm ?_ (Function.update_self ..) (.fetched o ms sent (hsent sent hr)) fun j hj => ?_,
          .inr ⟨_, .fetch i o ms tm hc hsnap hraw hqueue⟩⟩
        · simp [view, settled, hpc, hunsent, houtput, hclosed, hrunning]
        · simp [hj]
  | committing o parts buffer toServer closed ended hbuffer hpre =>
    simp only [view, View.mk.injEq] at hv
    obtain ⟨hpc, rfl, houtput, hclosed, hended⟩ := hv
    obtain ⟨rfl, hunsent, hm⟩ := read_off hk hbuffer (hsmall _ _ (.commit _) hbuffer) hpre hnext
    cases hconv with
    | committing _ _ hsnap hne =>
      rcases sets hk hm s.listener.server with ⟨e, hhandled⟩ | hhandled
      · replace hhandled : handled = _ := hhandled
        rw [hhandled]
        refine ⟨⟨s.listener.server, call⟩, hrel.update (i := i) rfl ?_ hc
          (.committing o parts buffer [] closed true hbuffer List.nil_prefix) fun j hj => ?_, .inl rfl⟩
        · simp [view, settled, hpc, hunsent, houtput, hclosed]
        · simp [hj]
      · replace hhandled : handled = _ := hhandled
        rw [hhandled]
        refine ⟨⟨_, Function.update call i ⟨.returned o parts, [], []⟩⟩,
          hrel.update (i := i) rfl ?_ (Function.update_self ..) (.done o parts closed false) fun j hj => ?_,
          .inr ⟨_, .commit i o parts _ hc hsnap hne ?_⟩⟩
        · simp [view, settled, hpc, hunsent, houtput, hclosed, hrunning]
        · simp [hj]
        · rw [OffsetManager.get_offset_set_offset, if_pos rfl]
  | _ =>
    -- nothing has arrived
    simp only [view, View.mk.injEq, List.append_eq_nil_iff] at hv
    have hshrinks := frames.shrinks hnext
    rw [hv.2.1.1] at hshrinks
    exact absurd hshrinks (Nat.not_lt_zero _)

theorem simulates_run (hk : LawfulCodec kafka) (hsmall : Small kafka setup) (hi : Group.Inv setup a)
    (hrel : Related setup kafka a s) {i : ι} (hs : step setup kafka s (.run i) = some s') : Simulated setup kafka a s' := by
  simp only [step, Tasks.step, Option.map_eq_some_iff, Option.ite_none_left_eq_some] at hs
  obtain ⟨_, ⟨hrunning, ⟨server', task'⟩, hpass, rfl⟩, rfl⟩ := hs
  have hnone : (s.listener.task (.inl i)).result = none := by simpa using hrunning
  cases Tasks.pass_cases hpass with
  | failed m rest e server' hnext hmsg =>
    have hsim := simulates_message hk hsmall hi hrel hnext hnone
    rwa [hmsg] at hsim
  | handled m rest response server' hnext hmsg =>
    have hsim := simulates_message hk hsmall hi hrel hnext hnone
    rwa [hmsg] at hsim
  | ended result hnext hclosed _ =>
    -- the client has hung up
    have hw := hrel.wired i
    generalize hv : view (s.client i) (s.listener.task (.inl i)) = v at hw
    have hview : view (s.client i) { s.listener.task (.inl i) with result := some result } = { v with ended := true } := by
      rw [← hv]
      rfl
    refine ⟨a, hrel.update (i := i) (v := { v with ended := true }) hrel.server ?_ rfl ?_ fun j hj => ?_, .inl rfl⟩
    · simpa using hview
    · generalize a.call i = c at hw
      cases hw with
      | committing o parts buffer toServer closed ended hbuffer hpre =>
        exact .committing o parts buffer toServer closed true hbuffer hpre
      | done o parts closed ended => exact .done o parts closed true
      | failed e closed ended _ hcall => exact .failed e closed true _ hcall
      | _ => simp [view, hclosed] at hv
    · simp [hj]

omit [DecidableEq ι] [DecidableEq κ] [DecidableEq σ] in
/-- A read that is not empty is not of nothing. -/
theorem not_oneRead_nil {arriving : Stream UInt8} {n : Nat} (hn : 0 < n) : ¬arriving.OneRead n [] := by
  rintro ⟨p, ps, hp, hlen⟩
  refine arriving.nonempty ?_
  rw [hp, List.eq_nil_of_length_eq_zero (l := p) (by rw [List.length_nil] at hlen; omega)]
  exact List.mem_cons_self

omit [DecidableEq κ] [DecidableEq ι] [DecidableEq σ] in
theorem within_told {i : ι} {q : List (StoredRecord σ ρ)} {c : Consumers.Call} {o : Int} (h : Group.Conversation setup i q c)
    (hc : c = ⟨.offsetSent, [], [some (Group.offset_response setup o)]⟩) : Group.Within q o := by
  cases h with
  | told o' ho =>
    obtain rfl : o' = o := by simpa [Group.offset_response] using hc
    exact ho
  | _ => cases hc

omit [DecidableEq κ] [DecidableEq ι] [DecidableEq σ] in
theorem snapshot_fetched {i : ι} {q : List (StoredRecord σ ρ)} {c : Consumers.Call} {o : Int} {r : KafkaResponse}
    (h : Group.Conversation setup i q c) (hc : c = ⟨.fetchSent o, [], [some r]⟩) :
    ∃ ms, r = Group.fetch_response ms ∧ Group.Snapshot q o ms := by
  cases h with
  | fetched o' ms hs =>
    cases hc
    exact ⟨ms, rfl, hs⟩
  | _ => cases hc

omit [DecidableEq ι] [DecidableEq κ] [DecidableEq σ] in
/-- The offset is read off its response, and nothing is left. -/
theorem get_offset_whole (hk : LawfulCodec kafka) {o : Int} {sent : Bytes}
    (h : Answers kafka 6 (Group.offset_response setup o) sent) {arriving : Stream UInt8} (hs : arriving.content = sent)
    (hwhole : arriving.OneRead 512 sent) :
    ∃ stream : Stream UInt8, ClientReads.get_offset kafka arriving = (.ok o, stream) ∧ stream.content = [] := by
  obtain ⟨q, hv, hlawful, hsent⟩ := h
  have hreads : ClientReads.Reads (ClientReads.get_offset kafka arriving) o [] :=
    (ClientReads.get_offset_iff hk.responses hv (hv ▸ hlawful) hsent rfl (by rw [hs, List.append_nil])).2 hwhole
  exact ⟨_, Prod.ext hreads.1 rfl, hreads.2⟩

omit [DecidableEq ι] [DecidableEq κ] [DecidableEq σ] in
/-- So are the records. -/
theorem get_records_whole (hk : LawfulCodec kafka) {ms : List Bytes} {sent : Bytes}
    (h : Answers kafka 1 (Group.fetch_response ms) sent) {arriving : Stream UInt8} (hs : arriving.content = sent)
    (hwhole : (arriving.drop 4).OneRead (ofBe (sent.take 4)) (sent.drop 4)) :
    ∃ stream : Stream UInt8, ClientReads.get_records kafka 1 arriving = (.ok ([0].intercalate ms), stream) ∧
      stream.content = [] := by
  obtain ⟨q, hv, hlawful, hsent⟩ := h
  have hreads : ClientReads.Reads (ClientReads.get_records kafka q.api_version arriving) ([0].intercalate ms) [] :=
    (ClientReads.get_records_iff hk.responses (hv ▸ hlawful) hsent rfl (by rw [hs, List.append_nil])).2 hwhole
  rw [hv] at hreads
  exact ⟨_, Prod.ext hreads.1 rfl, hreads.2⟩

variable (kafka) in
omit [DecidableEq ι] [DecidableEq κ] [DecidableEq σ] in
/-- At the end of the stream there are no records. -/
theorem get_records_nil {arriving : Stream UInt8} (hs : arriving.content = []) :
    ∃ stream : Stream UInt8, ClientReads.get_records kafka 1 arriving = (.ok [], stream) ∧ stream.content = [] := by
  refine ⟨arriving.drop 4, ?_, by simp [hs]⟩
  simp [ClientReads.get_records, Stream.readExact, hs, Client.get_records]

theorem simulates_receive (hk : LawfulCodec kafka) (hi : Group.Inv setup a) (hrel : Related setup kafka a s) {i : ι}
    {arriving : Stream UInt8} {n : Nat} (hwhole : Whole (s.client i).pc arriving (s.listener.task (.inl i)).output)
    (hs : step setup kafka s (.receive i arriving n) = some s') : Simulated setup kafka a s' := by
  simp only [step, Option.ite_none_left_eq_some, Option.map_eq_some_iff, not_or, not_not] at hs
  obtain ⟨⟨hcontent, hready⟩, ⟨socket, stream⟩, hreceived, rfl⟩ := hs
  have hconv := hi.calls i
  have hw := hrel.wired i
  generalize hv : view (s.client i) (s.listener.task (.inl i)) = v at hw
  generalize hc : a.call i = c at hw hconv
  -- what the call wrote goes out next
  have hsim : ∀ {c' : Consumers.Call}, v.toServer = [] → stream.content = [] → Wired setup kafka i
      ⟨socket.pc, socket.unsent, [], v.closed, v.ended⟩ c' →
      (c' = c ∨ ∃ l, Group.Move setup a l { a with call := Function.update a.call i c' }) →
      Simulated setup kafka a ⟨{ s.listener with
        task := Function.update s.listener.task (.inl i) { s.listener.task (.inl i) with output := stream.content } },
        Function.update s.client i { socket with unsent := (s.client i).unsent ++ socket.unsent }⟩ := by
    intro c' hnil hread hw' hmove
    have hview : view { socket with unsent := (s.client i).unsent ++ socket.unsent }
        { s.listener.task (.inl i) with output := stream.content } = ⟨socket.pc, socket.unsent, [], v.closed, v.ended⟩ := by
      rw [← hv, view, List.append_eq_nil_iff] at hnil
      simp [view, ← hv, hnil, hread]
    refine ⟨{ a with call := Function.update a.call i c' }, hrel.update (i := i) hrel.server ?_ (Function.update_self ..) hw'
      fun j hj => ?_, hmove.imp_left ?_⟩
    · simpa using hview
    · simp [hj]
    · rintro rfl
      rw [← hc, Function.update_eq_self]
  cases hw with
  | asked buffer toServer ended hbuffer hpre =>
    simp only [view, View.mk.injEq] at hv
    obtain ⟨hpc, -, houtput, -⟩ := hv
    rw [hpc, houtput] at hwhole
    exact absurd hwhole (not_oneRead_nil (by decide))
  | told o sent hanswers =>
    simp only [view, View.mk.injEq] at hv
    obtain ⟨hpc, -, houtput, -⟩ := hv
    rw [hpc, houtput] at hwhole
    rw [houtput] at hcontent
    obtain ⟨stream', hget, hnext⟩ := get_offset_whole hk hanswers hcontent hwhole
    simp only [hpc, received, hget] at hreceived
    cases hbuffer : (fetch_request setup i o).request_buffer kafka with
    | error e =>
      rw [hbuffer] at hreceived
      cases hreceived
      exact hsim rfl hnext (.failed e false false _ (by simp)) (.inl rfl)
    | ok buffer =>
      rw [hbuffer] at hreceived
      cases hreceived
      exact hsim rfl hnext (.fetching o buffer (buffer.take n) hbuffer (List.take_prefix n buffer))
        (.inr ⟨_, .told i o hc (within_told hconv rfl)⟩)
  | fetching o buffer toServer hbuffer hpre =>
    simp only [view, View.mk.injEq] at hv
    obtain ⟨-, -, houtput, -, hended⟩ := hv
    exact absurd ⟨houtput, by simpa using hended⟩ hready
  | fetched o ms sent hanswers =>
    simp only [view, View.mk.injEq] at hv
    obtain ⟨hpc, -, houtput, -⟩ := hv
    obtain ⟨ms, hms, hsnap⟩ := snapshot_fetched hconv rfl
    rw [hms] at hanswers hc
    have hne : sent ≠ [] := by
      obtain ⟨q, -, -, hsent⟩ := hanswers
      exact List.ne_nil_of_length_pos (by have := hsent.four_le; omega)
    rw [hpc, houtput] at hwhole
    rw [houtput] at hcontent
    obtain ⟨stream', hget, hnext⟩ := get_records_whole hk hanswers hcontent (hwhole.resolve_left hne)
    simp only [hpc, received, hget] at hreceived
    rcases Client.consume_join hsnap.2.2 o with ⟨hms, hconsume⟩ | hconsume
    · simp only [hconsume] at hreceived
      cases hbuffer : (commit_request setup (o + ms.length)).request_buffer kafka with
      | error e =>
        rw [hbuffer] at hreceived
        cases hreceived
        exact hsim rfl hnext (.failed e false false _ (by simp)) (.inl rfl)
      | ok buffer =>
        rw [hbuffer] at hreceived
        cases hreceived
        exact hsim rfl hnext (.committing o ms buffer (buffer.take n) false false hbuffer (List.take_prefix n buffer))
          (.inr ⟨_, .read i o ms hc hsnap hms⟩)
    · simp only [hconsume, Option.some.injEq, Prod.mk.injEq] at hreceived
      obtain ⟨rfl, rfl⟩ := hreceived
      exact hsim rfl hnext (.done o [] false false) (.inr ⟨_, .nothing i o ms hc hsnap⟩)
  | cut o ms =>
    simp only [view, View.mk.injEq] at hv
    obtain ⟨hpc, -, houtput, -⟩ := hv
    obtain ⟨ms, hms, hsnap⟩ := snapshot_fetched hconv rfl
    rw [hms] at hc
    rw [houtput] at hcontent
    obtain ⟨stream', hget, hnext⟩ := get_records_nil kafka hcontent
    simp only [hpc, received, hget, Client.consume, List.isEmpty_nil, if_true, Option.some.injEq, Prod.mk.injEq] at hreceived
    obtain ⟨rfl, rfl⟩ := hreceived
    exact hsim rfl hnext (.done o [] false true) (.inr ⟨_, .nothing i o ms hc hsnap⟩)
  | idle =>
    simp only [view, View.mk.injEq] at hv
    simp [hv.1, received] at hreceived
  | committing o parts buffer toServer closed ended hbuffer hpre =>
    simp only [view, View.mk.injEq] at hv
    simp [hv.1, received] at hreceived
  | done o parts closed ended =>
    simp only [view, View.mk.injEq] at hv
    simp [hv.1, received] at hreceived
  | failed e closed ended _ hcall =>
    simp only [view, View.mk.injEq] at hv
    simp [hv.1, received] at hreceived

omit [DecidableEq κ] [DecidableEq σ] in
/-- The server serves others. -/
theorem simulates_serve (hrel : Related setup kafka a s) (hs : Serves setup s.listener.server s'.listener.server)
    (hclient : s'.client = s.client) (htask : ∀ i, s'.listener.task (.inl i) = s.listener.task (.inl i)) :
    Simulated setup kafka a s' := by
  obtain ⟨server, call⟩ := a
  obtain rfl : server = s.listener.server := hrel.server
  -- any label does
  have hmove : Group.Move setup ⟨s.listener.server, call⟩ (.commit "" "" 0) ⟨s'.listener.server, call⟩ :=
    .serve _ _ hs.raw hs.queue hs.committed
  refine ⟨⟨s'.listener.server, call⟩, ⟨rfl, fun i => ?_⟩, .inr ⟨_, hmove⟩⟩
  rw [hclient, htask]
  exact hrel.wired i

theorem simulates_other (hi : Group.Inv setup a) (hrel : Related setup kafka a s) {l : Tasks.Label κ}
    (hquiet : ∀ x ∈ Tasks.message s.listener (others l), Quiet setup (request_of kafka x.2).op)
    (hs : step setup kafka s (.other l) = some s') : Simulated setup kafka a s' := by
  have hraw : Group.RawTopic setup.topic s.listener.server.topic_manager := hrel.server ▸ hi.raw
  simp only [step] at hs
  split at hs
  · cases hs
  rename_i listener hstep
  rw [Option.ite_none_right_eq_some, Option.some.injEq] at hs
  obtain ⟨hfits, rfl⟩ := hs
  cases l with
  | arrive k piece =>
    simp only [others, Tasks.step, Option.ite_none_left_eq_some, Option.some.injEq] at hstep
    obtain ⟨-, rfl⟩ := hstep
    exact simulates_serve hrel ⟨hraw, List.prefix_rfl, rfl⟩ rfl fun i => by simp
  | close k =>
    cases hstep
    exact simulates_serve hrel ⟨hraw, List.prefix_rfl, rfl⟩ rfl fun i => by simp
  | run k =>
    simp only [others, Tasks.step, Option.ite_none_left_eq_some, Option.map_eq_some_iff] at hstep
    obtain ⟨-, ⟨server', task'⟩, hpass, rfl⟩ := hstep
    have hmessage : ∀ {m rest}, frames.next (s.listener.task (.inr k)).input = .ok (m, rest) →
        Quiet setup (request_of kafka m).op := by
      intro m rest hnext
      exact hquiet (.inr k, m) (by simp [others, Tasks.message, hnext, Except.toOption])
    cases Tasks.pass_cases hpass with
    | ended result hnext hclosed _ =>
      exact simulates_serve hrel ⟨hraw, List.prefix_rfl, rfl⟩ rfl fun i => by simp
    | failed m rest e _ hnext hmsg | handled m rest response _ hnext hmsg =>
      have hserves := serves_message hraw (hmessage hnext)
      rw [hmsg] at hserves
      exact simulates_serve hrel (hserves hfits) rfl fun i => by simp

theorem simulates_create_topic (hi : Group.Inv setup a) (hrel : Related setup kafka a s) {t : String} {schema : Option σ}
    (hnone : t = setup.topic → schema = none) (hs : step setup kafka s (.create_topic t schema) = some s') :
    Simulated setup kafka a s' := by
  have hraw : Group.RawTopic setup.topic s.listener.server.topic_manager := hrel.server ▸ hi.raw
  cases hs
  obtain ⟨hraw', hbackend⟩ := hraw.create hnone
  refine simulates_serve hrel ⟨hraw', ?_, rfl⟩ rfl fun i => rfl
  show _ <+: (s.listener.server.topic_manager.create t schema).2.backend.queue setup.topic
  rw [hbackend]

/-- A step on bytes is a step on messages, or none. -/
theorem simulates (hk : LawfulCodec kafka) (hsmall : Small kafka setup) (hi : Group.Inv setup a)
    (hrel : Related setup kafka a s) {l : Label ι κ σ} (ha : Admissible setup kafka s l)
    (hs : step setup kafka s l = some s') : Simulated setup kafka a s' := by
  cases l with
  | begin i n => exact simulates_begin hrel hs
  | receive i arriving n => exact simulates_receive hk hi hrel ha hs
  | transmit i n => exact simulates_transmit hrel hs
  | hang_up i => exact simulates_hang_up hrel hs
  | run i => exact simulates_run hk hsmall hi hrel hs
  | other l => exact simulates_other hi hrel ha hs
  | create_topic t schema => exact simulates_create_topic hi hrel ha hs

/-! ## Runs -/

theorem simulates_of_run (hk : LawfulCodec kafka) (hsmall : Small kafka setup) {config : Config} {tr}
    (hr : Run (step setup kafka) (start config) tr s) (ha : Always (Admissible setup kafka) tr) :
    ∃ a, Related setup kafka a s ∧ Group.Inv setup a ∧ Reachable Cursor.step Cursor.start (Group.cursor setup a) := by
  induction hr with
  | nil => exact ⟨_, related_start config, Group.inv_start config, [], .nil⟩
  | @snoc tr s l s' hr hs ih =>
    rw [always_snoc] at ha
    obtain ⟨a, hrel, hi, tr', hcursor⟩ := ih ha.1
    obtain ⟨a', hrel', rfl | ⟨l', hmove⟩⟩ := simulates hk hsmall hi hrel ha.2 hs
    · exact ⟨_, hrel', hi, tr', hcursor⟩
    · refine ⟨a', hrel', hmove.inv hi, ?_⟩
      rcases Group.cursor_move hmove with hsame | ⟨m, -, hm⟩
      · exact hsame ▸ ⟨tr', hcursor⟩
      · exact ⟨_, hcursor.snoc hm⟩

omit [DecidableEq ι] [DecidableEq κ] [DecidableEq σ] in
theorem Wired.returned_iff {i : ι} {v : View} {c : Consumers.Call} (h : Wired setup kafka i v c) {o : Int}
    {parts : List Bytes} : v.pc = .returned o parts ↔ c.pc = .returned o parts := by
  cases h with
  | failed e closed ended _ hcall => exact ⟨fun h => by simp at h, fun h => absurd h (hcall o parts)⟩
  | _ => simp

omit [DecidableEq ι] [DecidableEq κ] [DecidableEq σ] in
theorem snapshot_returned {i : ι} {q : List (StoredRecord σ ρ)} {c : Consumers.Call} {o : Int} {parts : List Bytes}
    (h : Group.Conversation setup i q c) (hc : c.pc = .returned o parts) : Group.Snapshot q o parts := by
  cases h with
  | committing _ _ hs | done _ _ hs =>
    cases hc
    exact hs
  | _ => cases hc

/-- However the bytes travel, a call returns records only, the topic's from its offset
on, and the group skips none: a record below its committed offset was returned by
one of its calls. -/
theorem group_over_connections (hk : LawfulCodec kafka) (hsmall : Small kafka setup) {config : Config} {tr}
    (hr : Run (step setup kafka) (start config) tr s) (ha : Always (Admissible setup kafka) tr) :
    (∀ i o parts, (s.client i).pc = .returned o parts →
      0 ≤ o ∧ parts.map .Raw <+: (topicQueue setup s).drop o.toNat) ∧
    ∀ idx : Nat, idx < committed setup s → ∃ i o parts m, (s.client i).pc = .returned o parts ∧ o ≤ idx ∧
      parts[(idx - o).toNat]? = some m ∧ (topicQueue setup s)[idx]? = some (.Raw m) := by
  obtain ⟨⟨server, call⟩, hrel, hi, tr', hcursor⟩ := simulates_of_run hk hsmall hr ha
  obtain rfl : server = s.listener.server := hrel.server
  have hreturned : ∀ i {o parts}, (s.client i).pc = .returned o parts ↔ (call i).pc = .returned o parts :=
    fun i => (hrel.wired i).returned_iff
  constructor
  · intro i o parts hpc
    have hs := snapshot_returned (hi.calls i) ((hreturned i).1 hpc)
    exact ⟨hs.1, hs.2.1⟩
  · intro idx hidx
    obtain ⟨i, hread⟩ := Cursor.covered_cursor hcursor idx (Int.natCast_nonneg _) hidx
    obtain ⟨o, parts, m, hpc, hle, hpart, hrecord⟩ := (Group.reads_iff hi).1 hread
    exact ⟨i, o, parts, m, (hreturned i).2 hpc, hle, hpart, hrecord⟩

end

/-! ## The small codec -/

section
variable [DecidableEq σ]

instance (pc : Pc) (arriving : Stream UInt8) (output : Bytes) : Decidable (Whole pc arriving output) :=
  match pc with
  | .offsetSent => inferInstanceAs (Decidable (arriving.OneRead _ _))
  | .idle | .fetchSent _ | .returned _ _ | .failed _ => inferInstanceAs (Decidable (_ ∨ _))

instance (setup : Setup ι σ ρ) : (op : Broker.Op σ) → Decidable (Quiet setup op)
  | .produce _ _ => inferInstanceAs (Decidable (_ → _))
  | .commit _ _ _ => inferInstanceAs (Decidable (_ ≠ _))
  | .fetch _ _ | .offset _ _ | .create _ _ | .refuse _ | .ignore => inferInstanceAs (Decidable True)

instance (setup : Setup ι σ ρ) (kafka : KafkaCodec) (s : State ι κ σ ρ) :
    (l : Label ι κ σ) → Decidable (Admissible setup kafka s l)
  | .receive _ _ _ => inferInstanceAs (Decidable (Whole _ _ _))
  | .other _ => inferInstanceAs (Decidable (∀ x ∈ _, Quiet _ _))
  | .create_topic _ _ => inferInstanceAs (Decidable (_ → _))
  | .begin _ _ | .transmit _ _ | .hang_up _ | .run _ => inferInstanceAs (Decidable True)

end

theorem lawful_offset_fetch_request (version : Int) : (Format.offset_fetch_request version).Lawful := by
  unfold Format.offset_fetch_request
  split
  · exact Codec.lawful_never
  refine ((Format.lawful_compactText.seq (Codec.lawful_compactLen.nullableArray
    ((Format.lawful_compactText.trail _).via ?_))).trail _).via ?_
  all_goals
    intro a b h
    cases h; rfl

theorem lawful_offset_commit_request (version : Int) : (Format.offset_commit_request version).Lawful := by
  unfold Format.offset_commit_request
  split
  · exact Codec.lawful_never
  refine ((((Format.lawful_compactText.trail _).seq (Format.lawful_compactArray (((Format.lawful_compactText.seq
    (Format.lawful_compactArray ((((Codec.lawful_int 8).lead _).trail _).via ?_))).trail _).via ?_))).trail _).via ?_)
  all_goals
    intro a b h
    cases h; rfl

/-- The topics of a Fetch come back. -/
theorem get_fetch_request {request : FetchRequest} {w : Bytes} (h : (Format.fetch_request 1).put request = some w) :
    (Format.fetch_request 1).get w = some ({ request with max_bytes := 0x7FFFFFFF }, []) := by
  unfold Format.fetch_request at h ⊢
  rw [if_neg (by decide)] at h ⊢
  have hlawful := (((Codec.lawful_int 8).lead [0, 0, 0, 0]).trail [0, 0, 0, 0])
  obtain ⟨topics, htopics, hget⟩ := Codec.Lawful.get_via
    ((Format.lawful_array (((Codec.lawful_len 2).nullableText.required.seq (Format.lawful_array (hlawful.via (by
      intro i p hp; cases hp; rfl)))).via (by intro x t ht; cases ht; rfl))).lead _) h []
  cases htopics
  rwa [List.append_nil] at hget

theorem put_of_size {request : FetchRequest} {n : Nat} (h : earlyFetch.fetch_request.compute_size 1 request = some n) :
    ∃ w, (Format.fetch_request 1).put request = some w ∧ w.length = n := by
  have hone : early_fetch_request 1 = Format.fetch_request 1 := if_pos (by decide)
  simp only [earlyFetch, Message.of, hone] at h
  exact Option.map_eq_some_iff.1 h

theorem earlyFetch_codec : LawfulCodec earlyFetch where
  requests := earlyFetch_lawful
  bodies := {
    key := fun request => by
      cases request <;> simp [ClientRequest.request_api_key, ClientRequest.api_key, earlyFetch, pocketKafka]
    offset_fetch := Message.lawful_of (lawful_offset_fetch_request 6)
    offset_commit := Message.lawful_of (lawful_offset_commit_request 9)
    fetch := fun request n h => by
      obtain ⟨w, hw, -⟩ := put_of_size h
      have hone : early_fetch_request 1 = Format.fetch_request 1 := if_pos (by decide)
      refine ⟨0x7FFFFFFF, ?_⟩
      simp only [earlyFetch, Message.of, hone]
      rw [hw, Option.getD_some, get_fetch_request hw] }
  responses := {
    request_header_front := fun _ _ _ _ => Format.request_header_front
    response_header := pocketKafka_lawful.response_header
    response_header_size := pocketKafka_lawful.response_header_size
    fetch_response := fun version _ => Message.lawful_of (Format.lawful_fetch_response version)
    offset_fetch_response := pocketKafka_lawful.offset_fetch_response }

theorem takes_fetch_request (o : Int) : (Format.fetch_request 1).Takes (create_fetch_request "t" 100 o) 39 := by
  have hone : (Codec.len 4).Takes (some 1) 4 := Codec.takes_of_put (w := [0, 0, 0, 1]) (by decide +kernel)
  have htext : Format.text.Takes "t" 3 := Codec.takes_of_put (w := [0, 1, 116]) (by decide +kernel)
  unfold Format.fetch_request
  rw [if_neg (by decide)]
  have hpartition := ((Codec.takes_int 8 o).lead [0, 0, 0, 0]).trail [0, 0, 0, 0]
  refine ((hone.singleton (Codec.Takes.via (b := FetchTopic.mk "t" [⟨o⟩]) (htext.seq (hone.singleton
    (hpartition.via (b := FetchPartition.mk o) ?_))) ?_)).lead _).via ?_ <;> rfl

theorem takes_commit_request (o : Int) :
    (Format.offset_commit_request 9).Takes (create_offset_commit_request "g" "t" o) 32 := by
  have hone : Codec.compactLen.Takes (some 1) 1 := Codec.takes_of_put (w := [2]) (by decide +kernel)
  have htext : Format.compactText.Takes "t" 2 := Codec.takes_of_put (w := [2, 116]) (by decide +kernel)
  have hgroup : Format.compactText.Takes "g" 2 := Codec.takes_of_put (w := [2, 103]) (by decide +kernel)
  unfold Format.offset_commit_request
  rw [if_neg (by decide)]
  have hpartition := ((Codec.takes_int 8 o).lead [0, 0, 0, 0]).trail [0xFF, 0xFF, 0xFF, 0xFF, 1, 0]
  refine (((hgroup.trail _).seq (hone.singleton (Codec.Takes.via (b := OffsetCommitRequestTopic.mk "t" [⟨o⟩])
    ((htext.seq (hone.singleton (hpartition.via (b := OffsetCommitRequestPartition.mk o) ?_))).trail _) ?_))).trail _).via
    ?_ <;> rfl

/-- The requests of a pocket group are short. -/
theorem small_pocket : Small earlyFetch (Consumers.pocketSetup : Setup Unit UInt8 UInt8) := by
  intro request buffer hmakes hbuffer
  obtain ⟨header_size, request_size, hheader, hrequest, rfl⟩ := create_buffer_ok hbuffer
  have hlen : header_size + request_size < 2 ^ 32 := by
    cases hmakes with
    | offset =>
      have hbody : earlyFetch.offset_fetch_request.compute_size 6 (create_offset_fetch_request "g" "t") = some 8 := by
        decide +kernel
      have h : earlyFetch.request_header.compute_size 6 (Client.create_request_header 9 6) = some 11 := by decide +kernel
      cases h.symm.trans hheader
      cases hbody.symm.trans hrequest
      decide
    | fetch i o =>
      have h : earlyFetch.request_header.compute_size 1 (Client.create_request_header 1 1) = some 10 := by decide +kernel
      cases h.symm.trans hheader
      simp only [fetch_request, ClientRequest.encodable, Message.encodable, Client.create_request_header,
        ClientRequest.client_version] at hrequest
      obtain ⟨w, hw, rfl⟩ := put_of_size hrequest
      rw [takes_fetch_request o w hw]
      decide
    | commit o =>
      have h : earlyFetch.request_header.compute_size 9 (Client.create_request_header 8 9) = some 11 := by decide +kernel
      cases h.symm.trans hheader
      have hsize : ((Format.offset_commit_request 9).put (create_offset_commit_request "g" "t" o)).map List.length =
        some request_size := hrequest
      obtain ⟨w, hw, rfl⟩ := Option.map_eq_some_iff.1 hsize
      rw [takes_commit_request o w hw]
      decide
  rw [List.length_append, length_be, List.length_append, earlyFetch_lawful.request_header_size _ _ _ hheader,
    earlyFetch_lawful.request_size _ _ _ hrequest]
  omega

/-- Another client produces `abc`, and a call consumes it. -/
def pocketLabels : List (Label Unit Unit UInt8) :=
  let produce := ((ClientRequest.Produce (create_produce_request "t" [97, 98, 99])).request_buffer earlyFetch).toOption.getD []
  [.other (.arrive () (produce.take 5)), .other (.arrive () (produce.drop 5)), .other (.run ()), .begin () 100,
    .transmit () 3, .transmit () 100, .run (), .receive () ⟨[ClientReads.zero_committed], by decide⟩ 100,
    .transmit () 100, .run (),
    .receive () ⟨[ClientReads.abc_front.take 4, ClientReads.abc_front.drop 4 ++ [98, 99]], by decide⟩ 100,
    .transmit () 100, .run (), .hang_up (), .run ()]

theorem group_over_connections_pocket :
    ∃ s : State Unit Unit UInt8 UInt8, Reachable (step Consumers.pocketSetup earlyFetch) (start ⟨1⟩) s ∧
      committed Consumers.pocketSetup s = 1 ∧ ∃ i o parts m, (s.client i).pc = .returned o parts ∧ o ≤ (0 : Nat) ∧
        parts[((0 : Nat) - o).toNat]? = some m ∧ (topicQueue Consumers.pocketSetup s)[0]? = some (.Raw m) := by
  have hone : (execWhile (step Consumers.pocketSetup earlyFetch) (Admissible Consumers.pocketSetup earlyFetch) (start ⟨1⟩)
      pocketLabels).map (committed Consumers.pocketSetup) = some 1 := by decide +kernel
  obtain ⟨s, hs, hcommitted⟩ := Option.map_eq_some_iff.1 hone
  obtain ⟨tr, hr, ha⟩ := run_execWhile .nil always_nil hs
  exact ⟨s, ⟨tr, hr⟩, hcommitted, (group_over_connections earlyFetch_codec small_pocket hr ha).2 0 (by rw [hcommitted]; decide)⟩

end herbert.SocketGroup
