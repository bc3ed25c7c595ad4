import Byor.Foundations.Pipeline
import Byor.Optimized.Delivery

/-!
# A client that sends all its requests first

`run_benchmark` (`benchmarks/throughput.cpp`) calls `send_message` for all its requests before it
calls `receive_message`. Its socket is a blocking one: `send` waits while the way to the server is
full. The server reads nothing while something waits to be sent, and it cannot write while the way
back is full. Here the two ways hold a limited number of bytes, `there` and `back`: the buffers of
the two sockets.

* `realized_sending`: the streams of the client and the server are those of a `Pipeline`.
* `sending_deadlock_iff`: when exactly the two can wait for each other for ever.
* `benchmark_deadlock_iff`: when exactly this happens to the benchmark.
-/

namespace Byor.Optimized

open Wire Relation

/-- The server, and what the client has sent. The client is the first socket. -/
structure Sending where
  world : World
  sent : Bytes

/-- The server has accepted the client as `fd`; the client has not sent anything yet. -/
def Sending.start (serverFd fd : Fd) : Sending := ⟨(World.init serverFd).accepted fd, []⟩

/-- The bytes the server has read. -/
def Sending.received (s : Sending) : Bytes := s.world.kernel.received 0

/-- The bytes the server has written. -/
def Sending.written (s : Sending) : Bytes := s.world.kernel.written 0

/-- How far the three streams have got. -/
def Sending.flow (s : Sending) : Flow := ⟨s.sent.length, s.received.length, s.written.length⟩

/-- The client gives some of its bytes to the kernel, as far as there is room. -/
def Sending.send (s : Sending) (b : Bytes) : Sending := { s with sent := s.sent ++ b }

/-- The server serves an event of the client. -/
def Sending.serve (s : Sending) (event : Event) (r : SysResults) : Sending :=
  { s with world := afterEvent event r s.world }

/-- The steps of the client, which has the bytes `stream` to send before it reads, and the server.
Neither side closes the connection. -/
inductive SendingStep (there back : ℕ) (stream : Bytes) (fd : Fd) : Sending → Sending → Prop
  | send {s} (b : Bytes) (hne : b ≠ []) (hb : s.sent ++ b <+: stream)
      (hroom : s.sent.length + b.length ≤ s.received.length + there) :
      SendingStep there back stream fd s (s.send b)
  /-- The loop waits for an event of the client and serves it. What is read has been sent; the
  kernel takes no more than the way back holds. -/
  | serve {s} (event : Event) (r : SysResults) (hfd : event.fd = fd)
      (hr : EpollReports s.world [event]) (ha : r.Allowed s.world) (hs : Harmless event r)
      (hsent : (s.serve event r).received <+: s.sent)
      (hroom : (s.serve event r).written.length ≤ back) :
      SendingStep there back stream fd s (s.serve event r)

/-- The bytes owed to the client when the first `r` bytes of the stream have been read. -/
def owedBytes (stream : Bytes) (r : ℕ) : ℕ :=
  (responseBytes (runCommands Store.empty
    ((requestDecoder.drain (stream.take r)).1.map Record.value)).2).length

theorem owedBytes_mono (stream : Bytes) : Monotone (owedBytes stream) := by
  intro r r' hr
  obtain ⟨rest, hrest⟩ : stream.take r <+: stream.take r' := List.take_prefix_take_left hr
  rw [owedBytes, owedBytes, ← hrest, requestDecoder.drain_append, List.map_append,
    runCommands_append, responseBytes_append, List.length_append]
  exact Nat.le_add_right ..

/-- The pipeline of a client and the server. -/
def sendingPipeline {there : ℕ} (hthere : 0 < there) (back : ℕ) (stream : Bytes) : Pipeline where
  total := stream.length
  there := there
  back := back
  chunk := readBufferSize
  owed := owedBytes stream
  there_pos := hthere
  chunk_pos := by decide
  owed_mono := owedBytes_mono stream

variable {there back : ℕ} {serverFd fd : Fd} {msgs : List (List Bytes)} {s s' : Sending}
  {w : World} {c : Connection} {event : Event} {r : SysResults} {b : Bytes} {n : ℕ}

/-! ## The streams of an event -/

theorem readEffect_written (w : World) (conn : Fd) (c : Connection) (r : ReadResult) :
    (w.readEffect conn c r).kernel.written = w.kernel.written := by
  cases r with
  | eof => exact (close_streams (w.kernel.epollDel conn) conn).2.2.2
  | error errno => rfl
  | bytes b =>
    unfold World.readEffect World.afterRead
    simp only
    split
    · exact (close_streams ((w.drained conn c b).kernel.epollDel conn) conn).2.2.2
    · split <;> rfl

theorem writeEffect_wrote_written (w : World) (conn : Fd) (c : Connection) (n : ℕ) :
    (w.writeEffect conn c (.wrote n)).kernel.written (w.kernel.socketOf c.fd) =
      w.kernel.written (w.kernel.socketOf c.fd) ++
        c.outgoing.take (min n c.outgoing.length) := by
  unfold World.writeEffect
  split
  · rename_i hempty
    rw [hempty, List.take_nil, List.append_nil]
    rfl
  · unfold World.afterWrite
    simp only
    split <;> exact Function.update_self ..

/-! ## What holds at every moment -/

/-- The client is the only one, and it is connected. -/
structure Alone (back : ℕ) (msgs : List (List Bytes)) (serverFd fd : Fd) (s : Sending) : Prop where
  network : ∃ m, NetworkRun EpollReports serverFd m [] ∧ m.world = s.world ∧
    ∀ s', callsBy s' m.seen = if s' = 0 then msgs else []
  client : ∃ c, IsClient s.world fd c
  socket : s.world.kernel.socketOf fd = 0
  received : s.received <+: s.sent
  sent : s.sent <+: requestBytes msgs
  room : s.written.length ≤ back

/-- All messages have been sent before the client is accepted. -/
theorem exists_network_sent (serverFd : Fd) (hmsgs : ∀ msg ∈ msgs, Sendable msg) :
    ∃ m, NetworkRun EpollReports serverFd m [] ∧ m.world = World.init serverFd ∧
      ∀ s', callsBy s' m.seen = if s' = 0 then msgs else [] := by
  induction msgs using List.reverseRecOn with
  | nil => exact ⟨_, .start, rfl, fun s' => by split <;> rfl⟩
  | append_singleton msgs msg ih =>
    obtain ⟨m, hm, hworld, hcalls⟩ := ih fun msg' hmem => hmsgs msg' (List.mem_append_left _ hmem)
    have hmsg : Sendable msg := hmsgs msg (List.mem_append_right _ (List.mem_singleton_self msg))
    refine ⟨_, .sendMessage hm 0 hmsg hmsg.serialize_eq, hworld, fun s' => ?_⟩
    rw [Network.sendMessage, callsBy_append, hcalls, callsBy_call]
    by_cases hs' : s' = 0
    · rw [if_pos hs', if_pos hs', if_pos hs'.symm]
    · rw [if_neg hs', if_neg hs', if_neg (Ne.symm hs'), List.append_nil]

theorem alone_start (hfd : fd ≠ -1) (hne : fd ≠ serverFd) (hmsgs : ∀ msg ∈ msgs, Sendable msg) :
    Alone back msgs serverFd fd (Sending.start serverFd fd) := by
  obtain ⟨m, hm, hworld, hcalls⟩ := exists_network_sent serverFd hmsgs
  have hnone : (World.init serverFd).connections fd = none := Function.update_of_ne hne ..
  have hafter : (m.serve ⟨serverFd, EPOLLIN⟩ { SysResults.again with accept := fd }).world =
      (World.init serverFd).accepted fd := by
    rw [Network.serve, hworld, afterEvent, run_dispatch_server rfl]
    simp only [worldOf, World.newEffect, if_neg hfd, hnone]
    rfl
  have hwait : NetworkRun EpollReports serverFd m [⟨serverFd, EPOLLIN⟩] := by
    refine .wait hm (.single (m := EPOLLIN) ?_ id id)
    rw [hworld]
    exact Function.update_self ..
  have hallowed : { SysResults.again with accept := fd }.Allowed m.world := by
    refine .of_accept ?_
    rw [hworld]
    exact decide_eq_false hne
  refine ⟨⟨_, .serve hwait hallowed fun s' => ?_, hafter, hcalls⟩, ⟨⟨fd, [], []⟩, hne, ?_⟩, ?_,
    List.nil_prefix, List.nil_prefix, Nat.zero_le back⟩
  · rw [hafter]
    exact List.nil_prefix
  · exact Function.update_self ..
  · exact Function.update_self ..

theorem Alone.reachable (h : Alone back msgs serverFd fd s) :
    Reachable EpollReports anyResults serverFd s.world [] := by
  obtain ⟨m, hm, hworld, -⟩ := h.network
  exact hworld ▸ reachable_of_network hm

theorem Alone.consistent (h : Alone back msgs serverFd fd s) : Consistent s.world := by
  obtain ⟨m, hm, hworld, -⟩ := h.network
  exact hworld ▸ (networked_of_run hm).consistent

/-- Everything that was carried out was carried out for the client. -/
theorem Alone.callsOf_eq (h : Alone back msgs serverFd fd s) :
    callsOf 0 s.world.executed = s.world.executed := by
  obtain ⟨m, hm, hworld, hcalls⟩ := h.network
  refine List.filter_eq_self.mpr fun e he => decide_eq_true ?_
  by_contra hs
  have hprefix := (networked_of_run hm).linearizes.calls e.socket
  rw [hcalls, if_neg hs, List.prefix_nil, hworld, ofPeer_commandsOf, List.map_eq_nil_iff] at hprefix
  exact List.filter_eq_nil_iff.mp hprefix e he (decide_eq_true rfl)

/-- **What waits to be sent** is what is owed and was not written. -/
theorem Alone.owed (h : Alone back msgs serverFd fd s) (hc : IsClient s.world fd c) :
    s.written.length + c.outgoing.length = owedBytes (requestBytes msgs) s.received.length := by
  have hwritten := h.consistent.written fd c hc
  have hdrain := h.consistent.drain_received (drained_of_reachable h.reachable) hc
  rw [h.socket] at hwritten hdrain
  have htake : (requestBytes msgs).take s.received.length = s.world.kernel.received 0 :=
    (List.prefix_iff_eq_take.mp (h.received.trans h.sent)).symm
  rw [owedBytes, htake, hdrain, map_request_value, h.callsOf_eq, ← h.consistent.sequential,
    ← List.length_append]
  change (s.world.kernel.written 0 ++ c.outgoing).length = _
  rw [hwritten, answersTo, h.callsOf_eq]

/-! ## Steps -/

theorem Alone.effect (h : Alone back msgs serverFd fd s) (hr : EpollReports s.world [event])
    (ha : r.Allowed s.world) : EventEffect s.world event r (afterEvent event r s.world) :=
  eventEffect_afterEvent (interestOk_of_reachable h.reachable) (drained_of_reachable h.reachable)
    hr ha

/-- An event reads from the client alone. -/
theorem Alone.received_of_ne (h : Alone back msgs serverFd fd s) (hfd : event.fd = fd)
    (hr : EpollReports s.world [event]) (ha : r.Allowed s.world) {s' : ℕ} (hs' : s' ≠ 0) :
    (afterEvent event r s.world).kernel.received s' = s.world.kernel.received s' := by
  rw [(h.effect hr ha).received, if_neg, List.append_nil]
  rintro ⟨-, -, hsock⟩
  rw [hfd, h.socket] at hsock
  exact hs' hsock.symm

theorem Alone.serve (h : Alone back msgs serverFd fd s) (hfd : event.fd = fd)
    (hr : EpollReports s.world [event]) (ha : r.Allowed s.world) (hs : Harmless event r)
    (hsent : (s.serve event r).received <+: s.sent)
    (hroom : (s.serve event r).written.length ≤ back) :
    Alone back msgs serverFd fd (s.serve event r) := by
  have hothers : ∀ s' ≠ 0,
      (afterEvent event r s.world).kernel.received s' = s.world.kernel.received s' :=
    fun s' hs' => h.received_of_ne hfd hr ha hs'
  have heffect := h.effect hr ha
  obtain ⟨⟨m, hm, hworld, hcalls⟩, ⟨c, hc⟩, hsock, hreceived, hstream, -⟩ := h
  obtain ⟨world, sent⟩ := s
  obtain rfl : m.world = world := hworld
  subst hfd
  have hn := networked_of_run hm
  have hbytes : ∀ s', (m.serve event r).world.kernel.received s' <+: m.outbox s' := by
    intro s'
    by_cases hs' : s' = 0
    · subst hs'
      rw [hn.outbox, hcalls, if_pos rfl]
      exact hsent.trans hstream
    · change (afterEvent event r m.world).kernel.received s' <+: _
      rw [hothers s' hs']
      exact hn.received s'
  exact ⟨⟨_, .serve (.wait hm hr) ha hbytes, rfl, hcalls⟩,
    isClient_serve (.wait hm hr) hbytes hc hs, (heffect.socketOf event.fd c hc).trans hsock, hsent,
    hstream, hroom⟩

theorem Alone.step (h : Alone back msgs serverFd fd s)
    (hs : SendingStep there back (requestBytes msgs) fd s s') : Alone back msgs serverFd fd s' := by
  cases hs with
  | send b _ hb _ =>
    exact ⟨h.network, h.client, h.socket, h.received.trans (List.prefix_append ..), hb,
      h.room⟩
  | serve event r hfd hr ha hs hsent hroom => exact h.serve hfd hr ha hs hsent hroom

theorem alone_of_run (hfd : fd ≠ -1) (hne : fd ≠ serverFd) (hmsgs : ∀ msg ∈ msgs, Sendable msg)
    (h : ReflTransGen (SendingStep there back (requestBytes msgs) fd)
      (Sending.start serverFd fd) s) :
    Alone back msgs serverFd fd s := by
  induction h with
  | refl => exact alone_start hfd hne hmsgs
  | tail _ hs ih => exact ih.step hs

/-! ## The streams are those of a pipeline -/

variable (hthere : 0 < there)

/-- A read. -/
theorem Alone.flow_read (h : Alone back msgs serverFd fd s) (hc : IsClient s.world fd c)
    (hafter : afterEvent event r s.world = s.world.readEffect fd c r.read) :
    (s.serve event r).received = s.received ++ r.read.taken ∧
      (s.serve event r).flow =
        { s.flow with received := s.received.length + r.read.taken.length } := by
  have hreceived : (s.serve event r).received = s.received ++ r.read.taken := by
    change (afterEvent event r s.world).kernel.received 0 = _
    rw [hafter, (readEffect_streams (h.consistent.entry fd c hc.2) r.read).2,
      Kernel.received_read, if_pos h.socket]
    rfl
  have hwritten : (s.serve event r).written = s.written := by
    change (afterEvent event r s.world).kernel.written 0 = _
    rw [hafter, readEffect_written]
    rfl
  refine ⟨hreceived, ?_⟩
  rw [Sending.flow, hreceived, hwritten, List.length_append]
  rfl

/-- A write of which the kernel is ready to take `k` bytes. -/
theorem Alone.flow_write (h : Alone back msgs serverFd fd s) (hc : IsClient s.world fd c) {k : ℕ}
    (hafter : afterEvent event r s.world = s.world.writeEffect fd c (.wrote k)) :
    (s.serve event r).received = s.received ∧
      (s.serve event r).flow =
        { s.flow with written := s.written.length + min k c.outgoing.length } := by
  have hreceived : (s.serve event r).received = s.received := by
    change (afterEvent event r s.world).kernel.received 0 = _
    rw [hafter, ((Quiet.refl s.world).writeEffect fd c (.wrote k)).received]
    rfl
  have hwritten : (s.serve event r).written =
      s.written ++ c.outgoing.take (min k c.outgoing.length) := by
    have hself := writeEffect_wrote_written s.world fd c k
    rw [h.consistent.entry fd c hc.2, h.socket] at hself
    change (afterEvent event r s.world).kernel.written 0 = _
    rw [hafter, hself]
    rfl
  refine ⟨hreceived, ?_⟩
  rw [Sending.flow, hreceived, hwritten, List.length_append, List.length_take_of_le]
  · rfl
  · exact Nat.min_le_right ..

/-- An event moves one of the streams at most. -/
theorem Alone.flow_serve (h : Alone back msgs serverFd fd s) (hfd : event.fd = fd)
    (hr : EpollReports s.world [event]) (ha : r.Allowed s.world) (hs : Harmless event r)
    (hsent : (s.serve event r).received <+: s.sent)
    (hroom : (s.serve event r).written.length ≤ back) :
    (s.serve event r).flow = s.flow ∨
      (sendingPipeline hthere back (requestBytes msgs)).Moves s.flow (s.serve event r).flow := by
  obtain ⟨c, hc⟩ := h.client
  subst hfd
  have hentry : c.fd = event.fd := h.consistent.entry event.fd c hc.2
  have howed := h.owed hc
  rcases afterEvent_of_calm (r := r) (interestOk_of_reachable h.reachable) hr hc hentry hs.calm with
    ⟨hempty, hafter⟩ | ⟨hmore, hafter⟩ | hafter
  · obtain ⟨hreceived, hflow⟩ := h.flow_read hc hafter
    have hsent' := hsent.length_le
    rw [hreceived, List.length_append] at hsent'
    rw [hempty, List.length_nil, Nat.add_zero] at howed
    have hchunk : r.read.taken.length ≤ readBufferSize := by
      cases hread : r.read with
      | bytes b => exact (ha.read b hread).2
      | eof => exact Nat.zero_le _
      | error errno => exact Nat.zero_le _
    rw [hflow]
    rcases Nat.eq_zero_or_pos r.read.taken.length with hnone | hpos
    · rw [hnone]
      exact .inl rfl
    · exact .inr (.receive (Nat.lt_add_of_pos_right hpos) hsent' (Nat.add_le_add_left hchunk _)
        howed)
  · cases hwrite : r.write with
    | error errno =>
      left
      rw [Sending.serve, hafter, hwrite, World.writeEffect, if_neg hmore]
      simp only [if_pos (hs.write errno hwrite)]
    | wrote k =>
      rw [hwrite] at hafter
      obtain ⟨-, hflow⟩ := h.flow_write hc hafter
      have hlen : (s.serve event r).written.length =
          s.written.length + min k c.outgoing.length := congrArg Flow.written hflow
      rw [hflow]
      rcases Nat.eq_zero_or_pos (min k c.outgoing.length) with hnone | hpos
      · rw [hnone]
        exact .inl rfl
      · refine .inr (.write (Nat.lt_add_of_pos_right hpos) ?_ (hlen ▸ hroom))
        exact (Nat.add_le_add_left (Nat.min_le_right ..) _).trans howed.le
  · left
    rw [Sending.serve, hafter]

/-- More of what follows a beginning. -/
theorem exists_part {l L : Bytes} (h : l <+: L) (hmore : l.length < n) (hn : n ≤ L.length) :
    ∃ b, b ≠ [] ∧ l ++ b <+: L ∧ l.length + b.length = n := by
  obtain ⟨t, rfl⟩ := h
  rw [List.length_append] at hn
  have hlen : (t.take (n - l.length)).length = n - l.length := by
    rw [List.length_take]
    omega
  refine ⟨t.take (n - l.length), ?_, ?_, by omega⟩
  · exact List.ne_nil_of_length_pos (by omega)
  · exact (List.prefix_append_right_inj l).mpr (List.take_prefix ..)

/-- **What the streams can do**, the client and the server can make them do. -/
theorem Alone.exists_step (h : Alone back msgs serverFd fd s) {g : Flow}
    (hm : (sendingPipeline hthere back (requestBytes msgs)).Moves s.flow g) :
    ∃ s', SendingStep there back (requestBytes msgs) fd s s' ∧ s'.flow = g := by
  obtain ⟨c, hc⟩ := h.client
  have hi := interestOk_of_reachable h.reachable
  have hentry : c.fd = fd := h.consistent.entry fd c hc.2
  have howed := h.owed hc
  cases hm with
  | @send n hmore htotal hroom =>
    obtain ⟨b, hne, hb, hlen⟩ := exists_part h.sent hmore htotal
    refine ⟨s.send b, .send b hne hb (hlen.trans_le hroom), ?_⟩
    rw [Sending.flow, Sending.send, List.length_append, hlen]
    rfl
  | @receive n hmore hsent hchunk hidle =>
    obtain ⟨b, hne, hb, hlen⟩ := exists_part h.received hmore hsent
    have hempty : c.outgoing = [] := by
      change s.written.length = owedBytes (requestBytes msgs) s.received.length at hidle
      exact List.length_eq_zero_iff.mp (by omega)
    have hsize : b.length ≤ readBufferSize := by
      change n ≤ s.received.length + readBufferSize at hchunk
      omega
    have hharmless : Harmless ⟨fd, EPOLLIN⟩ { SysResults.again with read := .bytes b } :=
      ⟨⟨rfl, rfl⟩, fun he => ReadResult.noConfusion he, fun errno he => by cases he; rfl⟩
    have hafter := afterEvent_read (r := { SysResults.again with read := .bytes b }) hc hentry rfl
      rfl hharmless.calm
    obtain ⟨hreceived, hflow⟩ := h.flow_read hc hafter
    refine ⟨_, .serve ⟨fd, EPOLLIN⟩ _ rfl (.single (m := EPOLLIN) ?_ id id) (.of_read _ hne hsize)
      hharmless ?_ ?_, hflow.trans (congrArg (fun k => { s.flow with received := k }) hlen)⟩
    · rw [hi.interest_eq hc.2, interestFor_of_empty hempty]
    · rw [hreceived]
      exact hb
    · have hsame : (s.serve _ _).written.length = s.written.length := congrArg Flow.written hflow
      exact hsame.trans_le h.room
  | @write n hmore howed' hroom =>
    change s.written.length < n at hmore
    change n ≤ owedBytes (requestBytes msgs) s.received.length at howed'
    have hempty : c.outgoing ≠ [] := by
      intro hempty
      rw [hempty, List.length_nil] at howed
      omega
    have hharmless : Harmless ⟨fd, EPOLLOUT⟩
        { SysResults.again with write := .wrote (n - s.written.length) } :=
      ⟨⟨rfl, rfl⟩, fun he => ReadResult.noConfusion he, fun errno he => WriteResult.noConfusion he⟩
    have hafter := afterEvent_write
      (r := { SysResults.again with write := .wrote (n - s.written.length) }) hc hentry rfl rfl
      hharmless.calm
    obtain ⟨hreceived, hflow⟩ := h.flow_write hc hafter
    have hlen : s.written.length + min (n - s.written.length) c.outgoing.length = n := by omega
    rw [hlen] at hflow
    refine ⟨_, .serve ⟨fd, EPOLLOUT⟩ _ rfl (.single (m := EPOLLOUT) ?_ id id) (.of_write _ _)
      hharmless ?_ ?_, hflow⟩
    · rw [hi.interest_eq hc.2, interestFor_of_nonempty hempty]
    · rw [hreceived]
      exact h.received
    · have hsame : (s.serve _ _).written.length = n := congrArg Flow.written hflow
      exact hsame.trans_le hroom

/-- **The streams of the client and the server are those of a pipeline.** -/
theorem realized_sending (hthere : 0 < there) (hfd : fd ≠ -1) (hne : fd ≠ serverFd)
    (hmsgs : ∀ msg ∈ msgs, Sendable msg) :
    (sendingPipeline hthere back (requestBytes msgs)).Realized
      (SendingStep there back (requestBytes msgs) fd) (Sending.start serverFd fd) Sending.flow where
  start := rfl
  step s s' hs hstep := by
    have h := alone_of_run hfd hne hmsgs hs
    cases hstep with
    | send b hne hb hroom =>
      have hlen : (s.send b).flow = { s.flow with sent := s.sent.length + b.length } := by
        rw [Sending.flow, Sending.send, List.length_append]
        rfl
      have htotal := hb.length_le
      rw [List.length_append] at htotal
      rw [hlen]
      exact .single (.send (Nat.lt_add_of_pos_right (List.length_pos_iff.mpr hne)) htotal hroom)
    | serve event r hfd hr ha hs hsent hroom =>
      rcases h.flow_serve hthere hfd hr ha hs hsent hroom with hsame | hmove
      · rw [hsame]
      · exact .single hmove
  move s g hs hmove := by
    obtain ⟨s', hstep, hflow⟩ := (alone_of_run hfd hne hmsgs hs).exists_step hthere hmove
    exact ⟨s', .single hstep, hflow⟩

/-! ## When the client waits for ever -/

/-- The bytes owed for the first `r` bytes are the answers to the messages they hold. -/
theorem exists_owedBytes_eq (hmsgs : ∀ msg ∈ msgs, Sendable msg) (r : ℕ) :
    ∃ m, (requestBytes (msgs.take m)).length ≤ r ∧ owedBytes (requestBytes msgs) r =
      (responseBytes (runCommands Store.empty (msgs.take m)).2).length := by
  obtain ⟨cut, hcut⟩ : ∃ cut, cut = (requestBytes msgs).take r := ⟨_, rfl⟩
  have hprefix : cut <+: requestBytes msgs := hcut ▸ List.take_prefix ..
  have hlen : cut.length ≤ r := hcut ▸ List.length_take_le ..
  rw [requestBytes_eq msgs] at hprefix
  obtain ⟨m, -, tail, hdrain, hsplit, -⟩ :=
    drain_of_cut (w := lenFieldSize) (by decide) _ (accepted_toRequest hmsgs) hprefix
  rw [← List.map_take, ← requestBytes_eq] at hsplit
  rw [hsplit, List.length_append] at hlen
  refine ⟨m, by omega, ?_⟩
  rw [owedBytes, ← hcut, requestDecoder, hdrain, ← List.map_take, values_toRequest]

theorem owedBytes_requestBytes (hmsgs : ∀ msg ∈ msgs, Sendable msg) (m : ℕ) :
    owedBytes (requestBytes msgs) (requestBytes (msgs.take m)).length =
      (responseBytes (runCommands Store.empty (msgs.take m)).2).length := by
  have hsplit : requestBytes msgs = requestBytes (msgs.take m) ++ requestBytes (msgs.drop m) := by
    rw [← requestBytes_append, List.take_append_drop]
  rw [owedBytes, hsplit, List.take_left,
    drain_requestBytes fun msg hmem => hmsgs msg (List.mem_of_mem_take hmem), values_toRequest]

/-- The condition of a deadlock, in messages. -/
theorem exists_owedBytes_iff (hmsgs : ∀ msg ∈ msgs, Sendable msg) :
    (∃ r, back < owedBytes (requestBytes msgs) r ∧ r + there < (requestBytes msgs).length) ↔
      ∃ m, back < (responseBytes (runCommands Store.empty (msgs.take m)).2).length ∧
        there < (requestBytes (msgs.drop m)).length := by
  have hlen : ∀ m, (requestBytes msgs).length =
      (requestBytes (msgs.take m)).length + (requestBytes (msgs.drop m)).length := by
    intro m
    rw [← List.length_append, ← requestBytes_append, List.take_append_drop]
  constructor
  · rintro ⟨r, hback, htotal⟩
    obtain ⟨m, hm, howed⟩ := exists_owedBytes_eq hmsgs r
    have hm' := hlen m
    exact ⟨m, howed ▸ hback, by omega⟩
  · rintro ⟨m, hback, hdrop⟩
    have hm := hlen m
    refine ⟨(requestBytes (msgs.take m)).length, ?_, by omega⟩
    rwa [owedBytes_requestBytes hmsgs]

/-- **When client and server wait for each other for ever.** If the messages are within the limits
and the way to the server holds something, a run can come to where the client has more to send and
no byte moves any more in any run that follows, exactly if the answers to some first messages are
more than the way back holds, and the messages behind them are more than the way to the server
holds. -/
theorem sending_deadlock_iff (hthere : 0 < there) (hfd : fd ≠ -1) (hne : fd ≠ serverFd)
    (hmsgs : ∀ msg ∈ msgs, Sendable msg) :
    (∃ s, ReflTransGen (SendingStep there back (requestBytes msgs) fd)
        (Sending.start serverFd fd) s ∧
      s.sent.length < (requestBytes msgs).length ∧
      Pipeline.Frozen (SendingStep there back (requestBytes msgs) fd) Sending.flow s) ↔
    ∃ m, back < (responseBytes (runCommands Store.empty (msgs.take m)).2).length ∧
      there < (requestBytes (msgs.drop m)).length :=
  (realized_sending hthere hfd hne hmsgs).deadlock_iff.trans
    (exists_owedBytes_iff hmsgs)

/-- Two `get`s, when the way back holds no answer and the way there a byte. -/
theorem sending_of_gets_deadlock : ∃ s,
    ReflTransGen (SendingStep 1 4 (requestBytes [getMessage, getMessage]) 4) (Sending.start 3 4) s ∧
      s.sent.length < (requestBytes [getMessage, getMessage]).length ∧
      Pipeline.Frozen (SendingStep 1 4 (requestBytes [getMessage, getMessage]) 4) Sending.flow s :=
  (sending_deadlock_iff (by decide) (by decide) (by decide) (fun msg hmem => by
    rw [List.eq_of_mem_replicate (show msg ∈ List.replicate 2 getMessage from hmem)]
    exact ⟨by decide, by decide⟩)).mpr ⟨1, by decide, by decide⟩

/-! ## The benchmark -/

/-- The command `run_benchmark` sends. -/
def benchmarkCmd : List Bytes := [ascii "set", ascii "key1", ascii "val1"]

theorem sendable_benchmarkCmd : Sendable benchmarkCmd := ⟨by decide, by decide⟩

theorem length_requestBytes_replicate (n : ℕ) (msg : List Bytes) :
    (requestBytes (List.replicate n msg)).length = n * (toRequest msg).frame.length := by
  rw [requestBytes, List.map_replicate, List.length_flatten, List.map_replicate, List.sum_replicate]
  rfl

theorem length_responseBytes_benchmark (gData : Store) (n : ℕ) :
    (responseBytes (runCommands gData (List.replicate n benchmarkCmd)).2).length = n * 21 := by
  induction n generalizing gData with
  | zero => rfl
  | succ n ih =>
    have hframe : (doRequest gData benchmarkCmd .init).2.frame.length = 21 := rfl
    rw [List.replicate_succ, runCommands_cons, responseBytes, List.map_cons, List.flatten_cons,
      List.length_append, hframe]
    have hrest := ih (doRequest gData benchmarkCmd .init).1
    rw [responseBytes] at hrest
    omega

/-- **When the benchmark hangs**, for any number of requests: if the answers to the requests that
fill the way back leave more than the way there holds. -/
theorem benchmark_deadlock_iff (numRequests : ℕ) (hthere : 0 < there) (hfd : fd ≠ -1)
    (hne : fd ≠ serverFd) :
    (∃ s, ReflTransGen (SendingStep there back
        (requestBytes (List.replicate numRequests benchmarkCmd)) fd) (Sending.start serverFd fd) s ∧
      s.sent.length < numRequests * 31 ∧
      Pipeline.Frozen (SendingStep there back
        (requestBytes (List.replicate numRequests benchmarkCmd)) fd) Sending.flow s) ↔
    (back / 21 + 1) * 31 + there < numRequests * 31 := by
  have hmsgs : ∀ msg ∈ List.replicate numRequests benchmarkCmd, Sendable msg := fun msg hmem =>
    List.eq_of_mem_replicate hmem ▸ sendable_benchmarkCmd
  have hlen : ∀ n, (requestBytes (List.replicate n benchmarkCmd)).length = n * 31 := fun n =>
    length_requestBytes_replicate n benchmarkCmd
  have hfull : (∃ m, back < (responseBytes (runCommands Store.empty
        ((List.replicate numRequests benchmarkCmd).take m)).2).length ∧
      there < (requestBytes ((List.replicate numRequests benchmarkCmd).drop m)).length) ↔
      (back / 21 + 1) * 31 + there < numRequests * 31 := by
    simp only [List.take_replicate, List.drop_replicate, length_responseBytes_benchmark, hlen]
    constructor
    · rintro ⟨m, hback, hdrop⟩
      omega
    · intro h
      exact ⟨back / 21 + 1, by omega, by omega⟩
  rw [← hfull, ← hlen numRequests]
  exact (realized_sending hthere hfd hne hmsgs).deadlock_iff.trans (exists_owedBytes_iff hmsgs)

/-- The ten thousand requests of `main` need more than 64 KiB each way. -/
theorem benchmark_deadlock_small : ∃ s,
    ReflTransGen (SendingStep 65536 65536
        (requestBytes (List.replicate 10000 benchmarkCmd)) 4) (Sending.start 3 4) s ∧
      s.sent.length < 10000 * 31 ∧
      Pipeline.Frozen (SendingStep 65536 65536
        (requestBytes (List.replicate 10000 benchmarkCmd)) 4) Sending.flow s :=
  (benchmark_deadlock_iff 10000 (by decide) (by decide) (by decide)).mpr (by decide)

end Byor.Optimized
