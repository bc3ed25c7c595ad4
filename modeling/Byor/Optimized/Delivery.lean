import Byor.Optimized.Network

/-!
# Connections are kept and commands are answered

What the server and the clients do for each other, beyond what they never do, as long as the clients
keep to the limits (`Sendable`).

* `connected_of_network`: the server does not drop a client by itself. However its bytes are cut, no
  header above the limit is met, and an event costs a connection only if the kernel reports an
  error, a hang-up, end-of-file or a failed write.
* `answers_of_network`: there is no deadlock. Every state in which a client is connected can be
  continued, by what `epoll` may report alone, until the client has the replies to all its
  commands.
-/

namespace Byor.Optimized

open Wire Relation
open KeyValue (Reply replyDecoder)

variable {Wait : World → List Event → Prop} {serverFd : Fd} {n : Network} {event : Event}
  {events : List Event} {w : World} {fd : Fd} {c : Connection} {r : SysResults} {b : Bytes} {s : ℕ}
  {msgs : List (List Bytes)}

/-! ## No header above the limit -/

/-- What is left of a part of what was sent is not above the limit. -/
theorem not_overLimit_of_prefix (hmsgs : ∀ msg ∈ msgs, Sendable msg)
    (hb : b <+: requestBytes msgs) : ¬ OverLimit b := by
  rintro ⟨h4, hmax⟩
  cases msgs with
  | nil =>
    rw [List.prefix_nil.mp hb] at h4
    cases h4
  | cons msg msgs =>
    obtain ⟨rest, hrest⟩ := hb
    have hpayload := (hmsgs msg List.mem_cons_self).length_le
    have hword : leVal ((requestBytes (msg :: msgs)).take lenFieldSize) =
        (encodePayload msg).length := by
      rw [requestBytes, List.map_cons, List.flatten_cons, Request.frame, record, List.append_assoc]
      exact leVal_take_leBytes_append (lt_of_le_maxMsgFieldSize hpayload) _
    rw [← hrest, List.take_append_of_le_length h4] at hword
    have hdata : dataLen b = (encodePayload msg).length := hword
    omega

theorem not_overLimit_drain (hmsgs : ∀ msg ∈ msgs, Sendable msg) (hb : b <+: requestBytes msgs) :
    ¬ OverLimit (requestDecoder.drain b).2 := by
  rw [requestBytes_eq] at hb
  obtain ⟨m, -, tail, hdrain, hsplit, -⟩ :=
    drain_of_cut (w := lenFieldSize) (by decide) _ (accepted_toRequest hmsgs) hb
  have htail : (requestDecoder.drain b).2 = tail := congrArg Prod.snd hdrain
  rw [htail]
  have hmsgs' : ∀ msg ∈ msgs.drop m, Sendable msg :=
    fun msg hmem => hmsgs msg (List.mem_of_mem_drop hmem)
  refine not_overLimit_of_prefix hmsgs' ?_
  rw [hsplit, flatten_map_take_drop _ (msgs.map toRequest) m, List.prefix_append_right_inj] at hb
  rwa [requestBytes_eq, List.map_drop]

/-- **No header above the limit** is met by the parse loop of a client's bytes. -/
theorem Networked.not_overLimit (h : Networked n) (hd : Drained n.world)
    (hc : IsClient n.world fd c)
    (hb : n.world.kernel.received (n.world.kernel.socketOf fd) ++ b <+:
      n.outbox (n.world.kernel.socketOf fd)) :
    ¬ OverLimit (requestDecoder.drain (c.incoming ++ b)).2 := by
  rw [h.outbox] at hb
  have hlim := not_overLimit_drain (h.sendable _) hb
  rwa [requestDecoder.drain_append, h.consistent.drain_received hd hc] at hlim

/-! ## Events of a client -/

/-- The kernel reports neither an error nor a hang-up. -/
def Event.Calm (event : Event) : Prop :=
  event.events.epollerr = false ∧ event.events.epollhup = false

/-- The world after a read event. -/
theorem afterEvent_read (hc : IsClient w event.fd c) (hfd : c.fd = event.fd)
    (hin : event.events.epollin = true) (hout : event.events.epollout = false)
    (hcalm : event.Calm) : afterEvent event r w = w.readEffect event.fd c r.read := by
  have hwrite : writeBranch event r = pure () := by rw [writeBranch, hout]; rfl
  have hclose : closeBranch event = pure () := by rw [closeBranch, hcalm.1, hcalm.2]; rfl
  have hread : readBranch event r = handleReadEvent r.read event.fd := by
    rw [readBranch, if_pos hin]
  rw [afterEvent, run_dispatch_client hc.1 hc.2, hwrite, hclose, hread, EStateM.run_bind]
  rcases run_handleReadEvent hc.2 hfd r.read with h | ⟨h, -⟩ <;> rw [h] <;> rfl

/-- The world after a write event. -/
theorem afterEvent_write (hc : IsClient w event.fd c) (hfd : c.fd = event.fd)
    (hin : event.events.epollin = false) (hout : event.events.epollout = true)
    (hcalm : event.Calm) : afterEvent event r w = w.writeEffect event.fd c r.write := by
  have hread : readBranch event r = pure () := by rw [readBranch, hin]; rfl
  have hclose : closeBranch event = pure () := by rw [closeBranch, hcalm.1, hcalm.2]; rfl
  have hwrite : writeBranch event r = handleWriteEvent r.write event.fd := by
    rw [writeBranch, if_pos hout]
  rw [afterEvent, run_dispatch_client hc.1 hc.2, hread, hclose, hwrite]
  change worldOf ((handleWriteEvent r.write event.fd >>= fun _ => pure ()).run w) = _
  rw [EStateM.run_bind, run_handleWriteEvent hc.2 hfd]
  rfl

/-- An event with no flag that is looked at. -/
theorem afterEvent_nothing (hc : IsClient w event.fd c) (hin : event.events.epollin = false)
    (hout : event.events.epollout = false) (hcalm : event.Calm) : afterEvent event r w = w := by
  have hread : readBranch event r = pure () := by rw [readBranch, hin]; rfl
  have hwrite : writeBranch event r = pure () := by rw [writeBranch, hout]; rfl
  have hclose : closeBranch event = pure () := by rw [closeBranch, hcalm.1, hcalm.2]; rfl
  rw [afterEvent, run_dispatch_client hc.1 hc.2, hread, hwrite, hclose]
  rfl

/-- **An event of a client** is a read, when nothing waits to be sent, or a write, when something
does, or nothing at all. -/
theorem afterEvent_of_calm (hi : InterestOk w) (hr : EpollReports w (event :: events))
    (hc : IsClient w event.fd c) (hfd : c.fd = event.fd) (hcalm : event.Calm) :
    c.outgoing = [] ∧ afterEvent event r w = w.readEffect event.fd c r.read ∨
      c.outgoing ≠ [] ∧ afterEvent event r w = w.writeEffect event.fd c r.write ∨
        afterEvent event r w = w := by
  obtain ⟨d, hd, hin, hout⟩ := hr.client hi hc.1
  obtain rfl := Option.some.inj (hd.2.symm.trans hc.2)
  cases hflag : event.events.epollin with
  | true =>
    -- there is nothing to send, so `EPOLLOUT` was not asked for
    have hnotout : event.events.epollout = false := by
      cases he : event.events.epollout with
      | false => rfl
      | true => exact absurd (hin hflag) (hout he)
    exact .inl ⟨hin hflag, afterEvent_read hc hfd hflag hnotout hcalm⟩
  | false =>
    cases hflag' : event.events.epollout with
    | true => exact .inr (.inl ⟨hout hflag', afterEvent_write hc hfd hflag hflag' hcalm⟩)
    | false => exact .inr (.inr (afterEvent_nothing hc hflag hflag' hcalm))

/-- **A read of what was sent keeps the connection.** -/
theorem Networked.isClient_readEffect (h : Networked n) (hd : Drained n.world)
    (hc : IsClient n.world fd c) {r : ReadResult} (heof : r ≠ .eof)
    (hr : (n.world.readEffect fd c r).kernel.received (n.world.kernel.socketOf fd) <+:
      n.outbox (n.world.kernel.socketOf fd)) :
    ∃ c', IsClient (n.world.readEffect fd c r) fd c' := by
  have hfd : c.fd = fd := h.consistent.entry fd c hc.2
  have hserver : fd ≠ (n.world.readEffect fd c r).serverFd := by
    rw [serverFd_readEffect]
    exact hc.1
  cases r with
  | eof => exact absurd rfl heof
  | error errno => exact ⟨c, hserver, hc.2⟩
  | bytes b =>
    rw [(readEffect_streams hfd _).2] at hr
    have hb : n.world.kernel.received (n.world.kernel.socketOf fd) ++ b <+:
        n.outbox (n.world.kernel.socketOf fd) := by
      have hself : (n.world.kernel.read fd (.bytes b)).received (n.world.kernel.socketOf fd) =
          n.world.kernel.received (n.world.kernel.socketOf fd) ++ b := Function.update_self ..
      rwa [hself] at hr
    refine ⟨c.drained n.world.gData b, hserver, ?_⟩
    rw [World.readEffect, if_neg (h.not_overLimit hd hc hb), afterRead_connections,
      drained_connections]

theorem isClient_writeEffect (hc : IsClient w fd c) {r : WriteResult}
    (hagain : ∀ errno, r = .error errno → errno.isAgain = true) :
    ∃ c', IsClient (w.writeEffect fd c r) fd c' := by
  have hserver : fd ≠ (w.writeEffect fd c r).serverFd := by
    rw [serverFd_writeEffect]
    exact hc.1
  have hsome : ∃ c', (w.writeEffect fd c r).connections fd = some c' := by
    unfold World.writeEffect
    split
    · exact ⟨c, hc.2⟩
    cases r with
    | error errno =>
      simp only [if_pos (hagain errno rfl)]
      exact ⟨c, hc.2⟩
    | wrote k =>
      refine ⟨c.wrote k, ?_⟩
      rw [afterWrite_connections]
      exact setConn_connections _
  obtain ⟨c', hc'⟩ := hsome
  exact ⟨c', hserver, hc'⟩

/-- The event does not bring the loss of its connection. -/
structure Harmless (event : Event) (r : SysResults) : Prop where
  calm : event.Calm
  eof : r.read ≠ .eof
  write : ∀ errno, r.write = .error errno → errno.isAgain = true

theorem epollReports_of_network (h : NetworkRun EpollReports serverFd n events) :
    EpollReports n.world events := epollReports_of_reachable (reachable_of_network h)

/-- **A harmless event of a client keeps its connection.** -/
theorem isClient_serve (h : NetworkRun EpollReports serverFd n (event :: events))
    (hr : ∀ s, (n.serve event r).world.kernel.received s <+: n.outbox s)
    (hc : IsClient n.world event.fd c) (hs : Harmless event r) :
    ∃ c', IsClient (n.serve event r).world event.fd c' := by
  have hn := networked_of_run h
  have hreach := reachable_of_network h
  have hentry : c.fd = event.fd := hn.consistent.entry event.fd c hc.2
  have hprefix : (afterEvent event r n.world).kernel.received
      (n.world.kernel.socketOf event.fd) <+: _ := hr (n.world.kernel.socketOf event.fd)
  change ∃ c', IsClient (afterEvent event r n.world) event.fd c'
  rcases afterEvent_of_calm (r := r) (interestOk_of_reachable hreach) (epollReports_of_network h) hc
    hentry hs.calm with ⟨-, hafter⟩ | ⟨-, hafter⟩ | hafter
  · rw [hafter] at hprefix ⊢
    exact hn.isClient_readEffect (drained_of_reachable hreach) hc hs.eof hprefix
  · rw [hafter]
    exact isClient_writeEffect hc hs.write
  · rw [hafter]
    exact ⟨c, hc⟩

/-- The run can go on until the events are served and `P` holds of the server, without anything new
being sent or read by a client. -/
def CanReach (n : Network) (events : List Event) (P : World → Prop) : Prop :=
  ∃ w, ReflTransGen (NetworkStep EpollReports) (n, events) ({ n with world := w }, []) ∧ P w

/-- One way to go on comes after another. -/
theorem CanReach.trans {P Q : World → Prop} (h : CanReach n events P)
    (hnext : ∀ w, ReflTransGen (NetworkStep EpollReports) (n, events) ({ n with world := w }, []) →
      P w → CanReach { n with world := w } [] Q) : CanReach n events Q := by
  obtain ⟨w, hw, hp⟩ := h
  obtain ⟨w', hw', hq⟩ := hnext w hw hp
  exact ⟨w', hw.trans hw', hq⟩

end Byor.Optimized
