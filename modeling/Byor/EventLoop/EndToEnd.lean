import Mathlib.Logic.Relation
import Byor.EventLoop.Client

/-!
# The echo server and its client, end to end

One client is connected to the echo server. A step of the system is a call of `send_request`, a call
of `write` or `read` of the client, or an event the server serves, in any order: every write may be
short, every read may return any part of what is under way, and the server's calls may ask to be
tried again.

* `Inv`: what relates the four buffers and the two streams, kept by every step.
* `echo_of_run`: in every run the server's buffers hold what it has received and not yet written,
  and what the client has read are its own queries, in order.
-/

namespace Byor.EventLoop

open Wire Optimized

/-- The server, the client and what the client has put on the connection and taken off it. -/
structure System where
  world : World
  sender : Sender
  sent : Bytes
  receiver : Receiver
  got : Bytes

/-- The server has accepted the client as `fd`; the client has not called `send_request` yet. -/
def System.start (serverFd fd : Fd) (queries : List Bytes) : System where
  world := afterEvent ⟨serverFd, EPOLLIN⟩
    ⟨{ SysResults.again with accept := fd }, .error .EAGAIN, ⟨0, [], []⟩⟩ (World.init serverFd)
  sender := ⟨queries, ⟨[], 0⟩⟩
  sent := []
  receiver := ⟨.start, []⟩
  got := []

/-- The results of an event of the connection, short of end-of-file and errors: `read` returns some
of the bytes that are under way. -/
structure ShortOnly (s : System) (event : Event) (r : Results) : Prop where
  epollerr : event.events.epollerr = false
  epollhup : event.events.epollhup = false
  eof : r.read ≠ .eof
  read : ∀ b, r.read = .bytes b → b ≠ [] ∧ b.length ≤ readBufferSize
  underWay : received s.world event.fd ++ taken r.read <+: s.sent
  writeNow : ∀ errno, r.writeNow = .error errno → errno.isAgain = true
  write : ∀ errno, r.write = .error errno → errno.isAgain = true

/-- The steps of the system. -/
inductive Step (fd : Fd) : System → System → Prop
  /-- The client calls `send_request` for its next query. -/
  | sendRequest {s} (hdone : s.sender.loop.rest = []) :
      Step fd s { s with sender := s.sender.next }
  /-- A call of `write` in `write_all`. -/
  | write {s} (n : ℕ) (hn : n ≤ s.sender.loop.rest.length) :
      Step fd s { s with
        sender := { s.sender with loop := s.sender.loop.wrote n }
        sent := s.sent ++ s.sender.loop.rest.take n }
  /-- The server serves an event of the connection. -/
  | serve {s} (event : Event) (r : Results) (hfd : event.fd = fd)
      (ha : ShortOnly s event r) :
      Step fd s { s with world := afterEvent event r s.world }
  /-- A call of `read` in `read_full`. -/
  | read {s} (b : Bytes) (hne : b ≠ []) (hlen : b.length ≤ s.receiver.current.missing)
      (hb : s.got ++ b <+: written s.world fd) :
      Step fd s { s with receiver := s.receiver.read b, got := s.got ++ b }

/-- The runs of the system. -/
abbrev Run (serverFd fd : Fd) (queries : List Bytes) : System → Prop :=
  Relation.ReflTransGen (Step fd) (System.start serverFd fd queries)

/-- **What holds at every moment.** -/
structure Inv (fd : Fd) (queries : List Bytes) (s : System) : Prop where
  sending : ∃ called, queries = called ++ s.sender.queries ∧
    s.sent ++ s.sender.loop.rest = frames called
  echoes : ∃ c, Echoes s.world fd c
  received : received s.world fd <+: s.sent
  got : s.got <+: written s.world fd
  receiving : ∃ responses, Reads s.receiver responses s.got

variable {serverFd fd : Fd} {queries : List Bytes} {s s' : System}

/-- The server starts with the accepted client in its table. -/
theorem start_world (hfd : fd ≠ -1) (hne : fd ≠ serverFd) :
    (System.start serverFd fd queries).world = (World.init serverFd).accepted fd := by
  have hnone : (World.init serverFd).connections fd = none := Function.update_of_ne hne ..
  change afterEvent _ _ (World.init serverFd) = _
  rw [afterEvent, run_dispatch_server rfl]
  simp only [World.newEffect, if_neg hfd, hnone]
  rfl

theorem inv_start (hfd : fd ≠ -1) (hne : fd ≠ serverFd) :
    Inv fd queries (System.start serverFd fd queries) := by
  have hworld : (System.start serverFd fd queries).world = _ := start_world hfd hne
  have hreceived : received ((World.init serverFd).accepted fd) fd = [] := rfl
  have hwritten : written ((World.init serverFd).accepted fd) fd = [] := rfl
  have hdrain : echoDecoder.drain [] = ([], []) := rfl
  have hechoes : Echoes ((World.init serverFd).accepted fd) fd ⟨fd, [], []⟩ := by
    refine ⟨⟨hne, accepted_connections⟩, rfl, ?_, ?_⟩
    · rw [hreceived, hdrain]
    · rw [hreceived, hwritten, hdrain]
      rfl
  refine ⟨⟨[], rfl, rfl⟩, ⟨_, hworld ▸ hechoes⟩, ?_, List.nil_prefix, ⟨[], ?_⟩⟩
  · rw [hworld, hreceived]
    exact List.nil_prefix
  · exact ⟨nofun, rfl, start_waiting, rfl⟩

/-- What has been sent is part of the frames of the queries. -/
theorem sent_part (h : Inv fd queries s) : s.sent <+: frames queries := by
  obtain ⟨called, hq, hsent⟩ := h.sending
  have hcalled : s.sent <+: frames called := hsent ▸ List.prefix_append ..
  rw [hq, frames_append]
  exact hcalled.trans (List.prefix_append ..)

/-- What the server has written is part of the frames of the queries. -/
theorem written_part (h : Inv fd queries s) (hq : Valid queries) :
    written s.world fd <+: frames queries := by
  obtain ⟨c, hc⟩ := h.echoes
  have hpayloads := (drain_of_part hq (h.received.trans (sent_part h))).1
  have hwritten : written s.world fd <+: echoBytes (echoDecoder.drain (received s.world fd)).1 :=
    hc.outgoing ▸ List.prefix_append ..
  obtain ⟨rest, hrest⟩ := hpayloads
  refine hwritten.trans ?_
  rw [← hrest, frames_append]
  exact List.prefix_append ..

theorem inv_sendRequest (h : Inv fd queries s) (hq : Valid queries)
    (hdone : s.sender.loop.rest = []) : Inv fd queries { s with sender := s.sender.next } := by
  refine { h with sending := ?_ }
  obtain ⟨called, hqueries, hsent⟩ := h.sending
  change ∃ called, queries = called ++ s.sender.next.queries ∧
    s.sent ++ s.sender.next.loop.rest = frames called
  cases hnext : s.sender.queries with
  | nil =>
    have hsame : s.sender.next = s.sender := by simp only [Sender.next, hnext]
    rw [hsame]
    exact ⟨called, hqueries, hsent⟩
  | cons q qs =>
    rw [hnext] at hqueries
    have hmax : q.length ≤ maxMsgFieldSize := hq q (by simp [hqueries])
    have hcall : s.sender.next = ⟨qs, ⟨record lenFieldSize q, 0⟩⟩ := by
      simp only [Sender.next, hnext, sendRequest_eq hmax]
    rw [hdone, List.append_nil] at hsent
    refine ⟨called ++ [q], ?_, ?_⟩
    · simp [hcall, hqueries]
    · simp [hcall, hsent, WriteAll.rest]

theorem inv_write (h : Inv fd queries s) (n : ℕ) :
    Inv fd queries { s with
      sender := { s.sender with loop := s.sender.loop.wrote n }
      sent := s.sent ++ s.sender.loop.rest.take n } := by
  obtain ⟨called, hqueries, hsent⟩ := h.sending
  refine { h with sending := ⟨called, hqueries, ?_⟩, received := ?_ }
  · rw [← hsent, List.append_assoc]
    refine congrArg (s.sent ++ ·) ?_
    change s.sender.loop.rest.take n ++ s.sender.loop.buf.drop (s.sender.loop.bytesWritten + n) = _
    rw [← List.drop_drop]
    exact List.take_append_drop n s.sender.loop.rest
  · exact h.received.trans (List.prefix_append ..)

theorem inv_serve (h : Inv fd queries s) (hq : Valid queries) {event : Event} {r : Results}
    (hfd : event.fd = fd) (ha : ShortOnly s event r) :
    Inv fd queries { s with world := afterEvent event r s.world } := by
  subst hfd
  obtain ⟨c, hc⟩ := h.echoes
  have hlim := (drain_of_part hq (ha.underWay.trans (sent_part h))).2
  obtain ⟨w', hrun, hstep⟩ := run_dispatch hc ha.epollerr ha.epollhup (fun _ => ⟨ha.eof, hlim⟩)
    ha.writeNow ha.write
  have hafter : afterEvent event r s.world = w' := by rw [afterEvent, hrun]
  rw [hafter]
  refine { h with echoes := hstep.echoes, received := ?_, got := h.got.trans hstep.written }
  change received w' event.fd <+: s.sent
  rw [hstep.received]
  split
  · exact ha.underWay
  · rw [List.append_nil]
    exact h.received

theorem inv_read (h : Inv fd queries s) (hq : Valid queries) {b : Bytes}
    (hlen : b.length ≤ s.receiver.current.missing) (hb : s.got ++ b <+: written s.world fd) :
    Inv fd queries { s with receiver := s.receiver.read b, got := s.got ++ b } := by
  obtain ⟨responses, hreads⟩ := h.receiving
  exact { h with got := hb, receiving := hreads.read hq hlen (hb.trans (written_part h hq)) }

/-- **Every step keeps the invariant.** -/
theorem Inv.step (h : Inv fd queries s) (hq : Valid queries) (hs : Step fd s s') :
    Inv fd queries s' := by
  cases hs with
  | sendRequest hdone => exact inv_sendRequest h hq hdone
  | write n hn => exact inv_write h n
  | serve event r hfd ha => exact inv_serve h hq hfd ha
  | read b hne hlen hb => exact inv_read h hq hlen hb

theorem inv_of_run (hfd : fd ≠ -1) (hne : fd ≠ serverFd) (hq : Valid queries)
    (h : Run serverFd fd queries s) : Inv fd queries s := by
  induction h with
  | refl => exact inv_start hfd hne
  | tail _ hs ih => exact ih.step hq hs

/-- A buffer in which no frame is complete and no header above the limit. -/
theorem incomplete_of_not {incoming : Bytes} (ho : ¬ OverLimit incoming)
    (hs : ¬ StartsComplete incoming) : incoming.length < lenFieldSize ∨
      incoming.length < lenFieldSize + dataLen incoming := by
  by_contra h
  push Not at h
  by_cases hmax : dataLen incoming ≤ maxMsgFieldSize
  · exact hs ⟨h.1, hmax, h.2⟩
  · exact ho ⟨h.1, Nat.lt_of_not_le hmax⟩

/-- **The echo server and its client.** At every moment the bytes the server has written, followed
by its outgoing buffer, are the complete frames it has received so far, which are the first queries
in order, and its incoming buffer is what is left, an incomplete frame. No call of `read_response`
has failed, and the k-th has read exactly the k-th query. -/
theorem echo_of_run (hfd : fd ≠ -1) (hne : fd ≠ serverFd) (hq : Valid queries)
    (h : Run serverFd fd queries s) :
    (∃ c fs, s.world.connections fd = some c ∧ fs <+: queries ∧
      received s.world fd = frames fs ++ c.incoming ∧
      (c.incoming.length < lenFieldSize ∨
        c.incoming.length < lenFieldSize + dataLen c.incoming) ∧
      written s.world fd ++ c.outgoing = frames fs) ∧
    none ∉ s.receiver.results ∧
    ∀ (k : ℕ) (response : Bytes), (s.receiver.results.filterMap id)[k]? = some response →
      queries[k]? = some response := by
  have hinv := inv_of_run hfd hne hq h
  constructor
  · obtain ⟨c, hc⟩ := hinv.echoes
    obtain ⟨hpre, hlim⟩ := drain_of_part hq (hinv.received.trans (sent_part hinv))
    have hnone := echoDecoder.next_drain (received s.world fd)
    refine ⟨c, _, hc.client.2, hpre, ?_, ?_, hc.outgoing⟩
    · rw [hc.incoming]
      exact (echoDecoder.drain_split _).trans (congrArg (· ++ _) (by
        rw [frames, List.map_map]
        rfl))
    · rw [hc.incoming]
      refine incomplete_of_not hlim fun hs => ?_
      rw [next_echo_of_startsComplete hs] at hnone
      cases hnone
  · obtain ⟨responses, hreads⟩ := hinv.receiving
    obtain ⟨rest, hrest⟩ := hreads.prefix_queries hq (hinv.got.trans (written_part hinv hq))
    have hfilter : (responses.map some).filterMap id = responses := by
      rw [List.filterMap_map]
      exact List.filterMap_some
    rw [hreads.results, hfilter]
    refine ⟨by simp, fun k response hk => ?_⟩
    rw [← hrest, List.getElem?_append_left (List.getElem?_eq_some_iff.mp hk).1]
    exact hk

/-- The results of an event that reads `b`, and writes `n` bytes of what is ready. -/
def echoResults (b : Bytes) (n : ℕ) : Results :=
  ⟨{ SysResults.again with read := .bytes b }, .wrote n, ⟨0, [], []⟩⟩

theorem shortOnly_echoResults {s : System} {b : Bytes} {n : ℕ} (hne : b ≠ [])
    (hlen : b.length ≤ readBufferSize) (hb : received s.world 7 ++ b <+: s.sent) :
    ShortOnly s ⟨7, EPOLLIN⟩ (echoResults b n) := by
  refine ⟨rfl, rfl, nofun, ?_, hb, nofun, ?_⟩
  · rintro b' ⟨⟩
    exact ⟨hne, hlen⟩
  · rintro errno ⟨⟩
    rfl

/-- A query that is sent in two parts, and comes back in two. -/
theorem echo_of_short_run : ∃ s, Run 3 7 [ascii "hi"] s ∧ s.receiver.results = [some (ascii "hi")] ∧
    ∀ (k : ℕ) (response : Bytes), (s.receiver.results.filterMap id)[k]? = some response →
      [ascii "hi"][k]? = some response := by
  have hcall : Run 3 7 [ascii "hi"] _ := Relation.ReflTransGen.refl.tail (.sendRequest rfl)
  have hfirst := hcall.tail (.write 3 (by decide))
  have hpart := hfirst.tail (.serve ⟨7, EPOLLIN⟩ (echoResults [2, 0, 0] 0) rfl
    (shortOnly_echoResults (by decide) (by decide) (by decide)))
  have hsecond := hpart.tail (.write 3 (by decide))
  have hserved := hsecond.tail (.serve ⟨7, EPOLLIN⟩ (echoResults (0 :: ascii "hi") 6) rfl
    (shortOnly_echoResults (by decide) (by decide) (by decide)))
  have hheader := hserved.tail (.read [2, 0, 0, 0] (by decide) (by decide) (by decide))
  have hdone := hheader.tail (.read (ascii "hi") (by decide) (by decide) (by decide))
  have hq : Valid [ascii "hi"] := by
    intro q hmem
    obtain rfl := List.mem_singleton.mp hmem
    decide
  exact ⟨_, hdone, by decide, (echo_of_run (by decide) (by decide) hq hdone).2.2⟩

end Byor.EventLoop
