import Byor.EventLoop.Handlers

/-!
# The echo server

The handlers of `03_event_loop/src/server.cpp` that are not shared with the first key-value server.
The server sends every complete frame back as it is.

* `echoDecoder`: the frames the server takes off a stream.
* `run_whileTryRequest`: the loop moves them from the incoming to the outgoing buffer.
* `Echoes`: what the buffers of a connection are, by what was read from its socket and written to
  it.
* `run_dispatch`: an event of the connection keeps that, whatever its reads and writes return short
  of end-of-file and errors.
-/

namespace Byor.EventLoop

open Wire Optimized

/-- What `try_request` does with a complete frame. -/
def serveFrame (conn : Fd) (c : Connection) (len : ℕ) : Handler Bool := do
  let request := (c.incoming.drop lenFieldSize).take len
  assign conn { c with
    incoming := c.incoming.drop (lenFieldSize + len)
    outgoing := (c.outgoing ++ c.incoming.take lenFieldSize) ++ request }
  return true

/-- `try_request` -/
def tryRequest (r : Results) (conn : Fd) : Handler Bool := tryFrame (serveFrame conn) r.stale conn

/-- `handle_read_event`. After any error of `read` it returns. -/
def handleReadEvent (r : Results) (clientFd : Fd) : Handler Unit :=
  readEvent (tryRequest r) (pure ()) r clientFd

/-- The body of the loop over the events in `start`. -/
def dispatch (event : Event) (r : Results) : Handler Unit := do
  let serverFd := (← get).serverFd
  if event.fd = serverFd then handleNewConnections r.toSysResults
  if event.fd ≠ serverFd && event.events.epollin then handleReadEvent r event.fd
  if event.fd ≠ serverFd && event.events.epollout then handleWriteEvent r.write event.fd
  if event.fd ≠ serverFd && (event.events.epollerr || event.events.epollhup) then
    handleCloseEvent event.fd

/-- The world after the handlers of an event. -/
def afterEvent (event : Event) (r : Results) (w : World) : World :=
  match (dispatch event r).run w with
  | .ok _ w' => w'
  | .error _ w' => w'

/-! ## Frames -/

/-- A payload is sent back if it is within the limit. -/
def acceptEcho (payload : Bytes) : Option Unit :=
  if maxMsgFieldSize < payload.length then none else some ()

/-- The frames the server takes off a stream. -/
def echoDecoder : Decoder UInt8 (Record Unit) := framing lenFieldSize lenFieldSize_pos acceptEcho

/-- The frames of a list of payloads. -/
def frames (payloads : List Bytes) : Bytes := (payloads.map (record lenFieldSize)).flatten

/-- The bytes of frames that were taken off a stream. -/
def echoBytes (fs : List (Record Unit)) : Bytes := frames (fs.map Record.payload)

@[simp] theorem frames_append (ps qs : List Bytes) :
    frames (ps ++ qs) = frames ps ++ frames qs := by
  simp [frames]

@[simp] theorem frames_nil : frames [] = [] := rfl

@[simp] theorem frames_cons (p : Bytes) (ps : List Bytes) :
    frames (p :: ps) = record lenFieldSize p ++ frames ps := rfl

@[simp] theorem echoBytes_append (fs gs : List (Record Unit)) :
    echoBytes (fs ++ gs) = echoBytes fs ++ echoBytes gs := by
  simp [echoBytes]

theorem acceptEcho_eq_some {payload : Bytes} {v : Unit} :
    acceptEcho payload = some v ↔ payload.length ≤ maxMsgFieldSize := by
  simp [acceptEcho]

theorem next_echo_of_startsComplete {incoming : Bytes} (h : StartsComplete incoming) :
    echoDecoder.next incoming =
      some (⟨headPayload incoming, ()⟩, incoming.drop (lenFieldSize + dataLen incoming)) := by
  have haccept : acceptEcho (headPayload incoming) = some () :=
    acceptEcho_eq_some.mpr (h.length_headPayload ▸ h.2.1)
  exact h.next_eq.trans (congrArg (Option.map _) haccept)

theorem startsComplete_of_next_echo {incoming rest : Bytes} {f : Record Unit}
    (hn : echoDecoder.next incoming = some (f, rest)) : StartsComplete incoming :=
  startsComplete_of_framing acceptEcho_eq_some.mp hn

theorem next_echo_eq_none {incoming : Bytes} (h : ¬ StartsComplete incoming) :
    echoDecoder.next incoming = none := by
  cases hn : echoDecoder.next incoming with
  | none => rfl
  | some p => exact absurd (startsComplete_of_next_echo hn) h

/-! ## `try_request` -/

section

variable {w w' : World} {conn : Fd} {c : Connection} {r : Results}

/-- The connection after the frames `fs` were sent back and `rest` is left in its buffer. -/
def echoed (c : Connection) (fs : List (Record Unit)) (rest : Bytes) : Connection :=
  { c with incoming := rest, outgoing := c.outgoing ++ echoBytes fs }

/-- `try_request` moves the first frame of the buffer. -/
theorem run_tryRequest_next (h : w.connections conn = some c) {f : Record Unit} {rest : Bytes}
    (hn : echoDecoder.next c.incoming = some (f, rest)) :
    (tryRequest r conn).run w = .ok true (w.setConn conn (echoed c [f] rest)) := by
  have hs := startsComplete_of_next_echo hn
  rw [next_echo_of_startsComplete hs] at hn
  obtain ⟨rfl, rfl⟩ := Prod.mk.inj (Option.some.inj hn)
  have hframe : c.incoming.take lenFieldSize ++ (c.incoming.drop lenFieldSize).take
      (dataLen c.incoming) = echoBytes [⟨headPayload c.incoming, ()⟩] := by
    rw [← List.take_add, hs.take_eq]
    simp [echoBytes]
  rw [tryRequest, run_tryFrame_complete h hs]
  simp only [serveFrame, EStateM.run_bind, run_assign, h, Option.isSome_some, EStateM.run_pure,
    List.append_assoc, hframe]
  rfl

/-- Without a complete frame, and without a header above the limit, nothing changes. -/
theorem run_tryRequest_none (h : w.connections conn = some c) (ho : ¬ OverLimit c.incoming)
    (hn : echoDecoder.next c.incoming = none) : (tryRequest r conn).run w = .ok false w := by
  refine run_tryFrame_incomplete h ho fun hs => ?_
  rw [next_echo_of_startsComplete hs] at hn
  cases hn

theorem setConn_setConn (c d : Connection) :
    (w.setConn conn c).setConn conn d = w.setConn conn d := by
  simp only [World.setConn, Function.update_idem]

theorem setConn_self (h : w.connections conn = some c) : w.setConn conn c = w := by
  rw [World.setConn, ← h, Function.update_eq_self]

/-- **The parse loop** moves the complete frames to the outgoing buffer, if no header above the
limit stands behind them. -/
theorem run_whileTryRequest {n : ℕ} (h : w.connections conn = some c)
    (hn : c.incoming.length < n) (ho : ¬ OverLimit (echoDecoder.drain c.incoming).2) :
    (whileTrue n (tryRequest r conn)).run w = .ok () (w.setConn conn
      (echoed c (echoDecoder.drain c.incoming).1 (echoDecoder.drain c.incoming).2)) := by
  have hlen := echoDecoder.length_drain_le (d := 1) echoDecoder.length_lt c.incoming
  have hstep : ∀ fs xs f rest, echoDecoder.next xs = some (f, rest) →
      (tryRequest r conn).run (w.setConn conn (echoed c fs xs)) =
        .ok true (w.setConn conn (echoed c (fs ++ [f]) rest)) := by
    intro fs xs f rest hnext
    rw [run_tryRequest_next (setConn_connections _) hnext, setConn_setConn]
    simp only [echoed, echoBytes_append, List.append_assoc]
  have hturns := echoDecoder.turns_of_takes (fun fs rest => w.setConn conn (echoed c fs rest)) hstep
    (echoDecoder.takes_drain c.incoming) []
    (run_tryRequest_none (setConn_connections _) ho (echoDecoder.next_drain c.incoming))
  have hstart : w.setConn conn (echoed c [] c.incoming) = w := by
    have hc : echoed c [] c.incoming = c := by
      rw [echoed, echoBytes, List.map_nil, frames_nil, List.append_nil]
    rw [hc, setConn_self h]
  rw [hstart, List.nil_append] at hturns
  exact hturns.run_whileTrue (by omega)

/-! ## The buffers of a connection -/

/-- The bytes the server has read from the socket behind a descriptor. -/
def received (w : World) (fd : Fd) : Bytes := w.kernel.received (w.kernel.socketOf fd)

/-- The bytes the server has written to the socket behind a descriptor. -/
def written (w : World) (fd : Fd) : Bytes := w.kernel.written (w.kernel.socketOf fd)

/-- **The buffers of a connection** hold what is left of the bytes received: the frames among them
are written or wait in the outgoing buffer, the rest waits in the incoming buffer. -/
structure Echoes (w : World) (conn : Fd) (c : Connection) : Prop where
  client : IsClient w conn c
  fd : c.fd = conn
  incoming : c.incoming = (echoDecoder.drain (received w conn)).2
  outgoing : written w conn ++ c.outgoing = echoBytes (echoDecoder.drain (received w conn)).1

/-- The world after a read event has moved the complete frames to the outgoing buffer. -/
def moved (w : World) (conn : Fd) (c : Connection) (b : Bytes) : World :=
  (w.buffered conn c b).setConn conn (echoed c (echoDecoder.drain (c.incoming ++ b)).1
    (echoDecoder.drain (c.incoming ++ b)).2)

/-- From `w` to `w'` the server has read `b` and may have written; the buffers are in order. -/
structure EchoStep (conn : Fd) (w : World) (b : Bytes) (w' : World) : Prop where
  echoes : ∃ c, Echoes w' conn c
  received : received w' conn = received w conn ++ b
  written : written w conn <+: written w' conn

theorem EchoStep.trans {b b' : Bytes} {w'' : World} (h : EchoStep conn w b w')
    (h' : EchoStep conn w' b' w'') : EchoStep conn w (b ++ b') w'' := by
  refine ⟨h'.echoes, ?_, h.written.trans h'.written⟩
  rw [h'.received, h.received, List.append_assoc]

theorem Echoes.refl (h : Echoes w conn c) : EchoStep conn w [] w :=
  ⟨⟨c, h⟩, (List.append_nil _).symm, List.prefix_rfl⟩

theorem Echoes.modified (h : Echoes w conn c) (m : EventMask) : Echoes (w.modified conn m) conn c :=
  ⟨h.client, h.fd, h.incoming, h.outgoing⟩

theorem received_moved (hfd : c.fd = conn) (b : Bytes) :
    received (moved w conn c b) conn = received w conn ++ b := by
  subst hfd
  exact Function.update_self ..

/-- Reading bytes and moving the frames that are complete now. -/
theorem Echoes.moved (h : Echoes w conn c) (b : Bytes) :
    Echoes (moved w conn c b) conn (echoed c (echoDecoder.drain (c.incoming ++ b)).1
      (echoDecoder.drain (c.incoming ++ b)).2) := by
  have hdrain := echoDecoder.drain_append (received w conn) b
  rw [← h.incoming, ← received_moved h.fd b] at hdrain
  refine ⟨⟨h.client.1, setConn_connections _⟩, h.fd, ?_, ?_⟩
  · rw [hdrain]
    rfl
  · rw [hdrain, echoBytes_append, ← h.outgoing, List.append_assoc]
    rfl

theorem Echoes.wrote (h : Echoes w conn c) (n : ℕ) :
    Echoes (w.wrote conn c n) conn (c.wrote n) ∧
      written w conn <+: written (w.wrote conn c n) conn := by
  have hwritten : written (w.wrote conn c n) conn =
      written w conn ++ c.outgoing.take (min n c.outgoing.length) := by
    have hfd := h.fd
    subst hfd
    exact Function.update_self ..
  refine ⟨⟨⟨h.client.1, setConn_connections _⟩, h.fd, h.incoming, ?_⟩, ?_⟩
  · rw [hwritten, List.append_assoc]
    refine Eq.trans ?_ h.outgoing
    exact congrArg (written w conn ++ ·) (List.take_append_drop ..)
  · rw [hwritten]
    exact List.prefix_append ..

/-- A write that does not fail. -/
theorem Echoes.writeEffect (h : Echoes w conn c) {r : WriteResult}
    (hr : ∀ errno, r = .error errno → errno.isAgain = true) :
    EchoStep conn w [] (writeEffect w conn c r) := by
  unfold EventLoop.writeEffect
  split
  · exact ⟨⟨c, h.modified EPOLLIN⟩, (List.append_nil _).symm, List.prefix_rfl⟩
  cases r with
  | error errno =>
    simp only [hr errno rfl, if_true]
    exact h.refl
  | wrote n =>
    obtain ⟨hwrote, hpre⟩ := h.wrote n
    exact ⟨⟨c.wrote n, hwrote.modified _⟩, (List.append_nil _).symm, hpre⟩

/-- The bytes a call of `read` puts into the buffer. -/
def taken : ReadResult → Bytes
  | .bytes b => b
  | _ => []

/-- Short of end-of-file, a read event keeps the buffers in order. -/
theorem run_handleReadEvent (h : Echoes w conn c) (heof : r.read ≠ .eof)
    (ho : ¬ OverLimit (echoDecoder.drain (received w conn ++ taken r.read)).2)
    (hwrite : ∀ errno, r.writeNow = .error errno → errno.isAgain = true) :
    ∃ w', (handleReadEvent r conn).run w = .ok () w' ∧ EchoStep conn w (taken r.read) w' := by
  cases hread : r.read with
  | eof => exact absurd hread heof
  | error errno =>
    refine ⟨w, ?_, h.refl⟩
    cases he : errno.isAgain with
    | true => exact run_readEvent_again h.client.2 hread he
    | false => exact run_readEvent_error h.client.2 hread he
  | bytes b =>
    rw [hread, taken, echoDecoder.drain_append, ← h.incoming] at ho
    have hmoved := h.moved b
    have hbuffered : (w.buffered conn c b).connections conn =
        some { c with incoming := c.incoming ++ b } := buffered_connections b
    have hloop : (whileTrue ((c.incoming ++ b).length + 1) (tryRequest r conn)).run
        (w.buffered conn c b) = .ok () (moved w conn c b) :=
      run_whileTryRequest hbuffered (Nat.lt_succ_self _) ho
    have hrun : (handleReadEvent r conn).run w = (afterLoop r conn).run (moved w conn c b) :=
      run_readEvent_bytes h.client.2 h.fd hread hloop
    rw [run_afterLoop hmoved.client.2 h.fd] at hrun
    have hread' : EchoStep conn w b (moved w conn c b) :=
      ⟨⟨_, hmoved⟩, received_moved h.fd b, List.prefix_rfl⟩
    refine ⟨_, hrun, ?_⟩
    split
    · exact hread'
    · have hwritten := (hmoved.modified EPOLLOUT).writeEffect hwrite
      have hmodified : EchoStep conn (moved w conn c b)
          [] ((moved w conn c b).modified conn EPOLLOUT) :=
        ⟨⟨_, hmoved.modified EPOLLOUT⟩, (List.append_nil _).symm, List.prefix_rfl⟩
      simpa [taken] using (hread'.trans hmodified).trans hwritten

theorem run_dispatch_server {event : Event} (h : event.fd = w.serverFd) :
    (dispatch event r).run w = .ok () (w.newEffect r.toSysResults) := by
  rw [dispatch, EStateM.run_bind, EStateM.run_get]
  simp [h, run_handleNewConnections]

/-- An event of a client that reports neither an error nor a hang-up. -/
theorem run_dispatch_client {event : Event} (h : event.fd ≠ w.serverFd)
    (herr : event.events.epollerr = false) (hhup : event.events.epollhup = false) :
    (dispatch event r).run w =
      ((if event.events.epollin then handleReadEvent r event.fd else pure ()) >>= fun _ =>
        if event.events.epollout then handleWriteEvent r.write event.fd else pure ()).run w := by
  rw [dispatch, EStateM.run_bind, EStateM.run_get]
  cases event.events.epollin <;> cases event.events.epollout <;> simp [h, herr, hhup]

/-- **Every event of the connection keeps its buffers in order.** -/
theorem run_dispatch {event : Event} (h : Echoes w event.fd c)
    (herr : event.events.epollerr = false) (hhup : event.events.epollhup = false)
    (hin : event.events.epollin = true → r.read ≠ .eof ∧
      ¬ OverLimit (echoDecoder.drain (received w event.fd ++ taken r.read)).2)
    (hnow : ∀ errno, r.writeNow = .error errno → errno.isAgain = true)
    (hwrite : ∀ errno, r.write = .error errno → errno.isAgain = true) :
    ∃ w', (dispatch event r).run w = .ok () w' ∧
      EchoStep event.fd w (if event.events.epollin then taken r.read else []) w' := by
  have hread : ∃ w₁, (if event.events.epollin then handleReadEvent r event.fd else pure ()).run w =
      .ok () w₁ ∧ EchoStep event.fd w (if event.events.epollin then taken r.read else []) w₁ := by
    cases hepollin : event.events.epollin with
    | true => exact run_handleReadEvent h (hin hepollin).1 (hin hepollin).2 hnow
    | false => exact ⟨w, rfl, h.refl⟩
  obtain ⟨w₁, hrun₁, hstep₁⟩ := hread
  obtain ⟨d, hd⟩ := hstep₁.echoes
  have hrest : ∃ w₂, (if event.events.epollout then handleWriteEvent r.write event.fd
      else pure ()).run w₁ = .ok () w₂ ∧ EchoStep event.fd w₁ [] w₂ := by
    cases event.events.epollout with
    | true => exact ⟨_, run_handleWriteEvent hd.client.2 hd.fd r.write, hd.writeEffect hwrite⟩
    | false => exact ⟨w₁, rfl, hd.refl⟩
  obtain ⟨w₂, hrun₂, hstep₂⟩ := hrest
  refine ⟨w₂, ?_, by simpa using hstep₁.trans hstep₂⟩
  rw [run_dispatch_client h.client.1 herr hhup, EStateM.run_bind, hrun₁]
  exact hrun₂

end

end Byor.EventLoop
