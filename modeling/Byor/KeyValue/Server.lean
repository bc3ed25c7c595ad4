import Byor.EventLoop.Handlers
import Byor.KeyValue.Response

/-!
# The first key-value server

The handlers of `04_key_value_server/src/server.cpp` that are not shared with the echo server.
`parse_req` and `do_request` are those of the optimized server, word for word; `make_response` is
not.

* `run_tryRequest_complete`: what becomes of a complete frame.
* `run_whileTryRequest`: the loop takes the requests off the buffer; a header above the limit then
  closes the connection.
* `run_handleReadEvent_bytes`: a read event.
-/

namespace Byor.KeyValue

open Wire EventLoop
open Optimized hiding Handler assign handleNewConnections handleWriteEvent handleCloseEvent

/-- `parse_req` -/
def parseReq (data : Bytes) (parsedCmds : List Bytes) : Bool × List Bytes :=
  Optimized.parseReq data parsedCmds

/-- `do_request` -/
def doRequest (gData : Store) (cmd : List Bytes) (resp : Response) : Store × Response :=
  Optimized.doRequest gData cmd resp

/-- What the system calls made while serving one event return, and the memory it reads. -/
structure Results extends EventLoop.Results where
  /-- What stands behind the length of the response, for each call of `make_response`. -/
  memory : ℕ → Adjacent

/-- What `try_request` does with a complete frame. -/
def serveFrame (r : Results) (conn : Fd) (c : Connection) (len : ℕ) : Handler Bool := do
  let request := (c.incoming.drop lenFieldSize).take len
  let (ok, cmd) := parseReq request []
  if !ok then return false
  let w ← get
  let (gData, resp) := doRequest w.gData cmd .init
  let call : Execution := ⟨w.kernel.socketOf c.fd, ⟨request, cmd⟩, resp⟩
  set { w with gData := gData, executed := w.executed ++ [call] }
  assign conn { c with
    incoming := c.incoming.drop (lenFieldSize + len)
    outgoing := makeResponse (r.memory w.executed.length) resp c.outgoing }
  return true

/-- `try_request` -/
def tryRequest (r : Results) (conn : Fd) : Handler Bool :=
  tryFrame (serveFrame r conn) r.stale conn

/-- `handle_read_event`. An error of `read` other than `EAGAIN` does not return: `bytes_read` is
`-1` then, and the range to insert ends before it begins. -/
def handleReadEvent (r : Results) (clientFd : Fd) : Handler Unit :=
  readEvent (tryRequest r) (throw .invalidRange) r.toResults clientFd

/-- The body of the loop over the events in `start`. -/
def dispatch (event : Event) (r : Results) : Handler Unit := do
  if event.fd = (← get).serverFd then
    handleNewConnections r.toSysResults
  else
    if event.events.epollin then handleReadEvent r event.fd
    if event.events.epollout then handleWriteEvent r.write event.fd
    if event.events.epollerr || event.events.epollhup then handleCloseEvent event.fd

section

variable {w w' : World} {conn : Fd} {c : Connection} {r : Results}

/-! ## `try_request` -/

/-- The connection after its first request was served. -/
def servedFirst (r : Results) (w : World) (c : Connection) (f : Request) (rest : Bytes) :
    Connection :=
  { c with
    incoming := rest
    outgoing := makeResponse (r.memory w.executed.length) (doRequest w.gData f.value .init).2
      c.outgoing }

/-- The world after the first request of the connection `c` was served. -/
def serveFirst (r : Results) (w : World) (conn : Fd) (c : Connection) (f : Request)
    (rest : Bytes) : World :=
  { w.setConn conn (servedFirst r w c f rest) with
    gData := (doRequest w.gData f.value .init).1
    executed := w.executed ++
      [⟨w.kernel.socketOf c.fd, f, (doRequest w.gData f.value .init).2⟩] }

/-- A complete frame within the limit is handed to `parse_req`. -/
theorem run_tryRequest_complete (h : w.connections conn = some c)
    (hs : StartsComplete c.incoming) :
    (tryRequest r conn).run w =
      if (parseReq (headPayload c.incoming) []).1 then
        .ok true (serveFirst r w conn c
          ⟨headPayload c.incoming, (parseReq (headPayload c.incoming) []).2⟩
          (c.incoming.drop (lenFieldSize + dataLen c.incoming)))
      else .ok false w := by
  have hreq : (c.incoming.drop lenFieldSize).take (dataLen c.incoming) = headPayload c.incoming :=
    rfl
  rw [tryRequest, run_tryFrame_complete h hs]
  simp only [serveFrame, hreq]
  cases hp : (parseReq (headPayload c.incoming) []).1 with
  | false => rfl
  | true =>
    simp only [Bool.not_true, Bool.false_eq_true, if_false, if_true, EStateM.run_bind,
      EStateM.run_get, EStateM.run_set, EventLoop.run_assign, h, Option.isSome_some,
      EStateM.run_pure]
    rfl

/-- `try_request` serves the first request of the buffer. -/
theorem run_tryRequest_next (h : w.connections conn = some c) {f : Request} {rest : Bytes}
    (hn : requestDecoder.next c.incoming = some (f, rest)) :
    (tryRequest r conn).run w = .ok true (serveFirst r w conn c f rest) := by
  obtain ⟨hs, hp, rfl, rfl⟩ := request_of_next hn
  exact (run_tryRequest_complete h hs).trans (if_pos hp)

/-- Without a request to serve, and without a header above the limit, nothing changes. -/
theorem run_tryRequest_none (h : w.connections conn = some c) (ho : ¬ OverLimit c.incoming)
    (hn : requestDecoder.next c.incoming = none) : (tryRequest r conn).run w = .ok false w := by
  by_cases hs : StartsComplete c.incoming
  · have hp := refused_of_next_eq_none hs hn
    exact (run_tryRequest_complete h hs).trans (if_neg (Bool.eq_false_iff.mp hp))
  · exact run_tryFrame_incomplete h ho hs

/-! ## The parse loop -/

theorem kept_serveFirst (h : w.connections conn = some c) (f : Request) (rest : Bytes) :
    Kept w (serveFirst r w conn c f rest) :=
  .of_update h (servedFirst r w c f rest) rfl rfl rfl rfl rfl

/-- The worlds the parse loop of a connection passes through: descriptors are as before, and `rest`
is left in the buffer. -/
def Parsed (conn : Fd) (w : World) (rest : Bytes) (w' : World) : Prop :=
  Kept w w' ∧ ∃ d, w'.connections conn = some d ∧ d.fd = conn ∧ d.incoming = rest

theorem Parsed.serveFirst {rest : Bytes} (h : Parsed conn w rest w') {f : Request} {rest' : Bytes}
    (hn : requestDecoder.next rest = some (f, rest')) :
    ∃ w'', (tryRequest r conn).run w' = .ok true w'' ∧ Parsed conn w rest' w'' := by
  obtain ⟨hk, d, hd, hfd, rfl⟩ := h
  exact ⟨_, run_tryRequest_next hd hn, hk.trans (kept_serveFirst hd f rest'),
    servedFirst r w' d f rest', setConn_connections _, hfd, rfl⟩

/-- **The parse loop** takes the requests off the buffer; on a header above the limit it then closes
the connection. It ends by itself when its turns outnumber the bytes of the buffer. -/
theorem run_whileTryRequest {n : ℕ} (h : w.connections conn = some c) (hfd : c.fd = conn)
    (hn : c.incoming.length < n) : ∃ w', Parsed conn w (requestDecoder.drain c.incoming).2 w' ∧
      (whileTrue n (tryRequest r conn)).run w = .ok ()
        (if OverLimit (requestDecoder.drain c.incoming).2 then w'.closed conn else w') := by
  have hlen := requestDecoder.length_drain_le (d := 1) requestDecoder.length_lt c.incoming
  have hnone := requestDecoder.next_drain c.incoming
  obtain ⟨w', hparsed, hturns⟩ := requestDecoder.turns_of_invariant
    (I := fun _ rest w' => Parsed conn w rest w')
    (fun _ _ _ _ _ hp hnext => hp.serveFirst (r := r) hnext) (requestDecoder.takes_drain c.incoming)
    [] ⟨.refl w, c, h, hfd, rfl⟩
  refine ⟨w', hparsed, ?_⟩
  obtain ⟨hk, d, hd, hfd', hrest⟩ := hparsed
  rw [← hrest] at hnone ⊢
  by_cases ho : OverLimit d.incoming
  · rw [if_pos ho]
    exact (hturns _ (run_tryFrame_overLimit hd hfd' ho)).run_whileTrue (by omega)
  · rw [if_neg ho]
    exact (hturns _ (run_tryRequest_none hd ho hnone)).run_whileTrue (by omega)

/-! ## `handle_read_event` -/

instance (stream : Bytes) : Decidable (MeetsOverLimit stream) :=
  decidable_of_iff' _ (meetsOverLimit_iff stream)

/-- A read event serves the requests that are complete; a header above the limit behind them closes
the connection. Either way it then looks at the outgoing buffer. -/
theorem run_handleReadEvent_bytes (h : w.connections conn = some c) (hfd : c.fd = conn) {b : Bytes}
    (hr : r.read = .bytes b) : ∃ w', (∃ rest, Parsed conn w rest w') ∧
      (handleReadEvent r conn).run w = (afterLoop r.toResults conn).run
        (if MeetsOverLimit (c.incoming ++ b) then w'.closed conn else w') := by
  have hkept : Kept w (w.buffered conn c b) :=
    .of_update h { c with incoming := c.incoming ++ b } rfl rfl rfl rfl rfl
  obtain ⟨w', ⟨hk, hd⟩, hloop⟩ := run_whileTryRequest (r := r) (buffered_connections (w := w) b) hfd
    (Nat.lt_succ_self (c.incoming ++ b).length)
  refine ⟨w', ⟨_, hkept.trans hk, hd⟩, (run_readEvent_bytes h hfd hr hloop).trans ?_⟩
  simp only [meetsOverLimit_iff]

end

end Byor.KeyValue
