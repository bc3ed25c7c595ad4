import Byor.Optimized.World

/-!
# The event loop

The handlers of the optimized server and its loop (`include/server.tpp`).

`start` alternates between `wait`, which fills a batch of events, and serving the events of the
batch one after another. `Reachable` is the states between two such actions, with the events of the
batch that are still to be served. Which batches `epoll_wait` returns and which results system calls
have is up to the parameters; the kernel's own promises are `SysResults.Allowed`. What every
event keeps holds in all of them (`Reachable.invariant`).

An event whose handlers use a removed `Connection` ends at that use (`afterEvent`), and one whose
descriptor is not in the table has no effect: there the exception leaves `start`.
-/

namespace Byor.Optimized

open Wire

/-- `set_nonblocking`, by the results of its two calls of `fcntl`. -/
def setNonblocking (getfl setfl : ℤ) : Bool :=
  if getfl = -1 then false
  else if setfl = -1 then false
  else true

/-- `handle_close_event` -/
def handleCloseEvent (conn : Fd) : Handler Unit := do
  let fd := (← deref conn).fd
  removeConn fd
  syscall fun k => k.close fd

/-- `try_request`. The request pointer points into the buffer, so it is never null. -/
def tryRequest (conn : Fd) : Handler Bool := do
  let c ← deref conn
  if c.incoming.length < lenFieldSize then return false
  let len := leVal (c.incoming.take lenFieldSize)
  if maxMsgFieldSize < len then
    handleCloseEvent conn
    return false
  -- `LEN_FIELD_SIZE + data_len` is a sum of 32-bit words
  if c.incoming.length < (lenFieldSize + len) % 2 ^ 32 then return false
  let request := (c.incoming.drop lenFieldSize).take len
  let (ok, cmd) := parseReq request []
  if !ok then return false
  let w ← get
  let (gData, resp) := doRequest w.gData cmd .init
  let call : Execution := ⟨w.kernel.socketOf c.fd, ⟨request, cmd⟩, resp⟩
  set { w with gData := gData, executed := w.executed ++ [call] }
  assign conn { c with
    incoming := c.incoming.drop (lenFieldSize + len)
    outgoing := makeResponse resp c.outgoing }
  return true

/-- `while (try_request(conn)) {}`, at most `n` times round. -/
def whileTryRequest : ℕ → Fd → Handler Unit
  | 0, _ => pure ()
  | n + 1, conn => do
    if ← tryRequest conn then whileTryRequest n conn

/-- `handle_read_event`. Each turn of the loop takes bytes off the buffer, so their number bounds
the turns; `run_whileTryRequest` has the loop end by itself. -/
def handleReadEvent (r : ReadResult) (conn : Fd) : Handler Unit := do
  let c ← deref conn
  syscall fun k => k.read c.fd r
  match r with
  | .eof => handleCloseEvent conn
  | .error _ => return
  | .bytes b =>
    assign conn { c with incoming := c.incoming ++ b }
    whileTryRequest ((c.incoming ++ b).length + 1) conn
    let c ← deref conn
    if !c.outgoing.isEmpty then modifyConn c.fd EPOLLOUT

/-- `handle_write_event`. The kernel takes no more bytes than it is given. -/
def handleWriteEvent (r : WriteResult) (conn : Fd) : Handler Unit := do
  let c ← deref conn
  if c.outgoing.isEmpty then
    modifyConn c.fd EPOLLIN
    return
  match r with
  | .error errno =>
    if errno = .EAGAIN || errno = .EWOULDBLOCK then return
    handleCloseEvent conn
  | .wrote n =>
    let bytesWritten := min n c.outgoing.length
    syscall fun k => k.write c.fd (c.outgoing.take bytesWritten)
    let c' := { c with outgoing := c.outgoing.drop bytesWritten }
    assign conn c'
    if c'.outgoing.isEmpty then modifyConn c'.fd EPOLLIN

/-- `handle_new_connections` -/
def handleNewConnections (r : SysResults) : Handler Unit := do
  let clientFd := r.accept
  if clientFd = -1 then return
  syscall fun k => k.accept clientFd
  if !setNonblocking r.getfl r.setfl then
    syscall fun k => k.close clientFd
    return
  addConn clientFd

/-- The body of the loop over the events in `start`. -/
def dispatch (event : Event) (r : SysResults) : Handler Unit := do
  if event.fd = (← get).serverFd then
    handleNewConnections r
  else
    let conn ← getConnection event.fd
    if event.events.epollin then handleReadEvent r.read conn
    if event.events.epollout then handleWriteEvent r.write conn
    if event.events.epollerr || event.events.epollhup then handleCloseEvent conn

/-! ## Runs of the loop -/

/-- The world once `setup_server` is done. -/
def World.setup (serverFd : Fd) : World where
  serverFd := serverFd
  gData := Store.empty
  connections := fun _ => none
  kernel :=
    { isOpen := fun fd => fd = serverFd
      socketOf := fun _ => 0
      accepted := 0
      received := fun _ => []
      written := fun _ => []
      interest := fun _ => none
      badCloses := 0 }
  executed := []

/-- The world the loop starts in, after `epoll_.add_conn(server_fd_)`. -/
def World.init (serverFd : Fd) : World :=
  worldOf ((addConn serverFd).run (World.setup serverFd))

/-- The world after the handlers of an event. -/
def afterEvent (event : Event) (r : SysResults) (w : World) : World :=
  worldOf ((dispatch event r).run w)

/-- The handlers of the event use a `Connection` whose entry they have erased. -/
def UsesRemoved (event : Event) (r : SysResults) (w : World) : Prop :=
  ∃ w', (dispatch event r).run w = .error .removedConnection w'

/-- What the kernel promises of its results: `accept` hands out descriptors that are not open, and
`read` puts between one byte and the size of the buffer into it. -/
structure SysResults.Allowed (r : SysResults) (w : World) : Prop where
  accept : r.accept ≠ -1 → w.kernel.isOpen r.accept = false
  read : ∀ b, r.read = .bytes b → b ≠ [] ∧ b.length ≤ readBufferSize

/-- The states of the loop: the world and the events of the batch still to be served. `Wait` holds
of the batches `epoll_wait` may return, `Serve` of the results serving an event may meet. -/
inductive Reachable (Wait : World → List Event → Prop) (Serve : World → Event → SysResults → Prop)
    (serverFd : Fd) : World → List Event → Prop
  | start : Reachable Wait Serve serverFd (World.init serverFd) []
  | wait {w batch} (hr : Reachable Wait Serve serverFd w []) (hb : Wait w batch) :
      Reachable Wait Serve serverFd w batch
  | serve {w event events r} (hr : Reachable Wait Serve serverFd w (event :: events))
      (ha : r.Allowed w) (hs : Serve w event r) :
      Reachable Wait Serve serverFd (afterEvent event r w) events

/-- What `epoll_wait` returns: each descriptor once, each registered, and beyond the registered
interest only `EPOLLERR` and `EPOLLHUP`. -/
structure EpollReports (w : World) (batch : List Event) : Prop where
  nodup : (batch.map Event.fd).Nodup
  registered : ∀ event ∈ batch, ∃ m, w.kernel.interest event.fd = some m ∧
    (event.events.epollin → m.epollin) ∧ (event.events.epollout → m.epollout)

/-- No constraint on the batches. -/
def anyBatch (_ : World) (_ : List Event) : Prop := True

/-- No constraint on the results. -/
def anyResults (_ : World) (_ : Event) (_ : SysResults) : Prop := True

section Runs

variable {Wait : World → List Event → Prop} {Serve : World → Event → SysResults → Prop}
  {serverFd : Fd} {w : World} {events : List Event}

/-- **The rule for runs**: what holds before the first event and is kept by every event holds in
every state of the loop. -/
theorem Reachable.invariant {P : World → Prop} (h : Reachable Wait Serve serverFd w events)
    (hinit : P (World.init serverFd))
    (hstep : ∀ w event r, P w → r.Allowed w → P (afterEvent event r w)) : P w := by
  induction h with
  | start => exact hinit
  | wait _ _ ih => exact ih
  | serve _ ha _ ih => exact hstep _ _ _ ih ha

/-- Waiting for one event and serving it. -/
theorem Reachable.single (h : Reachable Wait Serve serverFd w []) {event : Event}
    {r : SysResults} (hb : Wait w [event]) (ha : r.Allowed w) (hs : Serve w event r) :
    Reachable Wait Serve serverFd (afterEvent event r w) [] := .serve (.wait h hb) ha hs

end Runs

/-- Results of which none brings anything: every call asks to try again. -/
def SysResults.again : SysResults := ⟨-1, 0, 0, .error .EAGAIN, .error .EAGAIN⟩

theorem SysResults.Allowed.of_accept {w : World} {fd : Fd} (h : w.kernel.isOpen fd = false) :
    { SysResults.again with accept := fd }.Allowed w :=
  ⟨fun _ => h, fun _ hb => ReadResult.noConfusion hb⟩

theorem SysResults.Allowed.of_read (w : World) {b : Bytes} (hne : b ≠ [])
    (hlen : b.length ≤ readBufferSize) : { SysResults.again with read := .bytes b }.Allowed w := by
  refine ⟨fun h => absurd rfl h, fun b' hb => ?_⟩
  obtain rfl := ReadResult.bytes.inj hb
  exact ⟨hne, hlen⟩

theorem SysResults.Allowed.of_write (w : World) (r : WriteResult) :
    { SysResults.again with write := r }.Allowed w :=
  ⟨fun h => absurd rfl h, fun _ hb => ReadResult.noConfusion hb⟩

end Byor.Optimized
