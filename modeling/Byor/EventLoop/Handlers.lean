import Byor.Optimized.Registration

/-!
# The handlers of the earlier servers

The echo server (`03_event_loop`) and the first key-value server (`04_key_value_server`) have the
same `EpollWrapper` and the same handlers but for those that read. They pass descriptors on, where
the optimized server passes a `Connection&`, so a handler looks its connection up again and throws
if it is gone.

Both run over the `World` of the optimized server; the echo server leaves its map alone.

* `Served`: what an event leaves of the descriptors. The relation composes, and each operation of a
  handler is a case of it.
* `run_tryFrame_*`, `run_readEvent_*`: what is shared of `try_request` and `handle_read_event`. When
  the parse loop has closed the connection, a read event goes on with what the removed `Connection`
  reads as (`run_afterLoop_none`).
* `run_handleWriteEvent`, `run_handleCloseEvent`: the other handlers.
-/

namespace Byor.EventLoop

open Wire Optimized

/-- How a handler can leave the ground the source stands on. -/
inductive Fault
  /-- `std::out_of_range("Connection not found")` -/
  | outOfRange
  /-- `vector::insert` of a range that ends before it begins. -/
  | invalidRange
  deriving DecidableEq, Repr

/-- A program over the world; at a fault it stops with the world as it stands. -/
abbrev Handler := EStateM Fault World

/-- What the system calls made while serving one event return, and the memory it reads. -/
structure Results extends SysResults where
  /-- The `write` that `handle_read_event` leads to; `write` is the one of the `EPOLLOUT` branch. -/
  writeNow : WriteResult
  /-- What the fields of a `Connection` read as after it was removed. -/
  stale : Connection

/-! ## `EpollWrapper` -/

/-- An operation of `EpollWrapper` or of the kernel. None of them fails. -/
def operation (x : Optimized.Handler Unit) : Handler Unit := modify fun w => worldOf (x.run w)

/-- `get_connection` -/
def getConnection (fd : Fd) : Handler Connection := do
  match (← get).connections fd with
  | some c => pure c
  | none => throw .outOfRange

/-- Read through a `Connection&`, which may have been removed. -/
def deref (stale : Connection) (conn : Fd) : Handler Connection := do
  return ((← get).connections conn).getD stale

/-- Write through a `Connection&`. A removed one is not in the table. -/
def assign (conn : Fd) (c : Connection) : Handler Unit :=
  modify fun w => if (w.connections conn).isSome then w.setConn conn c else w

/-! ## Handlers -/

/-- `handle_close_event` -/
def handleCloseEvent (clientFd : Fd) : Handler Unit := do
  operation (removeConn clientFd)
  operation (syscall fun k => k.close clientFd)

/-- `handle_write_event`. The kernel takes no more bytes than it is given. -/
def handleWriteEvent (r : WriteResult) (clientFd : Fd) : Handler Unit := do
  let c ← getConnection clientFd
  if c.outgoing.isEmpty then
    operation (modifyConn clientFd EPOLLIN)
    return
  match r with
  | .error errno =>
    if errno = .EAGAIN || errno = .EWOULDBLOCK then return
    handleCloseEvent clientFd
  | .wrote n =>
    let bytesWritten := min n c.outgoing.length
    operation (syscall fun k => k.write clientFd (c.outgoing.take bytesWritten))
    let c' := { c with outgoing := c.outgoing.drop bytesWritten }
    assign clientFd c'
    if c'.outgoing.isEmpty then operation (modifyConn clientFd EPOLLIN)
    else operation (modifyConn clientFd EPOLLOUT)

/-- `handle_new_connections` -/
def handleNewConnections (r : SysResults) : Handler Unit :=
  operation (Optimized.handleNewConnections r)

/-- What `try_request` of both servers does up to a complete frame; `serve` is given the connection
and `data_len`. The request pointer points into the buffer, so it is never null. -/
def tryFrame (serve : Connection → ℕ → Handler Bool) (stale : Connection) (conn : Fd) :
    Handler Bool := do
  let c ← deref stale conn
  if c.incoming.length < lenFieldSize then return false
  let len := leVal (c.incoming.take lenFieldSize)
  if maxMsgFieldSize < len then
    handleCloseEvent c.fd
    return false
  -- `LEN_FIELD_SIZE + data_len` is a sum of 32-bit words
  if c.incoming.length < (lenFieldSize + len) % 2 ^ 32 then return false
  if c.incoming.length - lenFieldSize < len then return false
  serve c len

/-- What `handle_read_event` of both servers does once the parse loop is done. -/
def afterLoop (r : Results) (clientFd : Fd) : Handler Unit := do
  let c ← deref r.stale clientFd
  if !c.outgoing.isEmpty then
    operation (modifyConn clientFd EPOLLOUT)
    handleWriteEvent r.writeNow clientFd

/-- `handle_read_event` of both servers, with their `try_request` and with what they do after an
error of `read` other than `EAGAIN`. Each turn of the loop takes bytes off the buffer, so their
number bounds the turns. -/
def readEvent (tryRequest : Fd → Handler Bool) (onError : Handler Unit) (r : Results)
    (clientFd : Fd) : Handler Unit := do
  let c ← getConnection clientFd
  operation (syscall fun k => k.read clientFd r.read)
  match r.read with
  | .eof => handleCloseEvent clientFd
  | .error errno =>
    if errno = .EAGAIN || errno = .EWOULDBLOCK then return
    onError
  | .bytes b =>
    assign clientFd { c with incoming := c.incoming ++ b }
    whileTrue ((c.incoming ++ b).length + 1) (tryRequest clientFd)
    afterLoop r clientFd

section

variable {w w' w'' : World} {conn fd : Fd} {c : Connection}

theorem run_operation (x : Optimized.Handler Unit) :
    (operation x).run w = .ok () (worldOf (x.run w)) := rfl

theorem run_getConnection (h : w.connections fd = some c) :
    (getConnection fd).run w = .ok c w := by
  simp only [getConnection, EStateM.run_bind, EStateM.run_get, h, EStateM.run_pure]

theorem run_getConnection_none (h : w.connections fd = none) :
    (getConnection fd).run w = .error .outOfRange w := by
  simp only [getConnection, EStateM.run_bind, EStateM.run_get, h]
  rfl

theorem run_deref (h : w.connections conn = some c) (stale : Connection) :
    (deref stale conn).run w = .ok c w := by
  simp only [deref, EStateM.run_bind, EStateM.run_get, h, Option.getD_some, EStateM.run_pure]

theorem run_deref_none (h : w.connections conn = none) (stale : Connection) :
    (deref stale conn).run w = .ok stale w := by
  simp only [deref, EStateM.run_bind, EStateM.run_get, h, Option.getD_none, EStateM.run_pure]

theorem run_assign (h : (w.connections conn).isSome) (c' : Connection) :
    (assign conn c').run w = .ok () (w.setConn conn c') := by
  simp only [assign, EStateM.run_modify, h, if_true]

theorem run_handleCloseEvent (h : w.connections fd = some c) :
    (handleCloseEvent fd).run w = .ok () (w.closed fd) := by
  simp only [handleCloseEvent, EStateM.run_bind, run_operation, run_removeConn h,
    Optimized.run_syscall]
  rfl

/-- Closing a descriptor that is not in the table only calls `close`. -/
theorem run_handleCloseEvent_none (h : w.connections fd = none) :
    (handleCloseEvent fd).run w = .ok () { w with kernel := w.kernel.close fd } := by
  have hremove : worldOf ((removeConn fd).run w) = w := by simp [removeConn, h, worldOf]
  simp only [handleCloseEvent, EStateM.run_bind, run_operation, hremove, Optimized.run_syscall]
  rfl

theorem run_handleNewConnections (r : SysResults) :
    (handleNewConnections r).run w = .ok () (w.newEffect r) := by
  rw [handleNewConnections, run_operation, Optimized.run_handleNewConnections]
  rfl

/-- What follows a successful write: the interest the outgoing buffer asks for. -/
def afterWrite (w : World) (conn : Fd) (c : Connection) : World := w.modified conn (interestFor c)

/-- The world after `handle_write_event`. -/
def writeEffect (w : World) (conn : Fd) (c : Connection) (r : WriteResult) : World :=
  if c.outgoing = [] then w.modified conn EPOLLIN
  else
    match r with
    | .error errno => if errno.isAgain then w else w.closed conn
    | .wrote n => afterWrite (w.wrote conn c n) conn (c.wrote n)

theorem run_handleWriteEvent (h : w.connections conn = some c) (hfd : c.fd = conn)
    (r : WriteResult) : (handleWriteEvent r conn).run w = .ok () (writeEffect w conn c r) := by
  subst hfd
  unfold writeEffect
  by_cases hout : c.outgoing = []
  · simp only [handleWriteEvent, EStateM.run_bind, run_getConnection h, hout, List.isEmpty_nil,
      if_true, run_operation, run_modifyConn, EStateM.run_pure]
    rfl
  have hne : ¬ c.outgoing.isEmpty = true := fun he => hout (List.isEmpty_iff.mp he)
  rw [if_neg hout]
  cases r with
  | error errno =>
    simp only [handleWriteEvent, EStateM.run_bind, run_getConnection h, if_neg hne]
    cases errno with
    | EAGAIN => rfl
    | EWOULDBLOCK => rfl
    | other => exact run_handleCloseEvent h
  | wrote n =>
    have hassign : (assign c.fd (c.wrote n)).run
        { w with kernel := w.kernel.write c.fd (c.outgoing.take (min n c.outgoing.length)) } =
          .ok () (w.wrote c.fd c n) := run_assign (by rw [h]; rfl) _
    rw [Connection.wrote] at hassign
    simp only [handleWriteEvent, EStateM.run_bind, run_getConnection h, if_neg hne, run_operation,
      Optimized.run_syscall, worldOf, hassign, afterWrite]
    by_cases hd : c.outgoing.drop (min n c.outgoing.length) = []
    · rw [interestFor_of_empty (c := c.wrote n) hd, if_pos (List.isEmpty_iff.mpr hd)]
      rfl
    · rw [interestFor_of_nonempty (c := c.wrote n) hd, if_neg (mt List.isEmpty_iff.mp hd)]
      rfl

theorem run_handleWriteEvent_none (h : w.connections conn = none) (r : WriteResult) :
    (handleWriteEvent r conn).run w = .error .outOfRange w := by
  simp only [handleWriteEvent, EStateM.run_bind, run_getConnection_none h]

/-! ## `try_request` and `handle_read_event` -/

section

variable {serve : Connection → ℕ → Handler Bool} {stale : Connection}

theorem run_tryFrame_overLimit (h : w.connections conn = some c) (hfd : c.fd = conn)
    (ho : OverLimit c.incoming) :
    (tryFrame serve stale conn).run w = .ok false (w.closed conn) := by
  obtain ⟨h4, hmax⟩ := ho
  rw [dataLen] at hmax
  simp only [tryFrame, EStateM.run_bind, run_deref h, if_neg (Nat.not_lt.mpr h4), if_pos hmax, hfd,
    run_handleCloseEvent h, EStateM.run_pure]

/-- A buffer that does not start with a complete frame within the limit is left alone. -/
theorem run_tryFrame_incomplete (h : w.connections conn = some c) (ho : ¬ OverLimit c.incoming)
    (hs : ¬ StartsComplete c.incoming) : (tryFrame serve stale conn).run w = .ok false w := by
  by_cases h4 : c.incoming.length < lenFieldSize
  · simp only [tryFrame, EStateM.run_bind, run_deref h, if_pos h4, EStateM.run_pure]
  have hmax : ¬ maxMsgFieldSize < dataLen c.incoming := fun hmax => ho ⟨Nat.le_of_not_lt h4, hmax⟩
  have hlen : c.incoming.length < lenFieldSize + dataLen c.incoming := by
    by_contra hge
    exact hs ⟨Nat.le_of_not_lt h4, Nat.le_of_not_lt hmax, Nat.le_of_not_lt hge⟩
  rw [← add_mod_of_le_maxMsgFieldSize (Nat.le_of_not_lt hmax)] at hlen
  rw [dataLen] at hmax hlen
  simp only [tryFrame, EStateM.run_bind, run_deref h, if_neg h4, if_neg hmax, if_pos hlen,
    EStateM.run_pure]

/-- A complete frame within the limit is served. The second check of the length repeats the
first. -/
theorem run_tryFrame_complete (h : w.connections conn = some c) (hs : StartsComplete c.incoming) :
    (tryFrame serve stale conn).run w = (serve c (dataLen c.incoming)).run w := by
  obtain ⟨h4, hmax, hlen⟩ := hs
  have hagain : ¬ c.incoming.length - lenFieldSize < dataLen c.incoming := by omega
  rw [← add_mod_of_le_maxMsgFieldSize hmax] at hlen
  have hword : leVal (c.incoming.take lenFieldSize) = dataLen c.incoming := rfl
  simp only [tryFrame, EStateM.run_bind, run_deref h, if_neg (Nat.not_lt.mpr h4), hword,
    if_neg (Nat.not_lt.mpr hmax), if_neg (Nat.not_lt.mpr hlen), if_neg hagain]

end

section

variable {tryRequest : Fd → Handler Bool} {onError : Handler Unit} {r : Results}

theorem run_readEvent_none (h : w.connections conn = none) :
    (readEvent tryRequest onError r conn).run w = .error .outOfRange w := by
  simp only [readEvent, EStateM.run_bind, run_getConnection_none h]

theorem run_readEvent_eof (h : w.connections conn = some c) (hr : r.read = .eof) :
    (readEvent tryRequest onError r conn).run w = .ok () (w.closed conn) := by
  simp only [readEvent, EStateM.run_bind, run_getConnection h, hr, run_operation,
    Optimized.run_syscall, worldOf]
  exact run_handleCloseEvent h

theorem run_readEvent_again (h : w.connections conn = some c) {errno : Errno}
    (hr : r.read = .error errno) (he : errno.isAgain = true) :
    (readEvent tryRequest onError r conn).run w = .ok () w := by
  simp only [readEvent, EStateM.run_bind, run_getConnection h, hr]
  cases errno with
  | EAGAIN => rfl
  | EWOULDBLOCK => rfl
  | other => cases he

theorem run_readEvent_error (h : w.connections conn = some c) {errno : Errno}
    (hr : r.read = .error errno) (he : errno.isAgain = false) :
    (readEvent tryRequest onError r conn).run w = onError.run w := by
  simp only [readEvent, EStateM.run_bind, run_getConnection h, hr]
  cases errno with
  | EAGAIN => cases he
  | EWOULDBLOCK => cases he
  | other => rfl

/-- A read event puts the bytes into the buffer and runs the parse loop. -/
theorem run_readEvent_bytes (h : w.connections conn = some c) (hfd : c.fd = conn) {b : Bytes}
    (hr : r.read = .bytes b)
    (hloop : (whileTrue ((c.incoming ++ b).length + 1) (tryRequest conn)).run
      (w.buffered conn c b) = .ok () w') :
    (readEvent tryRequest onError r conn).run w = (afterLoop r conn).run w' := by
  subst hfd
  have hassign : (assign c.fd { c with incoming := c.incoming ++ b }).run
      { w with kernel := w.kernel.read c.fd (.bytes b) } = .ok () (w.buffered c.fd c b) :=
    run_assign (by rw [h]; rfl) _
  simp only [readEvent, EStateM.run_bind, run_getConnection h, hr, run_operation,
    Optimized.run_syscall, worldOf, hassign, hloop]

theorem run_afterLoop (h : w.connections conn = some c) (hfd : c.fd = conn) :
    (afterLoop r conn).run w = .ok () (if c.outgoing = [] then w
      else writeEffect (w.modified conn EPOLLOUT) conn c r.writeNow) := by
  have hwrite : (handleWriteEvent r.writeNow conn).run (w.modified conn EPOLLOUT) =
      .ok () (writeEffect (w.modified conn EPOLLOUT) conn c r.writeNow) :=
    run_handleWriteEvent (w := w.modified conn EPOLLOUT) h hfd r.writeNow
  simp only [afterLoop, EStateM.run_bind, run_deref h, Bool.not_eq_true',
    List.isEmpty_eq_false_iff, ite_not]
  split
  · rfl
  · exact hwrite

/-- After the connection was removed, the branch taken depends on what is read through the
reference. -/
theorem run_afterLoop_none (h : w.connections conn = none) : (afterLoop r conn).run w =
    if r.stale.outgoing = [] then .ok () w else .error .outOfRange (w.modified conn EPOLLOUT) := by
  have hwrite : (handleWriteEvent r.writeNow conn).run (w.modified conn EPOLLOUT) =
      .error .outOfRange (w.modified conn EPOLLOUT) :=
    run_handleWriteEvent_none (w := w.modified conn EPOLLOUT) h r.writeNow
  simp only [afterLoop, EStateM.run_bind, run_deref_none h, Bool.not_eq_true',
    List.isEmpty_eq_false_iff, ite_not]
  split
  · rfl
  · exact hwrite

end

/-! ## Descriptors -/

/-- **What serving an event of `conn` leaves of the descriptors**: they agree as before, and the
other ones keep their entries. -/
structure Served (conn : Fd) (w w' : World) : Prop where
  registered : Registered w'
  serverFd : w'.serverFd = w.serverFd
  others : ∀ fd, fd ≠ conn → (w.connections fd).isSome → (w'.connections fd).isSome

theorem Served.trans (h : Served conn w w') (h' : Served conn w' w'') : Served conn w w'' :=
  ⟨h'.registered, h'.serverFd.trans h.serverFd,
    fun fd hne hs => h'.others fd hne (h.others fd hne hs)⟩

theorem served_of_kept (h : Registered w) (hk : Kept w w') : Served conn w w' :=
  ⟨h.of_kept hk, hk.serverFd, fun fd _ hs => (hk.isSome fd).trans hs⟩

theorem served_refl (h : Registered w) : Served conn w w := served_of_kept h (.refl w)

theorem served_closed (h : Registered w) (hne : conn ≠ w.serverFd) :
    Served conn w (w.closed conn) := by
  refine ⟨h.closed hne, rfl, fun fd hfd hs => ?_⟩
  rwa [closed_connections_ne hfd]

/-- Closing a descriptor that is not open changes nothing about descriptors. -/
theorem kept_close (h : Registered w) (hnone : w.connections conn = none) :
    Kept w { w with kernel := w.kernel.close conn } := by
  have hopen : w.kernel.isOpen conn = false := by
    rw [← h.isOpen, hnone]
    rfl
  have hclose : w.kernel.close conn = { w.kernel with badCloses := w.kernel.badCloses + 1 } := by
    rw [Kernel.close, hopen]
    rfl
  rw [hclose]
  exact ⟨rfl, fun _ => rfl, rfl, fun _ => rfl⟩

theorem served_writeEffect (h : Registered w) (hc : IsClient w conn c) (r : WriteResult) :
    Served conn w (writeEffect w conn c r) := by
  unfold writeEffect
  split
  · exact served_of_kept h (kept_modified w conn EPOLLIN)
  cases r with
  | error errno =>
    simp only
    split
    · exact served_refl h
    · exact served_closed h hc.1
  | wrote n => exact served_of_kept h ((kept_wrote hc.2 n).trans (kept_modified _ conn _))

theorem served_newEffect (h : Registered w) {r : SysResults} (ha : r.Allowed w) :
    Served conn w (w.newEffect r) := by
  refine newEffect_cases ha h.eq_none_of_closed (served_refl h) (fun ho => ?_) fun _ => ?_
  · exact ⟨h.refused ho, rfl, fun _ _ hs => hs⟩
  · refine ⟨h.accepted r.accept, rfl, fun fd _ hs => ?_⟩
    by_cases he : fd = r.accept
    · rw [he, accepted_connections]
      rfl
    · rwa [accepted_connections_ne he]

end

end Byor.EventLoop
