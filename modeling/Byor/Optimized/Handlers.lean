import Byor.Foundations.Loop
import Byor.Optimized.Server

/-!
# What the handlers do

One lemma for each operation of the server, giving the world it leaves behind; later modules use
these and never unfold a handler.

* `run_tryRequest_*`: `try_request` serves the first request of the buffer, closes the connection on
  a header above the limit, and does nothing otherwise.
* `run_whileTryRequest`: the loop serves the requests that `requestDecoder` drains from the buffer.
* `run_handleReadEvent_*`, `run_handleWriteEvent_*`: a read or write event, by the result of the
  system call.

The entry of a connection is assumed to hold its own key as `fd`, which `TableOk.entry` states and
`tableOk_of_reachable` shows to be the case in every run.
-/

namespace Byor.Optimized

open Wire

variable {w : World} {conn : Fd} {c : Connection}

/-! ## The world after an operation -/

/-- The responses to requests served in order. -/
def responses (gData : Store) (fs : List Request) : List Response :=
  (runCommands gData (fs.map Record.value)).2

/-- The bytes of a list of responses. -/
def responseBytes (resps : List Response) : Bytes := (resps.map Response.frame).flatten

/-- The calls of `do_request` for requests from one socket. -/
def calls (socket : ℕ) (gData : Store) (fs : List Request) : List Execution :=
  List.zipWith (fun f resp => ⟨socket, f, resp⟩) fs (responses gData fs)

/-- The connection after its requests `fs` were served and `rest` is left in its buffer. -/
def Connection.served (c : Connection) (gData : Store) (fs : List Request) (rest : Bytes) :
    Connection :=
  { c with incoming := rest, outgoing := c.outgoing ++ responseBytes (responses gData fs) }

/-- The world after the requests `fs` of the connection `c` were served. -/
def World.served (w : World) (conn : Fd) (c : Connection) (fs : List Request) (rest : Bytes) :
    World :=
  { w.setConn conn (c.served w.gData fs rest) with
    gData := (runCommands w.gData (fs.map Record.value)).1
    executed := w.executed ++ calls (w.kernel.socketOf c.fd) w.gData fs }

/-- The world after a connection was removed and closed. -/
def World.closed (w : World) (fd : Fd) : World :=
  { w with
    connections := Function.update w.connections fd none
    kernel := (w.kernel.epollDel fd).close fd }

/-- The world with another interest registered for a descriptor. -/
def World.modified (w : World) (fd : Fd) (m : EventMask) : World :=
  { w with kernel := w.kernel.epollMod fd m }

/-! ## Table and system calls -/

theorem run_deref (h : w.connections conn = some c) : (deref conn).run w = .ok c w := by
  simp only [deref, EStateM.run_bind, EStateM.run_get, h, EStateM.run_pure]

theorem run_deref_none (h : w.connections conn = none) :
    (deref conn).run w = .error .removedConnection w := by
  simp only [deref, EStateM.run_bind, EStateM.run_get, h]
  rfl

theorem run_assign (h : (w.connections conn).isSome) (c' : Connection) :
    (assign conn c').run w = .ok () (w.setConn conn c') := by
  obtain ⟨c, h⟩ := Option.isSome_iff_exists.mp h
  simp only [assign, EStateM.run_bind, run_deref h, EStateM.run_modify]

theorem run_syscall (f : Kernel → Kernel) :
    (syscall f).run w = .ok () { w with kernel := f w.kernel } := rfl

theorem run_modifyConn (fd : Fd) (m : EventMask) :
    (modifyConn fd m).run w = .ok () (w.modified fd m) := rfl

@[simp] theorem setConn_connections (c' : Connection) :
    (w.setConn conn c').connections conn = some c' := Function.update_self ..

theorem setConn_connections_ne {fd : Fd} (h : fd ≠ conn) (c' : Connection) :
    (w.setConn conn c').connections fd = w.connections fd := Function.update_of_ne h ..

theorem run_removeConn {fd : Fd} (h : w.connections fd = some c) :
    (removeConn fd).run w = .ok () { w with
      connections := Function.update w.connections fd none
      kernel := w.kernel.epollDel fd } := by
  simp [removeConn, h, unmonitor, run_syscall]

/-- `handle_close_event` removes and closes the descriptor in the entry. -/
theorem run_handleCloseEvent (h : w.connections conn = some c) (hfd : c.fd = conn) :
    (handleCloseEvent conn).run w = .ok () (w.closed conn) := by
  simp only [handleCloseEvent, EStateM.run_bind, run_deref h, hfd, run_removeConn h, run_syscall]
  rfl

theorem run_handleCloseEvent_none (h : w.connections conn = none) :
    (handleCloseEvent conn).run w = .error .removedConnection w := by
  simp only [handleCloseEvent, EStateM.run_bind, run_deref_none h]

/-- `handle_close_event` erases the entry of the descriptor in the `Connection`, and leaves the map
alone. -/
theorem run_handleCloseEvent_entry (h : w.connections conn = some c) :
    ∃ w', (handleCloseEvent conn).run w = .ok () w' ∧ w'.gData = w.gData ∧
      w'.connections = Function.update w.connections c.fd none := by
  simp only [handleCloseEvent, EStateM.run_bind, run_deref h]
  cases hd : w.connections c.fd with
  | none =>
    have hremove : (removeConn c.fd).run w = .ok () w := by simp [removeConn, hd]
    rw [hremove]
    exact ⟨_, rfl, rfl, by rw [← hd, Function.update_eq_self]⟩
  | some d =>
    rw [run_removeConn hd]
    exact ⟨_, rfl, rfl, rfl⟩

@[simp] theorem closed_connections (fd : Fd) : (w.closed fd).connections fd = none :=
  Function.update_self ..

theorem closed_connections_ne {fd fd' : Fd} (h : fd' ≠ fd) :
    (w.closed fd).connections fd' = w.connections fd' := Function.update_of_ne h ..

/-! ## `try_request` -/

theorem run_tryRequest_overLimit (h : w.connections conn = some c) (hfd : c.fd = conn)
    (ho : OverLimit c.incoming) : (tryRequest conn).run w = .ok false (w.closed conn) := by
  obtain ⟨h4, hmax⟩ := ho
  rw [dataLen] at hmax
  simp only [tryRequest, EStateM.run_bind, run_deref h, if_neg (Nat.not_lt.mpr h4), if_pos hmax,
    run_handleCloseEvent h hfd, EStateM.run_pure]

/-- A buffer that does not start with a complete frame within the limit is left alone. -/
theorem run_tryRequest_incomplete (h : w.connections conn = some c) (ho : ¬ OverLimit c.incoming)
    (hs : ¬ StartsComplete c.incoming) : (tryRequest conn).run w = .ok false w := by
  by_cases h4 : c.incoming.length < lenFieldSize
  · simp only [tryRequest, EStateM.run_bind, run_deref h, if_pos h4, EStateM.run_pure]
  have hmax : ¬ maxMsgFieldSize < dataLen c.incoming := fun hmax => ho ⟨Nat.le_of_not_lt h4, hmax⟩
  have hlen : c.incoming.length < lenFieldSize + dataLen c.incoming := by
    by_contra hge
    exact hs ⟨Nat.le_of_not_lt h4, Nat.le_of_not_lt hmax, Nat.le_of_not_lt hge⟩
  rw [← add_mod_of_le_maxMsgFieldSize (Nat.le_of_not_lt hmax)] at hlen
  rw [dataLen] at hmax hlen
  simp only [tryRequest, EStateM.run_bind, run_deref h, if_neg h4, if_neg hmax, if_pos hlen,
    EStateM.run_pure]

/-- A complete frame within the limit is handed to `parse_req`. -/
theorem run_tryRequest_complete (h : w.connections conn = some c)
    (hs : StartsComplete c.incoming) :
    (tryRequest conn).run w =
      if (parseReq (headPayload c.incoming) []).1 then
        .ok true (w.served conn c
          [⟨headPayload c.incoming, (parseReq (headPayload c.incoming) []).2⟩]
          (c.incoming.drop (lenFieldSize + dataLen c.incoming)))
      else .ok false w := by
  obtain ⟨h4, hmax, hlen⟩ := hs
  rw [← add_mod_of_le_maxMsgFieldSize hmax] at hlen
  have hword : leVal (c.incoming.take lenFieldSize) = dataLen c.incoming := rfl
  have hreq : (c.incoming.drop lenFieldSize).take (dataLen c.incoming) = headPayload c.incoming :=
    rfl
  simp only [tryRequest, EStateM.run_bind, run_deref h, if_neg (Nat.not_lt.mpr h4), hword,
    if_neg (Nat.not_lt.mpr hmax), if_neg (Nat.not_lt.mpr hlen), hreq]
  cases hp : (parseReq (headPayload c.incoming) []).1 with
  | false => rfl
  | true =>
    simp only [Bool.not_true, Bool.false_eq_true, if_false, if_true, EStateM.run_bind,
      EStateM.run_get, EStateM.run_set, run_assign, h, Option.isSome_some, EStateM.run_pure,
      makeResponse_eq]
    simp [World.served, Connection.served, World.setConn, responses, responseBytes, calls,
      runCommands_cons]

/-- `try_request` serves the first request of the buffer. -/
theorem run_tryRequest_next (h : w.connections conn = some c) {f : Request} {rest : Bytes}
    (hn : requestDecoder.next c.incoming = some (f, rest)) :
    (tryRequest conn).run w = .ok true (w.served conn c [f] rest) := by
  obtain ⟨hs, hp, rfl, rfl⟩ := request_of_next hn
  rw [run_tryRequest_complete h hs, if_pos hp]

/-- Without a request to serve, and without a header above the limit, nothing changes. -/
theorem run_tryRequest_none (h : w.connections conn = some c) (ho : ¬ OverLimit c.incoming)
    (hn : requestDecoder.next c.incoming = none) : (tryRequest conn).run w = .ok false w := by
  by_cases hs : StartsComplete c.incoming
  · rw [run_tryRequest_complete h hs, if_neg (Bool.eq_false_iff.mp (refused_of_next_eq_none hs hn))]
  · exact run_tryRequest_incomplete h ho hs

/-- **The outcomes of `try_request`**: a header above the limit closes the connection, the first
request of the buffer is served, and anything else is left alone. -/
theorem run_tryRequest_cases (h : w.connections conn = some c) :
    (OverLimit c.incoming ∧
        ∃ w', (handleCloseEvent conn).run w = .ok () w' ∧ (tryRequest conn).run w = .ok false w') ∨
      (¬ OverLimit c.incoming ∧ requestDecoder.next c.incoming = none ∧
        (tryRequest conn).run w = .ok false w) ∨
      ∃ f rest, requestDecoder.next c.incoming = some (f, rest) ∧
        (tryRequest conn).run w = .ok true (w.served conn c [f] rest) := by
  by_cases ho : OverLimit c.incoming
  · obtain ⟨w', hclose, -⟩ := run_handleCloseEvent_entry h
    refine .inl ⟨ho, w', hclose, ?_⟩
    obtain ⟨h4, hmax⟩ := ho
    rw [dataLen] at hmax
    simp only [tryRequest, EStateM.run_bind, run_deref h, if_neg (Nat.not_lt.mpr h4), if_pos hmax,
      hclose, EStateM.run_pure]
  · cases hn : requestDecoder.next c.incoming with
    | none => exact .inr (.inl ⟨ho, rfl, run_tryRequest_none h ho hn⟩)
    | some p => exact .inr (.inr ⟨p.1, p.2, rfl, run_tryRequest_next h hn⟩)

/-! ## Serving several requests -/

@[simp] theorem length_responses (gData : Store) (fs : List Request) :
    (responses gData fs).length = fs.length := by
  rw [responses, length_runCommands, List.length_map]

theorem responses_append (gData : Store) (fs gs : List Request) :
    responses gData (fs ++ gs) =
      responses gData fs ++ responses (runCommands gData (fs.map Record.value)).1 gs := by
  rw [responses, List.map_append, runCommands_append]
  rfl

theorem responseBytes_append (resps resps' : List Response) :
    responseBytes (resps ++ resps') = responseBytes resps ++ responseBytes resps' := by
  rw [responseBytes, List.map_append, List.flatten_append]
  rfl

theorem calls_append (socket : ℕ) (gData : Store) (fs gs : List Request) :
    calls socket gData (fs ++ gs) =
      calls socket gData fs ++ calls socket (runCommands gData (fs.map Record.value)).1 gs := by
  rw [calls, responses_append, List.zipWith_append (length_responses gData fs).symm]
  rfl

@[simp] theorem served_connections (fs : List Request) (rest : Bytes) :
    (w.served conn c fs rest).connections conn = some (c.served w.gData fs rest) :=
  setConn_connections _

theorem served_connections_ne {fd : Fd} (h : fd ≠ conn) (fs : List Request) (rest : Bytes) :
    (w.served conn c fs rest).connections fd = w.connections fd := setConn_connections_ne h _

theorem served_nil (h : w.connections conn = some c) : w.served conn c [] c.incoming = w := by
  have hc : c.served w.gData [] c.incoming = c := by
    rw [Connection.served]
    change { c with outgoing := c.outgoing ++ [] } = c
    rw [List.append_nil]
  rw [World.served, hc, World.setConn, ← h, Function.update_eq_self]
  change { w with executed := w.executed ++ [] } = w
  rw [List.append_nil]

/-- Serving requests, then more of them, is serving them all. -/
theorem served_served (fs gs : List Request) (rest rest' : Bytes) :
    (w.served conn c fs rest).served conn (c.served w.gData fs rest) gs rest' =
      w.served conn c (fs ++ gs) rest' := by
  have hc : (c.served w.gData fs rest).served (w.served conn c fs rest).gData gs rest' =
      c.served w.gData (fs ++ gs) rest' := by
    simp only [Connection.served, World.served, responses_append, responseBytes_append,
      List.append_assoc]
  rw [World.served, hc]
  simp only [World.served, World.setConn, Function.update_idem, List.map_append, runCommands_append,
    calls_append, List.append_assoc, Connection.served]

/-- `while (try_request(conn)) {}` -/
theorem whileTryRequest_eq (n : ℕ) (conn : Fd) :
    whileTryRequest n conn = whileTrue n (tryRequest conn) := by
  induction n with
  | zero => rfl
  | succ n ih => rw [whileTryRequest, whileTrue, ih]

/-- The turns of the loop serve the requests drained from the buffer. -/
theorem turns_tryRequest (h : w.connections conn = some c) {w' : World}
    (hstop : (tryRequest conn).run (w.served conn c (requestDecoder.drain c.incoming).1
      (requestDecoder.drain c.incoming).2) = .ok false w') :
    Turns (tryRequest conn) w (requestDecoder.drain c.incoming).1.length w' := by
  have hturns := requestDecoder.turns_of_takes (fun fs rest => w.served conn c fs rest)
    (fun fs rest f rest' hn => served_served fs [f] rest rest' ▸
      run_tryRequest_next (served_connections fs rest) hn)
    (requestDecoder.takes_drain c.incoming) [] hstop
  rwa [served_nil h] at hturns

/-- **The parse loop** serves the requests drained from the buffer; on a header above the limit it
then closes the connection. It ends by itself when its turns outnumber the bytes of the buffer. -/
theorem run_whileTryRequest {n : ℕ} (h : w.connections conn = some c) (hfd : c.fd = conn)
    (hn : c.incoming.length < n) :
    (whileTryRequest n conn).run w = .ok ()
      (if OverLimit (requestDecoder.drain c.incoming).2 then
        (w.served conn c (requestDecoder.drain c.incoming).1
          (requestDecoder.drain c.incoming).2).closed conn
      else w.served conn c (requestDecoder.drain c.incoming).1
        (requestDecoder.drain c.incoming).2) := by
  have hlen := requestDecoder.length_drain_le (d := 1) requestDecoder.length_lt c.incoming
  rw [Nat.one_mul] at hlen
  have hentry : (w.served conn c (requestDecoder.drain c.incoming).1
      (requestDecoder.drain c.incoming).2).connections conn =
        some (c.served w.gData (requestDecoder.drain c.incoming).1
          (requestDecoder.drain c.incoming).2) := served_connections _ _
  rw [whileTryRequest_eq]
  by_cases ho : OverLimit (requestDecoder.drain c.incoming).2
  · have hturns := turns_tryRequest h (run_tryRequest_overLimit hentry hfd ho)
    rw [if_pos ho]
    exact hturns.run_whileTrue (by omega)
  · have hturns := turns_tryRequest h
      (run_tryRequest_none hentry ho (requestDecoder.next_drain c.incoming))
    rw [if_neg ho]
    exact hturns.run_whileTrue (by omega)

/-! ## `handle_read_event` -/

/-- The world after bytes were read into the buffer of the connection `c`. -/
def World.buffered (w : World) (conn : Fd) (c : Connection) (b : Bytes) : World :=
  { w with kernel := w.kernel.read c.fd (.bytes b) }.setConn conn
    { c with incoming := c.incoming ++ b }

@[simp] theorem buffered_connections (b : Bytes) : (w.buffered conn c b).connections conn =
    some { c with incoming := c.incoming ++ b } := setConn_connections _

/-- The world when the parse loop of a read event is done: the requests drained from the buffer are
served. -/
def World.drained (w : World) (conn : Fd) (c : Connection) (b : Bytes) : World :=
  (w.buffered conn c b).served conn { c with incoming := c.incoming ++ b }
    (requestDecoder.drain (c.incoming ++ b)).1 (requestDecoder.drain (c.incoming ++ b)).2

/-- The connection when the parse loop of a read event is done. -/
def Connection.drained (c : Connection) (gData : Store) (b : Bytes) : Connection :=
  c.served gData (requestDecoder.drain (c.incoming ++ b)).1
    (requestDecoder.drain (c.incoming ++ b)).2

@[simp] theorem drained_connections (b : Bytes) :
    (w.drained conn c b).connections conn = some (c.drained w.gData b) := served_connections _ _

theorem drained_connections_ne {fd : Fd} (h : fd ≠ conn) (b : Bytes) :
    (w.drained conn c b).connections fd = w.connections fd := by
  rw [World.drained, served_connections_ne h]
  exact setConn_connections_ne h _

theorem run_handleReadEvent_eof (h : w.connections conn = some c) (hfd : c.fd = conn) :
    (handleReadEvent .eof conn).run w = .ok () (w.closed conn) := by
  simp only [handleReadEvent, EStateM.run_bind, run_deref h, run_syscall, Kernel.read,
    run_handleCloseEvent h hfd]

theorem run_handleReadEvent_error (h : w.connections conn = some c) (errno : Errno) :
    (handleReadEvent (.error errno) conn).run w = .ok () w := by
  simp only [handleReadEvent, EStateM.run_bind, run_deref h, run_syscall, Kernel.read,
    EStateM.run_pure]

/-- What follows the parse loop: the outgoing buffer decides whether to wait for `EPOLLOUT`. -/
def World.afterRead (w : World) (conn : Fd) (c : Connection) : World :=
  if c.outgoing = [] then w else w.modified conn EPOLLOUT

theorem run_whileTryRequest_buffered (hfd : c.fd = conn) (b : Bytes) :
    (whileTryRequest ((c.incoming ++ b).length + 1) conn).run (w.buffered conn c b) = .ok ()
      (if OverLimit (requestDecoder.drain (c.incoming ++ b)).2 then
        (w.drained conn c b).closed conn
      else w.drained conn c b) :=
  run_whileTryRequest (buffered_connections b) hfd (Nat.lt_succ_self _)

theorem run_assign_buffered (h : w.connections conn = some c) (b : Bytes) :
    (assign conn { c with incoming := c.incoming ++ b }).run
        { w with kernel := w.kernel.read c.fd (.bytes b) } = .ok () (w.buffered conn c b) :=
  run_assign (by rw [h]; rfl) _

/-- A read event serves the requests in the buffer, and waits for `EPOLLOUT` if there is something
to send. -/
theorem run_handleReadEvent_bytes (h : w.connections conn = some c) (hfd : c.fd = conn) (b : Bytes)
    (ho : ¬ OverLimit (requestDecoder.drain (c.incoming ++ b)).2) :
    (handleReadEvent (.bytes b) conn).run w = .ok ()
      ((w.drained conn c b).afterRead conn (c.drained w.gData b)) := by
  have hloop := run_whileTryRequest_buffered (w := w) hfd b
  rw [if_neg ho] at hloop
  simp only [handleReadEvent, EStateM.run_bind, run_deref h, run_syscall, run_assign_buffered h,
    hloop, run_deref (drained_connections b), World.afterRead]
  have hfd' : (c.drained w.gData b).fd = conn := hfd
  rcases hout : (c.drained w.gData b).outgoing with _ | ⟨x, xs⟩
  · rfl
  · simp [run_modifyConn, hfd']

/-- A read event that meets a header above the limit closes the connection, and then looks at its
outgoing buffer. -/
theorem run_handleReadEvent_overLimit (h : w.connections conn = some c) (hfd : c.fd = conn)
    (b : Bytes) (ho : OverLimit (requestDecoder.drain (c.incoming ++ b)).2) :
    (handleReadEvent (.bytes b) conn).run w =
      .error .removedConnection ((w.drained conn c b).closed conn) := by
  have hloop := run_whileTryRequest_buffered (w := w) hfd b
  rw [if_pos ho] at hloop
  simp only [handleReadEvent, EStateM.run_bind, run_deref h, run_syscall, run_assign_buffered h,
    hloop, run_deref_none (closed_connections conn)]

/-! ## `handle_write_event` -/

/-- The connection after `n` bytes of its outgoing buffer were written. -/
def Connection.wrote (c : Connection) (n : ℕ) : Connection :=
  { c with outgoing := c.outgoing.drop (min n c.outgoing.length) }

/-- The world after `n` bytes of the outgoing buffer of the connection `c` were written. -/
def World.wrote (w : World) (conn : Fd) (c : Connection) (n : ℕ) : World :=
  { w with kernel := w.kernel.write c.fd (c.outgoing.take (min n c.outgoing.length)) }.setConn conn
    (c.wrote n)

/-- What follows a successful write: an empty buffer waits for `EPOLLIN` again. -/
def World.afterWrite (w : World) (conn : Fd) (c : Connection) : World :=
  if c.outgoing = [] then w.modified conn EPOLLIN else w

theorem run_handleWriteEvent_empty (h : w.connections conn = some c) (hfd : c.fd = conn)
    (hout : c.outgoing = []) (r : WriteResult) :
    (handleWriteEvent r conn).run w = .ok () (w.modified conn EPOLLIN) := by
  simp only [handleWriteEvent, EStateM.run_bind, run_deref h, hout, List.isEmpty_nil, if_true,
    run_modifyConn, hfd, EStateM.run_pure]

theorem run_handleWriteEvent_wrote (h : w.connections conn = some c) (hfd : c.fd = conn)
    (hout : c.outgoing ≠ []) (n : ℕ) :
    (handleWriteEvent (.wrote n) conn).run w =
      .ok () ((w.wrote conn c n).afterWrite conn (c.wrote n)) := by
  subst hfd
  have hne : ¬ c.outgoing.isEmpty = true := fun he => hout (List.isEmpty_iff.mp he)
  have hwrote : (c.wrote n).outgoing = c.outgoing.drop (min n c.outgoing.length) := rfl
  have hassign : (assign c.fd { c with outgoing := c.outgoing.drop (min n c.outgoing.length) }).run
      { w with kernel := w.kernel.write c.fd (c.outgoing.take (min n c.outgoing.length)) } =
        .ok () (w.wrote c.fd c n) := run_assign (by rw [h]; rfl) _
  simp only [handleWriteEvent, EStateM.run_bind, run_deref h, if_neg hne, run_syscall, hassign,
    World.afterWrite, hwrote]
  rcases c.outgoing.drop (min n c.outgoing.length) with _ | ⟨x, xs⟩ <;> rfl

/-- `EAGAIN` and `EWOULDBLOCK` -/
def Errno.isAgain : Errno → Bool
  | .EAGAIN => true
  | .EWOULDBLOCK => true
  | .other => false

theorem run_handleWriteEvent_again (h : w.connections conn = some c) (hout : c.outgoing ≠ [])
    {errno : Errno} (he : errno.isAgain = true) :
    (handleWriteEvent (.error errno) conn).run w = .ok () w := by
  have hne : ¬ c.outgoing.isEmpty = true := fun he => hout (List.isEmpty_iff.mp he)
  simp only [handleWriteEvent, EStateM.run_bind, run_deref h, if_neg hne]
  cases errno with
  | EAGAIN => rfl
  | EWOULDBLOCK => rfl
  | other => cases he

theorem run_handleWriteEvent_error (h : w.connections conn = some c) (hfd : c.fd = conn)
    (hout : c.outgoing ≠ []) {errno : Errno} (he : errno.isAgain = false) :
    (handleWriteEvent (.error errno) conn).run w = .ok () (w.closed conn) := by
  have hne : ¬ c.outgoing.isEmpty = true := fun he => hout (List.isEmpty_iff.mp he)
  simp only [handleWriteEvent, EStateM.run_bind, run_deref h, if_neg hne]
  cases errno with
  | EAGAIN => cases he
  | EWOULDBLOCK => cases he
  | other => exact run_handleCloseEvent h hfd

/-- A write event on a connection that was removed. -/
theorem run_handleWriteEvent_none (h : w.connections conn = none) (r : WriteResult) :
    (handleWriteEvent r conn).run w = .error .removedConnection w := by
  simp only [handleWriteEvent, EStateM.run_bind, run_deref_none h]

/-! ## What an event leaves behind -/

/-- The world after `handle_read_event`, up to the first use of a removed connection. -/
def World.readEffect (w : World) (conn : Fd) (c : Connection) : ReadResult → World
  | .eof => w.closed conn
  | .error _ => w
  | .bytes b =>
    if OverLimit (requestDecoder.drain (c.incoming ++ b)).2 then (w.drained conn c b).closed conn
    else (w.drained conn c b).afterRead conn (c.drained w.gData b)

/-- The world after `handle_write_event`. -/
def World.writeEffect (w : World) (conn : Fd) (c : Connection) (r : WriteResult) : World :=
  if c.outgoing = [] then w.modified conn EPOLLIN
  else
    match r with
    | .error errno => if errno.isAgain then w else w.closed conn
    | .wrote n => (w.wrote conn c n).afterWrite conn (c.wrote n)

/-- The world after a new connection was entered into the table. -/
def World.accepted (w : World) (fd : Fd) : World :=
  { { w with kernel := (w.kernel.accept fd).epollAdd fd EPOLLIN } with
    connections := Function.update w.connections fd (some ⟨fd, [], []⟩) }

/-- The world after `handle_new_connections`. -/
def World.newEffect (w : World) (r : SysResults) : World :=
  if r.accept = -1 then w
  else if setNonblocking r.getfl r.setfl = false then
    { w with kernel := (w.kernel.accept r.accept).close r.accept }
  else if (w.connections r.accept).isSome then { w with kernel := w.kernel.accept r.accept }
  else w.accepted r.accept

@[simp] theorem afterRead_connections (conn : Fd) (c : Connection) :
    (w.afterRead conn c).connections = w.connections := by
  unfold World.afterRead
  split <;> rfl

@[simp] theorem afterWrite_connections (conn : Fd) (c : Connection) :
    (w.afterWrite conn c).connections = w.connections := by
  unfold World.afterWrite
  split <;> rfl

/-- Handlers leave the entries of other descriptors alone. -/
theorem readEffect_connections_ne {fd : Fd} (h : fd ≠ conn) (r : ReadResult) :
    (w.readEffect conn c r).connections fd = w.connections fd := by
  cases r with
  | eof => exact closed_connections_ne h
  | error errno => rfl
  | bytes b =>
    unfold World.readEffect
    simp only
    split
    · rw [closed_connections_ne h, drained_connections_ne h]
    · rw [afterRead_connections, drained_connections_ne h]

theorem writeEffect_connections_ne {fd : Fd} (h : fd ≠ conn) (r : WriteResult) :
    (w.writeEffect conn c r).connections fd = w.connections fd := by
  unfold World.writeEffect
  split
  · rfl
  cases r with
  | error errno =>
    simp only
    split
    · rfl
    · exact closed_connections_ne h
  | wrote n =>
    simp only [afterWrite_connections]
    exact setConn_connections_ne h _

/-- A write event takes nothing off the incoming buffer. -/
theorem writeEffect_incoming (hc : w.connections conn = some c) {r : WriteResult} {d : Connection}
    (hd : (w.writeEffect conn c r).connections conn = some d) : d.incoming = c.incoming := by
  unfold World.writeEffect at hd
  split at hd
  · obtain rfl := Option.some.inj (hd.symm.trans hc)
    rfl
  cases r with
  | error errno =>
    simp only at hd
    split at hd
    · obtain rfl := Option.some.inj (hd.symm.trans hc)
      rfl
    · rw [closed_connections] at hd
      cases hd
  | wrote n =>
    simp only [afterWrite_connections] at hd
    have hwrote : (w.wrote conn c n).connections conn = some (c.wrote n) := setConn_connections _
    obtain rfl := Option.some.inj (hd.symm.trans hwrote)
    rfl

/-- A read event returns, unless it met a header above the limit. -/
theorem run_handleReadEvent (h : w.connections conn = some c) (hfd : c.fd = conn) (r : ReadResult) :
    (handleReadEvent r conn).run w = .ok () (w.readEffect conn c r) ∨
      (handleReadEvent r conn).run w = .error .removedConnection (w.readEffect conn c r) ∧
        (w.readEffect conn c r).connections conn = none := by
  cases r with
  | eof => exact .inl (run_handleReadEvent_eof h hfd)
  | error errno => exact .inl (run_handleReadEvent_error h errno)
  | bytes b =>
    rw [World.readEffect]
    by_cases ho : OverLimit (requestDecoder.drain (c.incoming ++ b)).2
    · rw [if_pos ho]
      exact .inr ⟨run_handleReadEvent_overLimit h hfd b ho, closed_connections conn⟩
    · rw [if_neg ho]
      exact .inl (run_handleReadEvent_bytes h hfd b ho)

theorem run_handleWriteEvent (h : w.connections conn = some c) (hfd : c.fd = conn)
    (r : WriteResult) : (handleWriteEvent r conn).run w = .ok () (w.writeEffect conn c r) := by
  unfold World.writeEffect
  by_cases hout : c.outgoing = []
  · rw [if_pos hout]
    exact run_handleWriteEvent_empty h hfd hout r
  rw [if_neg hout]
  cases r with
  | error errno =>
    simp only
    cases he : errno.isAgain with
    | true => exact run_handleWriteEvent_again h hout he
    | false => exact run_handleWriteEvent_error h hfd hout he
  | wrote n => exact run_handleWriteEvent_wrote h hfd hout n

theorem run_handleNewConnections (r : SysResults) :
    (handleNewConnections r).run w = .ok () (w.newEffect r) := by
  rw [World.newEffect]
  by_cases ha : r.accept = -1
  · simp [handleNewConnections, ha]
  cases hn : setNonblocking r.getfl r.setfl with
  | false => simp [handleNewConnections, ha, hn, run_syscall]
  | true =>
    cases hc : w.connections r.accept with
    | none =>
      simp only [handleNewConnections, ha, if_false, EStateM.run_bind, run_syscall, hn,
        Bool.not_true, Bool.false_eq_true, addConn, EStateM.run_get, hc, Option.isSome_none,
        EStateM.run_modify]
      rfl
    | some c =>
      simp [handleNewConnections, ha, hn, run_syscall, addConn, hc]

/-! ## Serving an event -/

theorem run_dispatch_server {event : Event} (h : event.fd = w.serverFd) (r : SysResults) :
    (dispatch event r).run w = .ok () (w.newEffect r) := by
  simp only [dispatch, EStateM.run_bind, EStateM.run_get, if_pos h, run_handleNewConnections]

/-- An event for a descriptor that is not in the table throws. -/
theorem run_dispatch_unknown {event : Event} (h : event.fd ≠ w.serverFd)
    (hc : w.connections event.fd = none) (r : SysResults) :
    (dispatch event r).run w = .error .outOfRange w := by
  simp only [dispatch, EStateM.run_bind, EStateM.run_get, if_neg h, getConnection, hc]
  rfl

/-- The `EPOLLIN` branch of `start`. -/
def readBranch (event : Event) (r : SysResults) : Handler Unit :=
  if event.events.epollin then handleReadEvent r.read event.fd else pure ()

/-- The `EPOLLOUT` branch of `start`. -/
def writeBranch (event : Event) (r : SysResults) : Handler Unit :=
  if event.events.epollout then handleWriteEvent r.write event.fd else pure ()

/-- The `EPOLLERR`/`EPOLLHUP` branch of `start`. -/
def closeBranch (event : Event) : Handler Unit :=
  if event.events.epollerr || event.events.epollhup then handleCloseEvent event.fd else pure ()

/-- An event for a client runs the three branches in order. -/
theorem run_dispatch_client {event : Event} (h : event.fd ≠ w.serverFd)
    (hc : w.connections event.fd = some c) (r : SysResults) :
    (dispatch event r).run w =
      (readBranch event r >>= fun _ =>
        writeBranch event r >>= fun _ => closeBranch event).run w := by
  simp only [dispatch, EStateM.run_bind, EStateM.run_get, if_neg h, getConnection, hc,
    EStateM.run_pure, readBranch, writeBranch, closeBranch]
  cases event.events.epollin <;> cases event.events.epollout <;> rfl

theorem worldOf_bind {α β : Type} {P : World → Prop} {x : Handler α} {f : α → Handler β}
    (hx : P (worldOf (x.run w)))
    (hf : ∀ a w', x.run w = .ok a w' → P (worldOf ((f a).run w'))) :
    P (worldOf ((x >>= f).run w)) := by
  rw [EStateM.run_bind]
  cases h : x.run w with
  | ok a w' => exact hf a w' h
  | error e w' => rwa [h] at hx

/-- **The rule for serving an event**: what holds of the world, and is kept by accepting, reading,
writing and closing, holds afterwards. -/
theorem afterEvent_rule {P : World → Prop} {event : Event} {r : SysResults} (hw : P w)
    (htable : ∀ w', P w' → ∀ fd c, w'.connections fd = some c → c.fd = fd)
    (hnew : event.fd = w.serverFd → P (w.newEffect r))
    (hread : event.fd ≠ w.serverFd → event.events.epollin = true →
      ∀ c, w.connections event.fd = some c → P (w.readEffect event.fd c r.read))
    (hwrite : event.fd ≠ w.serverFd → event.events.epollout = true → ∀ w' c, P w' →
      w'.connections event.fd = some c → P (w'.writeEffect event.fd c r.write))
    (hclose : event.fd ≠ w.serverFd → ∀ w' c, P w' → w'.connections event.fd = some c →
      P (w'.closed event.fd)) : P (afterEvent event r w) := by
  unfold afterEvent
  by_cases hs : event.fd = w.serverFd
  · rw [run_dispatch_server hs]
    exact hnew hs
  cases hc : w.connections event.fd with
  | none => rw [run_dispatch_unknown hs hc]; exact hw
  | some c =>
    rw [run_dispatch_client hs hc]
    have h1 : P (worldOf ((readBranch event r).run w)) := by
      unfold readBranch
      split
      · rename_i hin
        rcases run_handleReadEvent hc (htable w hw _ _ hc) r.read with h | ⟨h, -⟩ <;>
          exact h ▸ hread hs hin c hc
      · exact hw
    refine worldOf_bind h1 fun _ w1 e1 => ?_
    rw [e1] at h1
    -- the connection may be gone by now
    have h2 : P (worldOf ((writeBranch event r).run w1)) := by
      unfold writeBranch
      split
      · rename_i hout
        cases hc1 : w1.connections event.fd with
        | none => rw [run_handleWriteEvent_none hc1]; exact h1
        | some c1 =>
          rw [run_handleWriteEvent hc1 (htable w1 h1 _ _ hc1)]
          exact hwrite hs hout w1 c1 h1 hc1
      · exact h1
    refine worldOf_bind h2 fun _ w2 e2 => ?_
    rw [e2] at h2
    unfold closeBranch
    split
    · cases hc2 : w2.connections event.fd with
      | none => rw [run_handleCloseEvent_none hc2]; exact h2
      | some c2 =>
        rw [run_handleCloseEvent hc2 (htable w2 h2 _ _ hc2)]
        exact hclose hs w2 c2 h2 hc2
    · exact h2

end Byor.Optimized
