import Byor.EventLoop.Server

/-!
# The poll-based echo server

The echo server in the archive of the event loop (`03_event_loop/archive/myserver.cpp`). It keeps
its connections on the heap and reaches them through a vector of pointers that is indexed by
descriptors; flags of a connection say what the loop is to wait for, and whether it is to be closed.

* `World` is the heap, the vector and the kernel. `Fault` is how a handler can leave the ground the
  source stands on: a failed `assert`, a null or dangling pointer, an index past the end.
* `run_handleWrite`, `run_handleRead`: the handlers work on one connection only. What they make of
  it is `Conn.wrote` and `Conn.didRead`.
* `run_whileTryOneRequest`: the parse loop, and the one fault in it: it takes the address of the
  payload of a frame with an empty one, and there is no such element if the buffer ends there.
-/

namespace Byor.PollServer

open Wire
open Optimized (Fd Bytes Kernel ReadResult WriteResult Errno lenFieldSize maxMsgFieldSize
  OverLimit StartsComplete dataLen headPayload)
open EventLoop (echoDecoder echoBytes)

/-- The address of a `Conn`. -/
abbrev Addr := ℕ

/-- `struct Conn` -/
structure Conn where
  fd : Fd
  wantRead : Bool
  wantWrite : Bool
  wantClose : Bool
  incoming : Bytes
  outgoing : Bytes
  deriving DecidableEq, Repr

/-- A set of poll flags, `short events`. -/
structure PollMask where
  pollin : Bool
  pollout : Bool
  pollerr : Bool
  pollhup : Bool
  deriving DecidableEq, Repr

/-- `struct pollfd`, before the call of `poll`. -/
structure Pollfd where
  fd : Fd
  events : PollMask
  deriving DecidableEq, Repr

/-- The server and the kernel. -/
structure World where
  serverFd : Fd
  /-- What stands at an address that was returned by `new` and not yet given to `delete`. -/
  heap : Addr → Option Conn
  fd2conn : List (Option Addr)
  kernel : Kernel

/-- How a handler can leave the ground the source stands on. -/
inductive Fault
  /-- An `assert` fails. -/
  | assertFailed
  /-- A member is reached through a null pointer. -/
  | nullPointer
  /-- A `Conn` is used after it was deleted. -/
  | dangling
  /-- `operator[]` of a vector at or past its end. -/
  | outOfRange
  deriving DecidableEq, Repr

/-- A program over the world; at a fault it stops with the world as it stands. -/
abbrev Handler := EStateM Fault World

/-- What the system calls made while serving one descriptor return, and the address `new` has
returned. -/
structure Results where
  /-- The descriptor `accept` returns, or `-1`. -/
  accept : Fd
  /-- `fcntl(fd, F_GETFL)` -/
  getfl : ℤ
  addr : Addr
  read : ReadResult
  /-- The `write` that `handle_read` leads to; `write` is the one of the `POLLOUT` branch. -/
  writeNow : WriteResult
  write : WriteResult

/-! ## Operations -/

/-- A system call: it changes the kernel's state only. -/
def syscall (f : Kernel → Kernel) : Handler Unit := modify fun w => { w with kernel := f w.kernel }

/-- Read through a `Conn*`. -/
def deref (conn : Option Addr) : Handler Conn := do
  match conn with
  | none => throw .nullPointer
  | some p =>
    match (← get).heap p with
    | none => throw .dangling
    | some c => pure c

/-- Write through a `Conn*`. -/
def assign (conn : Option Addr) (c : Conn) : Handler Unit := do
  match conn with
  | none => throw .nullPointer
  | some p =>
    let _ ← deref conn
    modify fun w => { w with heap := Function.update w.heap p (some c) }

/-- `fd2conn[fd]` -/
def index (fd : Fd) : Handler (Option Addr) := do
  match (← get).fd2conn[fd.toNat]? with
  | none => throw .outOfRange
  | some conn => pure conn

/-- `buf_append` -/
def bufAppend (buf data : Bytes) : Bytes := buf ++ data

/-- `buf_consume` -/
def bufConsume (buf : Bytes) (n : ℕ) : Bytes := buf.drop n

/-- `set_nonblocking`. Its `return` stands outside the `if` before it, so `F_SETFL` is not
reached. -/
def setNonblocking (_fd : Fd) (_getfl : ℤ) : Handler Unit := return

/-- `handle_accept` -/
def handleAccept (r : Results) : Handler (Option Addr) := do
  let connfd := r.accept
  if connfd = -1 then return none
  syscall fun k => k.accept connfd
  setNonblocking connfd r.getfl
  modify fun w =>
    { w with heap := Function.update w.heap r.addr (some ⟨connfd, true, false, false, [], []⟩) }
  return some r.addr

/-- `try_one_request` -/
def tryOneRequest (conn : Option Addr) : Handler Bool := do
  let c ← deref conn
  if c.incoming.length < lenFieldSize then return false
  let len := leVal (c.incoming.take lenFieldSize)
  if maxMsgFieldSize < len then
    assign conn { c with wantClose := true }
    return false
  if c.incoming.length < lenFieldSize + len then return false
  -- `&conn->incoming[LEN_FIELD_SIZE]`
  if c.incoming.length ≤ lenFieldSize then throw .outOfRange
  let payload := c.incoming.drop lenFieldSize
  let outgoing := bufAppend (bufAppend c.outgoing (leBytes lenFieldSize len)) (payload.take len)
  assign conn { c with
    outgoing := outgoing, incoming := bufConsume c.incoming (lenFieldSize + len) }
  return true

/-- `handle_write`. The kernel takes no more bytes than it is given. -/
def handleWrite (r : WriteResult) (conn : Option Addr) : Handler Unit := do
  let c ← deref conn
  if c.outgoing.length = 0 then throw .assertFailed
  match r with
  | .error _ => assign conn { c with wantClose := true }
  | .wrote n =>
    let rv := min n c.outgoing.length
    syscall fun k => k.write c.fd (c.outgoing.take rv)
    let c := { c with outgoing := bufConsume c.outgoing rv }
    assign conn (if c.outgoing.length = 0 then { c with wantRead := true, wantWrite := false }
      else c)

/-- `handle_read`. Each turn of the loop takes bytes off the buffer, so their number bounds the
turns. `EWOULDBLOCK` is the number of `EAGAIN`. -/
def handleRead (r : Results) (conn : Option Addr) : Handler Unit := do
  let c ← deref conn
  syscall fun k => k.read c.fd r.read
  match r.read with
  | .error errno =>
    if errno = .EAGAIN || errno = .EWOULDBLOCK then return
    assign conn { c with wantClose := true }
  | .eof => assign conn { c with wantClose := true }
  | .bytes b =>
    assign conn { c with incoming := bufAppend c.incoming b }
    whileTrue ((bufAppend c.incoming b).length + 1) (tryOneRequest conn)
    let c ← deref conn
    if 0 < c.outgoing.length then
      assign conn { c with wantRead := false, wantWrite := true }
      handleWrite r.writeNow conn

/-! ## The body of the loop in `main` -/

/-- The loop that fills `poll_args` from the connections. -/
def clientArgs : List (Option Addr) → Handler (List Pollfd)
  | [] => return []
  | none :: conns => clientArgs conns
  | some p :: conns => do
    let c ← deref (some p)
    let rest ← clientArgs conns
    return ⟨c.fd, ⟨c.wantRead, c.wantWrite, true, false⟩⟩ :: rest

/-- `poll_args`, when `poll` is called. -/
def pollArgs : Handler (List Pollfd) := do
  let w ← get
  let clients ← clientArgs w.fd2conn
  return ⟨w.serverFd, ⟨true, false, false, false⟩⟩ :: clients

/-- `fd2conn.resize(n)`, when there are fewer. -/
def resize (fd2conn : List (Option Addr)) (n : ℕ) : List (Option Addr) :=
  fd2conn ++ List.replicate (n - fd2conn.length) none

/-- Some flag is set. -/
def PollMask.any (m : PollMask) : Bool := m.pollin || m.pollout || m.pollerr || m.pollhup

/-- What the loop does about the listening socket. -/
def serveListener (revents : PollMask) (r : Results) : Handler Unit := do
  if !revents.any then return
  let conn ← handleAccept r
  if conn.isNone then return
  let c ← deref conn
  let w ← get
  let table :=
    if w.fd2conn.length ≤ c.fd.toNat then resize w.fd2conn (c.fd.toNat + 1) else w.fd2conn
  set { w with fd2conn := table }
  if (← index c.fd).isSome then throw .assertFailed
  modify fun w => { w with fd2conn := w.fd2conn.set c.fd.toNat conn }

/-- `delete conn` -/
def delete (conn : Option Addr) : Handler Unit := do
  match conn with
  | none => return
  | some p =>
    let _ ← deref conn
    modify fun w => { w with heap := Function.update w.heap p none }

/-- What the loop does about a connection whose `revents` are these. -/
def serveClient (fd : Fd) (ready : PollMask) (r : Results) : Handler Unit := do
  if !ready.any then return
  let conn ← index fd
  if ready.pollin then
    if !(← deref conn).wantRead then throw .assertFailed
    handleRead r conn
  if ready.pollout then
    if !(← deref conn).wantWrite then throw .assertFailed
    handleWrite r.write conn
  let c ← deref conn
  if ready.pollerr || c.wantClose then
    syscall fun k => k.close c.fd
    let _ ← index c.fd
    modify fun w => { w with fd2conn := w.fd2conn.set c.fd.toNat none }
    delete conn

/-- An entry of `poll_args` after the call of `poll`: the first is the listening socket. -/
inductive Event
  | listener (revents : PollMask)
  | client (fd : Fd) (revents : PollMask)
  deriving DecidableEq, Repr

/-- The body of the loop over `poll_args`, and what comes before it for the first entry. -/
def serve (event : Event) (r : Results) : Handler Unit :=
  match event with
  | .listener revents => serveListener revents r
  | .client fd revents => serveClient fd revents r

/-! ## One connection -/

/-- The world with the connection `c` at the address `p`, and with another state of the kernel. -/
def World.put (w : World) (p : Addr) (c : Conn) (k : Kernel) : World :=
  { w with heap := Function.update w.heap p (some c), kernel := k }

section

variable {w : World} {p : Addr} {c : Conn} {k : Kernel}

theorem put_self (h : w.heap p = some c) : w.put p c w.kernel = w := by
  rw [World.put, ← h, Function.update_eq_self]

@[simp] theorem put_heap : (w.put p c k).heap p = some c := Function.update_self ..

theorem put_heap_ne {q : Addr} (h : q ≠ p) : (w.put p c k).heap q = w.heap q :=
  Function.update_of_ne h ..

theorem run_deref (h : w.heap p = some c) : (deref (some p)).run w = .ok c w := by
  simp only [deref, EStateM.run_bind, EStateM.run_get, h, EStateM.run_pure]

@[simp] theorem run_deref_put : (deref (some p)).run (w.put p c k) = .ok c (w.put p c k) :=
  run_deref put_heap

@[simp] theorem run_assign_put (c' : Conn) :
    (assign (some p) c').run (w.put p c k) = .ok () (w.put p c' k) := by
  simp only [assign, EStateM.run_bind, run_deref_put, EStateM.run_modify]
  simp only [World.put, Function.update_idem]

theorem run_delete (h : w.heap p = some c) :
    (delete (some p)).run w = .ok () { w with heap := Function.update w.heap p none } := by
  simp only [delete, EStateM.run_bind, run_deref h, EStateM.run_modify]

@[simp] theorem run_syscall_put (f : Kernel → Kernel) :
    (syscall f).run (w.put p c k) = .ok () (w.put p c (f k)) := rfl

/-! ### `handle_write` -/

/-- The connection after `handle_write`. -/
def Conn.wrote (c : Conn) : WriteResult → Conn
  | .error _ => { c with wantClose := true }
  | .wrote n =>
    if (c.outgoing.drop (min n c.outgoing.length)).length = 0 then
      { c with
        outgoing := c.outgoing.drop (min n c.outgoing.length), wantRead := true,
        wantWrite := false }
    else { c with outgoing := c.outgoing.drop (min n c.outgoing.length) }

/-- The kernel after `handle_write`. -/
def Conn.writeKernel (c : Conn) (k : Kernel) : WriteResult → Kernel
  | .error _ => k
  | .wrote n => k.write c.fd (c.outgoing.take (min n c.outgoing.length))

theorem run_handleWrite (h : c.outgoing ≠ []) (r : WriteResult) :
    (handleWrite r (some p)).run (w.put p c k) =
      .ok () (w.put p (c.wrote r) (c.writeKernel k r)) := by
  have hlen : ¬ c.outgoing.length = 0 := fun h0 => h (List.length_eq_zero_iff.mp h0)
  cases r with
  | error errno =>
    simp only [handleWrite, EStateM.run_bind, run_deref_put, if_neg hlen, run_assign_put]
    rfl
  | wrote n =>
    simp only [handleWrite, EStateM.run_bind, run_deref_put, if_neg hlen, run_syscall_put,
      run_assign_put, bufConsume, Conn.wrote, Conn.writeKernel]
    rfl

/-! ### `try_one_request` -/

/-- The buffer is the header of an empty frame and nothing else. -/
def EmptyFrame (incoming : Bytes) : Prop :=
  incoming.length = lenFieldSize ∧ dataLen incoming = 0

instance (incoming : Bytes) : Decidable (EmptyFrame incoming) :=
  inferInstanceAs (Decidable (_ ∧ _))

/-- The frames the server takes off a stream: an empty one only if something stands behind it. -/
def pollDecoder : Decoder UInt8 (Record Unit) where
  next xs := if EmptyFrame xs then none else echoDecoder.next xs
  raw := echoDecoder.raw
  split h := by
    split at h
    · cases h
    · exact echoDecoder.split h
  raw_ne_nil h := by
    split at h
    · cases h
    · exact echoDecoder.raw_ne_nil h
  extend {xs _ _} ys h := by
    split at h
    · cases h
    rename_i he
    rw [if_neg, echoDecoder.extend ys h]
    rintro ⟨hlen, hdata⟩
    obtain ⟨h4, -, -⟩ := EventLoop.startsComplete_of_next_echo h
    rw [List.length_append] at hlen
    have hys : ys = [] := List.length_eq_zero_iff.mp (by omega)
    rw [hys, List.append_nil] at hdata
    exact he ⟨by omega, hdata⟩

/-- The connection after the frames `fs` were sent back and `rest` is left in its buffer. -/
def Conn.echoed (c : Conn) (fs : List (Record Unit)) (rest : Bytes) : Conn :=
  { c with incoming := rest, outgoing := c.outgoing ++ echoBytes fs }

theorem run_tryOneRequest_complete (h : StartsComplete c.incoming) (he : ¬ EmptyFrame c.incoming) :
    (tryOneRequest (some p)).run (w.put p c k) = .ok true (w.put p
      (c.echoed [⟨headPayload c.incoming, ()⟩]
        (c.incoming.drop (lenFieldSize + dataLen c.incoming)))
      k) := by
  have hframe : leBytes lenFieldSize (dataLen c.incoming) ++
      (c.incoming.drop lenFieldSize).take (dataLen c.incoming) =
        echoBytes [⟨headPayload c.incoming, ()⟩] := by
    simp only [echoBytes, List.map_cons, List.map_nil, EventLoop.frames_cons,
      EventLoop.frames_nil, List.append_nil, record, h.length_headPayload]
    rfl
  obtain ⟨h4, hmax, hlen⟩ := h
  have hword : leVal (c.incoming.take lenFieldSize) = dataLen c.incoming := rfl
  have hbehind : ¬ c.incoming.length ≤ lenFieldSize := fun hle => he ⟨by omega, by omega⟩
  simp only [tryOneRequest, EStateM.run_bind, run_deref_put, if_neg (Nat.not_lt.mpr h4), hword,
    if_neg (Nat.not_lt.mpr hmax), if_neg (Nat.not_lt.mpr hlen), if_neg hbehind, run_assign_put,
    bufAppend, bufConsume, List.append_assoc, hframe, EStateM.run_pure]
  rfl

theorem run_tryOneRequest_next {f : Record Unit} {rest : Bytes}
    (hn : pollDecoder.next c.incoming = some (f, rest)) :
    (tryOneRequest (some p)).run (w.put p c k) = .ok true (w.put p (c.echoed [f] rest) k) := by
  change (if EmptyFrame c.incoming then none else echoDecoder.next c.incoming) = _ at hn
  split at hn
  · cases hn
  rename_i he
  have hs := EventLoop.startsComplete_of_next_echo hn
  rw [EventLoop.next_echo_of_startsComplete hs] at hn
  obtain ⟨rfl, rfl⟩ := Prod.mk.inj (Option.some.inj hn)
  exact run_tryOneRequest_complete hs he

/-- The address of an element that is not there. -/
theorem run_tryOneRequest_emptyFrame (h : EmptyFrame c.incoming) :
    (tryOneRequest (some p)).run (w.put p c k) = .error .outOfRange (w.put p c k) := by
  obtain ⟨h4, hdata⟩ := h
  have hword : leVal (c.incoming.take lenFieldSize) = 0 := hdata
  simp only [tryOneRequest, EStateM.run_bind, run_deref_put, hword, h4, Nat.add_zero,
    Nat.lt_irrefl, Nat.not_lt_zero, Nat.le_refl, if_false, if_true]
  rfl

/-- The connection when the parse loop has stopped. -/
def Conn.stopped (c : Conn) : Conn :=
  if OverLimit c.incoming then { c with wantClose := true } else c

theorem run_tryOneRequest_none (hn : pollDecoder.next c.incoming = none)
    (he : ¬ EmptyFrame c.incoming) :
    (tryOneRequest (some p)).run (w.put p c k) = .ok false (w.put p c.stopped k) := by
  change (if EmptyFrame c.incoming then none else echoDecoder.next c.incoming) = _ at hn
  rw [if_neg he] at hn
  have hs : ¬ StartsComplete c.incoming := by
    intro hs
    rw [EventLoop.next_echo_of_startsComplete hs] at hn
    cases hn
  have hword : leVal (c.incoming.take lenFieldSize) = dataLen c.incoming := rfl
  unfold Conn.stopped
  by_cases h4 : c.incoming.length < lenFieldSize
  · rw [if_neg fun ho => Nat.not_lt.mpr ho.1 h4]
    simp only [tryOneRequest, EStateM.run_bind, run_deref_put, if_pos h4, EStateM.run_pure]
  by_cases hmax : maxMsgFieldSize < dataLen c.incoming
  · rw [if_pos ⟨Nat.le_of_not_lt h4, hmax⟩]
    simp only [tryOneRequest, EStateM.run_bind, run_deref_put, if_neg h4, hword, if_pos hmax,
      run_assign_put, EStateM.run_pure]
  · have hlen : c.incoming.length < lenFieldSize + dataLen c.incoming := by
      by_contra hge
      exact hs ⟨Nat.le_of_not_lt h4, Nat.le_of_not_lt hmax, Nat.le_of_not_lt hge⟩
    rw [if_neg fun ho => hmax ho.2]
    simp only [tryOneRequest, EStateM.run_bind, run_deref_put, if_neg h4, hword, if_neg hmax,
      if_pos hlen, EStateM.run_pure]

/-- The connection after all frames in its buffer were sent back. -/
def Conn.drained (c : Conn) : Conn :=
  c.echoed (pollDecoder.drain c.incoming).1 (pollDecoder.drain c.incoming).2

/-- **The parse loop** sends the frames back; it ends in the fault if the buffer ends in an empty
one. -/
theorem run_whileTryOneRequest {n : ℕ} (hn : c.incoming.length < n) :
    (whileTrue n (tryOneRequest (some p))).run (w.put p c k) =
      if EmptyFrame c.drained.incoming then .error .outOfRange (w.put p c.drained k)
      else .ok () (w.put p c.drained.stopped k) := by
  have hlen := pollDecoder.length_drain_le (d := 1) pollDecoder.length_lt c.incoming
  have hnone := pollDecoder.next_drain c.incoming
  obtain ⟨m, rfl⟩ : ∃ m, n = (pollDecoder.drain c.incoming).1.length + (m + 1) :=
    ⟨n - (pollDecoder.drain c.incoming).1.length - 1, by omega⟩
  have hsome : ∀ fs xs f rest, pollDecoder.next xs = some (f, rest) →
      (tryOneRequest (some p)).run (w.put p (c.echoed fs xs) k) =
        .ok true (w.put p (c.echoed (fs ++ [f]) rest) k) := by
    intro fs xs f rest hnext
    have hrun := run_tryOneRequest_next (w := w) (p := p) (c := c.echoed fs xs) (k := k) hnext
    simpa [Conn.echoed] using hrun
  have hloop := pollDecoder.run_whileTrue_of_takes (fun fs xs => w.put p (c.echoed fs xs) k) hsome
    (pollDecoder.takes_drain c.incoming) [] (m + 1)
  have hstart : c.echoed [] c.incoming = c := by simp [Conn.echoed, echoBytes]
  rw [hstart, List.nil_append, ← Conn.drained] at hloop
  rw [hloop, whileTrue, EStateM.run_bind]
  by_cases he : EmptyFrame c.drained.incoming
  · rw [if_pos he, run_tryOneRequest_emptyFrame he]
  · rw [if_neg he, run_tryOneRequest_none hnone he]
    rfl

/-! ### `handle_read` -/

/-- The connection after bytes were read and the frames in its buffer were sent back. -/
def Conn.parsed (c : Conn) (b : Bytes) : Conn := { c with incoming := c.incoming ++ b }.drained

/-- The buffer of the connection ends in an empty frame once these bytes were read. -/
def EndsEmpty (c : Conn) (r : ReadResult) : Prop :=
  ∃ b, r = .bytes b ∧ EmptyFrame (c.parsed b).incoming

/-- What follows the parse loop: the outgoing buffer decides whether to write, right away. -/
def Conn.turned (c : Conn) (r : WriteResult) : Conn :=
  if c.outgoing = [] then c else { c with wantRead := false, wantWrite := true }.wrote r

def Conn.turnedKernel (c : Conn) (k : Kernel) (r : WriteResult) : Kernel :=
  if c.outgoing = [] then k else c.writeKernel k r

/-- The connection after `handle_read`. -/
def Conn.didRead (c : Conn) (r : Results) : Conn :=
  match r.read with
  | .error errno => if errno.isAgain then c else { c with wantClose := true }
  | .eof => { c with wantClose := true }
  | .bytes b => (c.parsed b).stopped.turned r.writeNow

/-- The kernel after `handle_read`. -/
def Conn.readKernel (c : Conn) (k : Kernel) (r : Results) : Kernel :=
  match r.read with
  | .bytes b => (c.parsed b).stopped.turnedKernel (k.read c.fd (.bytes b)) r.writeNow
  | _ => k

/-- The frames are parsed: what is left of a read event. -/
theorem run_afterLoop (r : WriteResult) :
    (do
      let c ← deref (some p)
      if 0 < c.outgoing.length then
        assign (some p) { c with wantRead := false, wantWrite := true }
        handleWrite r (some p) : Handler Unit).run (w.put p c k) =
      .ok () (w.put p (c.turned r) (c.turnedKernel k r)) := by
  unfold Conn.turned Conn.turnedKernel
  by_cases hout : c.outgoing = []
  · simp [hout]
  · have hpos : 0 < c.outgoing.length := List.length_pos_iff.mpr hout
    have hwrite := run_handleWrite (w := w) (p := p) (k := k)
      (c := { c with wantRead := false, wantWrite := true }) hout r
    simp only [EStateM.run_bind, run_deref_put, if_pos hpos, run_assign_put, hwrite, if_neg hout]
    cases r <;> rfl

theorem run_handleRead_bytes {r : Results} {b : Bytes} (hr : r.read = .bytes b) :
    (handleRead r (some p)).run (w.put p c k) =
      if EmptyFrame (c.parsed b).incoming then
        .error .outOfRange (w.put p (c.parsed b) (k.read c.fd (.bytes b)))
      else .ok () (w.put p (c.didRead r) (c.readKernel k r)) := by
  have hloop := run_whileTryOneRequest (w := w) (p := p)
    (c := { c with incoming := c.incoming ++ b })
    (k := k.read c.fd (.bytes b)) (Nat.lt_succ_self (c.incoming ++ b).length)
  rw [← Conn.parsed] at hloop
  have hafter := run_afterLoop (w := w) (p := p) (c := (c.parsed b).stopped)
    (k := k.read c.fd (.bytes b)) r.writeNow
  simp only [handleRead, EStateM.run_bind, run_deref_put, run_syscall_put, hr, run_assign_put,
    bufAppend, Conn.didRead, Conn.readKernel]
  rw [hloop]
  by_cases he : EmptyFrame (c.parsed b).incoming
  · rw [if_pos he, if_pos he]
  · rw [if_neg he, if_neg he]
    exact hafter

/-- **A read event** of a connection. -/
theorem run_handleRead {r : Results} (h : ¬ EndsEmpty c r.read) :
    (handleRead r (some p)).run (w.put p c k) =
      .ok () (w.put p (c.didRead r) (c.readKernel k r)) := by
  cases hr : r.read with
  | bytes b => rw [run_handleRead_bytes hr, if_neg fun he => h ⟨b, hr, he⟩]
  | eof =>
    simp only [handleRead, EStateM.run_bind, run_deref_put, run_syscall_put, hr, run_assign_put,
      Conn.didRead, Conn.readKernel]
    rfl
  | error errno =>
    simp only [handleRead, EStateM.run_bind, run_deref_put, run_syscall_put, hr, Conn.didRead,
      Conn.readKernel]
    cases errno <;> simp [Optimized.Errno.isAgain, Kernel.read]

theorem run_handleRead_endsEmpty {r : Results} (h : EndsEmpty c r.read) :
    ∃ w', (handleRead r (some p)).run (w.put p c k) = .error .outOfRange w' := by
  obtain ⟨b, hr, he⟩ := h
  exact ⟨_, (run_handleRead_bytes hr).trans (if_pos he)⟩

end

end Byor.PollServer
