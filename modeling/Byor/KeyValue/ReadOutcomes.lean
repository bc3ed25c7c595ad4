import Byor.KeyValue.Server

/-!
# Outcomes of `read`

`handle_read_event` of the first key-value server (`04_key_value_server/src/server.cpp`) once more,
with the count that `read` returns as the source has it: a signed number, which becomes an offset of
an iterator behind two guards, one of them for some values of `errno` only.

* `run_handleReadEvent_eq`: this is the `handle_read_event` of `Byor.KeyValue.Server`.
* `handlesRead_iff`: bytes that were read are parsed behind the old ones, and an error changes
  nothing, exactly if the error is one that asks to try again.
-/

namespace Byor.KeyValue

open Wire EventLoop
open Optimized hiding Handler assign handleNewConnections handleWriteEvent handleCloseEvent

/-- What `read(client_fd, buf.data(), buf.size())` returns, `errno`, and the buffer after it. -/
structure ReadReturn where
  bytesRead : ℤ
  errno : Errno
  buf : Bytes
  size_buf : buf.length = readBufferSize
  neg_one_le : -1 ≤ bytesRead
  le_size : bytesRead ≤ readBufferSize

/-- The same, as the result of the call. -/
def ReadReturn.result (ret : ReadReturn) : ReadResult :=
  if ret.bytesRead = 0 then .eof
  else if ret.bytesRead < 0 then .error ret.errno
  else .bytes (ret.buf.take ret.bytesRead.toNat)

/-- `incoming.insert(incoming.end(), buf.begin() + first, buf.begin() + last)`. A range that ends
before it begins is undefined. -/
def insertRange (incoming buf : Bytes) (first last : ℤ) : Handler Bytes :=
  if last < first then throw .invalidRange
  else return incoming ++ (buf.drop first.toNat).take (last - first).toNat

namespace Signed

/-- What `handle_read_event` does once the bytes are in the buffer. -/
def parse (r : Results) (clientFd : Fd) (size : ℕ) : Handler Unit := do
  whileTrue (size + 1) (tryRequest r clientFd)
  afterLoop r.toResults clientFd

/-- `handle_read_event` -/
def handleReadEvent (r : Results) (ret : ReadReturn) (clientFd : Fd) : Handler Unit := do
  let c ← EventLoop.getConnection clientFd
  operation (syscall fun k => k.read clientFd ret.result)
  if ret.bytesRead = 0 then handleCloseEvent clientFd
  else if ret.bytesRead < 0 ∧ ret.errno.isAgain = true then return
  else do
    let incoming ← insertRange c.incoming ret.buf 0 ret.bytesRead
    assign clientFd { c with incoming := incoming }
    parse r clientFd incoming.length

end Signed

/-- The world in which a buffer is parsed: the old bytes of the connection and the new ones. -/
def readInto (w : World) (clientFd : Fd) (c : Connection) (b : Bytes) : World :=
  { w with kernel := w.kernel.read clientFd (.bytes b) }.setConn clientFd
    { c with incoming := c.incoming ++ b }

/-- **An outcome of `read` is handled**: the buffer that is parsed is the old one followed by the
bytes that were read, and after an error nothing has changed. -/
structure HandlesRead (r : Results) (ret : ReadReturn) (clientFd : Fd) (w : World)
    (c : Connection) : Prop where
  bytes : 0 < ret.bytesRead → (Signed.handleReadEvent r ret clientFd).run w =
    (Signed.parse r clientFd (c.incoming ++ ret.buf.take ret.bytesRead.toNat).length).run
      (readInto w clientFd c (ret.buf.take ret.bytesRead.toNat))
  error : ret.bytesRead = -1 → (Signed.handleReadEvent r ret clientFd).run w = .ok () w

variable {w : World} {clientFd : Fd} {c : Connection} {r : Results} {ret : ReadReturn}

/-! ## The outcomes -/

theorem result_of_pos (h : 0 < ret.bytesRead) :
    ret.result = .bytes (ret.buf.take ret.bytesRead.toNat) := by
  rw [ReadReturn.result, if_neg (Int.ne_of_gt h), if_neg (Int.not_lt.mpr (Int.le_of_lt h))]

theorem result_of_neg (h : ret.bytesRead = -1) : ret.result = .error ret.errno := by
  rw [ReadReturn.result, if_neg (by omega), if_pos (by omega)]

theorem run_insertRange (incoming : Bytes) (h : 0 ≤ ret.bytesRead) :
    (insertRange incoming ret.buf 0 ret.bytesRead).run w =
      .ok (incoming ++ ret.buf.take ret.bytesRead.toNat) w := by
  rw [insertRange, if_neg (Int.not_lt.mpr h), Int.sub_zero]
  rfl

theorem run_assign_received (h : w.connections clientFd = some c) (b : Bytes) :
    (assign clientFd { c with incoming := c.incoming ++ b }).run
      { w with kernel := w.kernel.read clientFd (.bytes b) } =
        .ok () (readInto w clientFd c b) := EventLoop.run_assign (by rw [h]; rfl) _

theorem run_handleReadEvent_pos (h : w.connections clientFd = some c) (hpos : 0 < ret.bytesRead) :
    (Signed.handleReadEvent r ret clientFd).run w =
      (Signed.parse r clientFd (c.incoming ++ ret.buf.take ret.bytesRead.toNat).length).run
        (readInto w clientFd c (ret.buf.take ret.bytesRead.toNat)) := by
  have hneg : ¬ (ret.bytesRead < 0 ∧ ret.errno.isAgain = true) := fun hn => absurd hn.1 (by omega)
  simp only [Signed.handleReadEvent, EStateM.run_bind, EventLoop.run_getConnection h, run_operation,
    Optimized.run_syscall, result_of_pos hpos, worldOf, if_neg (Int.ne_of_gt hpos), if_neg hneg,
    run_insertRange c.incoming (Int.le_of_lt hpos), run_assign_received h]

theorem run_handleReadEvent_again (h : w.connections clientFd = some c)
    (hneg : ret.bytesRead = -1) (he : ret.errno.isAgain = true) :
    (Signed.handleReadEvent r ret clientFd).run w = .ok () w := by
  have hagain : ret.bytesRead < 0 ∧ ret.errno.isAgain = true := ⟨by omega, he⟩
  have hne : ¬ ret.bytesRead = 0 := by omega
  simp only [Signed.handleReadEvent, EStateM.run_bind, EventLoop.run_getConnection h, run_operation,
    Optimized.run_syscall, result_of_neg hneg, worldOf, if_neg hne, if_pos hagain]
  rfl

/-- Any other error goes on to the insertion, of a range that ends before it begins. -/
theorem run_handleReadEvent_other (h : w.connections clientFd = some c)
    (hneg : ret.bytesRead = -1) (he : ret.errno.isAgain = false) :
    (Signed.handleReadEvent r ret clientFd).run w = .error .invalidRange w := by
  have hagain : ¬ (ret.bytesRead < 0 ∧ ret.errno.isAgain = true) := by
    rw [he]
    exact fun hn => Bool.noConfusion hn.2
  have hne : ¬ ret.bytesRead = 0 := by omega
  have hlt : ret.bytesRead < 0 := by omega
  simp only [Signed.handleReadEvent, EStateM.run_bind, EventLoop.run_getConnection h, run_operation,
    Optimized.run_syscall, result_of_neg hneg, worldOf, if_neg hne, if_neg hagain, insertRange,
    if_pos hlt]
  rfl

/-- **The signed count and the result of the call** lead to the same. -/
theorem run_handleReadEvent_eq (r : Results) (ret : ReadReturn) (clientFd : Fd) (w : World) :
    (Signed.handleReadEvent r ret clientFd).run w =
      (handleReadEvent { r with read := ret.result } clientFd).run w := by
  cases h : w.connections clientFd with
  | none =>
    simp only [Signed.handleReadEvent, handleReadEvent, readEvent, EStateM.run_bind,
      EventLoop.run_getConnection_none h]
  | some c =>
    have hlow := ret.neg_one_le
    rcases lt_trichotomy ret.bytesRead 0 with hlt | hzero | hpos
    · have hneg : ret.bytesRead = -1 := by omega
      have hres := result_of_neg hneg
      cases he : ret.errno.isAgain with
      | true =>
        rw [run_handleReadEvent_again h hneg he]
        exact (run_readEvent_again h hres he).symm
      | false =>
        rw [run_handleReadEvent_other h hneg he]
        exact (run_readEvent_error h hres he).symm
    · have hres : ret.result = .eof := if_pos hzero
      simp only [Signed.handleReadEvent, handleReadEvent, readEvent, EStateM.run_bind,
        EventLoop.run_getConnection h, run_operation, Optimized.run_syscall, hres, if_pos hzero]
    · rw [run_handleReadEvent_pos h hpos]
      simp only [handleReadEvent, readEvent, EStateM.run_bind, EventLoop.run_getConnection h,
        run_operation, Optimized.run_syscall, result_of_pos hpos, worldOf, run_assign_received h]
      rfl

/-- **When an outcome of `read` is handled**: exactly if it is no error, or one that asks to try
again. -/
theorem handlesRead_iff (r : Results) (ret : ReadReturn) (clientFd : Fd) (w : World)
    (c : Connection) (h : w.connections clientFd = some c) :
    HandlesRead r ret clientFd w c ↔ ¬ (ret.bytesRead = -1 ∧ ret.errno.isAgain = false) := by
  constructor
  · rintro hh ⟨hneg, he⟩
    have herror := hh.error hneg
    rw [run_handleReadEvent_other h hneg he] at herror
    cases herror
  · intro hother
    refine ⟨run_handleReadEvent_pos h, fun hneg => ?_⟩
    have he : ret.errno.isAgain = true := by
      by_contra hne
      exact hother ⟨hneg, Bool.eq_false_of_not_eq_true hne⟩
    exact run_handleReadEvent_again h hneg he

/-- A call of `read` that has failed. -/
def ReadReturn.failed (errno : Errno) : ReadReturn where
  bytesRead := -1
  errno := errno
  buf := List.replicate readBufferSize 0
  size_buf := List.length_replicate
  neg_one_le := Int.le_refl _
  le_size := by decide

/-- The server with one connection, on which nothing has been received. -/
def oneConnection : World := (World.init 3).setConn 7 ⟨7, [], []⟩

/-- System calls that ask to be tried again, and zeros on the stack. -/
def Results.again : Results where
  toResults := ⟨SysResults.again, .error .EAGAIN, ⟨0, [], []⟩⟩
  memory := fun _ => zeros

theorem oneConnection_connections : oneConnection.connections 7 = some ⟨7, [], []⟩ :=
  setConn_connections _

theorem handlesRead_of_again :
    HandlesRead .again (.failed .EAGAIN) 7 oneConnection ⟨7, [], []⟩ ↔
      ¬ ((-1 : ℤ) = -1 ∧ Errno.EAGAIN.isAgain = false) :=
  handlesRead_iff .again (.failed .EAGAIN) 7 oneConnection ⟨7, [], []⟩ oneConnection_connections

/-- After an error such as `ECONNRESET` a range is inserted that ends before it begins. -/
theorem read_error_inserts :
    ¬ HandlesRead .again (.failed .other) 7 oneConnection ⟨7, [], []⟩ := by
  intro h
  have hrun := h.error rfl
  rw [run_handleReadEvent_other oneConnection_connections rfl rfl] at hrun
  cases hrun

end Byor.KeyValue
