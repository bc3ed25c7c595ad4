import Byor.Optimized.Commands

/-!
# The server and the kernel under it

The state the optimized server works on, and the operations of `EpollWrapper`
(`include/epollwrapper.h`) and of the kernel its handlers are made of.

* `World` is the server's own state (`g_data`, the table `connections_`) with the kernel's: which
  descriptors are open, the socket behind each, the bytes that went through it in either direction,
  and the interest registered with epoll. `executed` records the calls of `do_request`.
* A handler is a program over a `World` (`Handler`). A `Connection&` is the key of its entry in
  the table: references into `std::unordered_map` stay valid until the entry is erased. Using one
  after that is the fault `removedConnection`; the handler stops there, with the world as it stands.

The results of the system calls (`SysResults`) are chosen by the environment.
-/

namespace Byor.Optimized

open Wire

/-- A file descriptor, `int`. -/
abbrev Fd := ℤ

/-- `struct Connection` -/
structure Connection where
  fd : Fd
  incoming : Bytes
  outgoing : Bytes
  deriving DecidableEq, Repr

/-- A set of epoll flags, `uint32_t events`. -/
structure EventMask where
  epollin : Bool
  epollout : Bool
  epollerr : Bool
  epollhup : Bool
  deriving DecidableEq, Repr

/-- The flag `EPOLLIN` alone. -/
def EPOLLIN : EventMask := ⟨true, false, false, false⟩

/-- The flag `EPOLLOUT` alone. -/
def EPOLLOUT : EventMask := ⟨false, true, false, false⟩

/-- `struct epoll_event`: the flags reported for a descriptor. -/
structure Event where
  fd : Fd
  events : EventMask
  deriving DecidableEq, Repr

/-- What the kernel keeps. Sockets are numbered in the order they were accepted. -/
structure Kernel where
  /-- The descriptors that are open. -/
  isOpen : Fd → Bool
  /-- The socket behind a descriptor; behind a closed one, the last. -/
  socketOf : Fd → ℕ
  /-- The number of sockets accepted so far. -/
  accepted : ℕ
  /-- The bytes the server has read from a socket. -/
  received : ℕ → Bytes
  /-- The bytes the server has written to a socket. -/
  written : ℕ → Bytes
  /-- The interest registered for a descriptor. -/
  interest : Fd → Option EventMask
  /-- How many calls of `close` hit a descriptor that was not open. -/
  badCloses : ℕ

/-- A call of `do_request`: the socket it came from, the request and the response. -/
structure Execution where
  socket : ℕ
  request : Request
  resp : Response

/-- The server and the kernel. -/
structure World where
  serverFd : Fd
  gData : Store
  connections : Fd → Option Connection
  kernel : Kernel
  executed : List Execution

/-! ## Results of system calls -/

/-- `errno`, as far as the handlers look at it. -/
inductive Errno
  | EAGAIN
  | EWOULDBLOCK
  | other
  deriving DecidableEq, Repr

/-- The result of `read`: the bytes it put into the buffer, `0`, or `-1`. -/
inductive ReadResult
  | bytes (b : Bytes)
  | eof
  | error (errno : Errno)
  deriving DecidableEq, Repr

/-- The result of `write`: how many bytes the kernel was ready to take, or `-1`. -/
inductive WriteResult
  | wrote (n : ℕ)
  | error (errno : Errno)
  deriving DecidableEq, Repr

/-- What the system calls made while serving one event return. -/
structure SysResults where
  /-- The descriptor `accept` returns, or `-1`. -/
  accept : Fd
  /-- `fcntl(fd, F_GETFL)` -/
  getfl : ℤ
  /-- `fcntl(fd, F_SETFL, flags | O_NONBLOCK)` -/
  setfl : ℤ
  read : ReadResult
  write : WriteResult

/-! ## Handlers -/

/-- How a handler can leave the ground the source stands on. -/
inductive Fault
  /-- A `Connection` is used after its entry was erased from `connections_`. -/
  | removedConnection
  /-- `std::out_of_range("Connection not found")` -/
  | outOfRange
  deriving DecidableEq, Repr

/-- A program over the world; at a fault it stops with the world as it stands. -/
abbrev Handler := EStateM Fault World

/-- The result of a handler. -/
abbrev Result := EStateM.Result Fault World

/-- The world a handler leaves behind. -/
def worldOf {α : Type} : Result α → World
  | .ok _ w => w
  | .error _ w => w

/-- Read through a `Connection&`. -/
def deref (conn : Fd) : Handler Connection := do
  match (← get).connections conn with
  | some c => pure c
  | none => throw .removedConnection

/-- The world with the entry at `conn` replaced. -/
def World.setConn (w : World) (conn : Fd) (c : Connection) : World :=
  { w with connections := Function.update w.connections conn (some c) }

/-- Write through a `Connection&`. -/
def assign (conn : Fd) (c : Connection) : Handler Unit := do
  let _ ← deref conn
  modify fun w => w.setConn conn c

/-! ### System calls -/

/-- `read(fd, buf, READ_BUFFER_SIZE)` with the given result. -/
def Kernel.read (k : Kernel) (fd : Fd) : ReadResult → Kernel
  | .bytes b => { k with
      received := Function.update k.received (k.socketOf fd) (k.received (k.socketOf fd) ++ b) }
  | _ => k

/-- `write(fd, data, size)` that takes the first `n` of the bytes. -/
def Kernel.write (k : Kernel) (fd : Fd) (b : Bytes) : Kernel :=
  { k with written := Function.update k.written (k.socketOf fd) (k.written (k.socketOf fd) ++ b) }

/-- `accept`: a new socket behind the descriptor `fd`. -/
def Kernel.accept (k : Kernel) (fd : Fd) : Kernel :=
  { k with
    isOpen := Function.update k.isOpen fd true
    socketOf := Function.update k.socketOf fd k.accepted
    accepted := k.accepted + 1 }

/-- `close(fd)`. A descriptor that is not open is refused with `EBADF`. -/
def Kernel.close (k : Kernel) (fd : Fd) : Kernel :=
  if k.isOpen fd then
    { k with
      isOpen := Function.update k.isOpen fd false
      interest := Function.update k.interest fd none }
  else { k with badCloses := k.badCloses + 1 }

/-- `epoll_ctl(epoll_fd_, EPOLL_CTL_ADD, fd, &event)` -/
def Kernel.epollAdd (k : Kernel) (fd : Fd) (m : EventMask) : Kernel :=
  { k with interest := Function.update k.interest fd (some m) }

/-- `epoll_ctl(epoll_fd_, EPOLL_CTL_MOD, fd, &event)`. A descriptor that is not registered is
refused with `ENOENT`. -/
def Kernel.epollMod (k : Kernel) (fd : Fd) (m : EventMask) : Kernel :=
  { k with interest := Function.update k.interest fd ((k.interest fd).map fun _ => m) }

/-- `epoll_ctl(epoll_fd_, EPOLL_CTL_DEL, fd, nullptr)` -/
def Kernel.epollDel (k : Kernel) (fd : Fd) : Kernel :=
  { k with interest := Function.update k.interest fd none }

/-- A system call: it changes the kernel's state only. -/
def syscall (f : Kernel → Kernel) : Handler Unit := modify fun w => { w with kernel := f w.kernel }

/-! ### `EpollWrapper` -/

/-- `monitor` -/
def monitor (fd : Fd) : Handler Unit := syscall fun k => k.epollAdd fd EPOLLIN

/-- `unmonitor` -/
def unmonitor (fd : Fd) : Handler Unit := syscall fun k => k.epollDel fd

/-- `add_conn_impl` -/
def addConn (fd : Fd) : Handler Unit := do
  if ((← get).connections fd).isSome then return
  modify fun w => w.setConn fd ⟨fd, [], []⟩
  monitor fd

/-- `remove_conn_impl` -/
def removeConn (fd : Fd) : Handler Unit := do
  if ((← get).connections fd).isNone then return
  modify fun w => { w with connections := Function.update w.connections fd none }
  unmonitor fd

/-- `modify_conn_impl` -/
def modifyConn (fd : Fd) (eventFlags : EventMask) : Handler Unit :=
  syscall fun k => k.epollMod fd eventFlags

/-- `get_connection_impl`: a reference to the entry of `fd`. -/
def getConnection (fd : Fd) : Handler Fd := do
  match (← get).connections fd with
  | some _ => pure fd
  | none => throw .outOfRange

end Byor.Optimized
