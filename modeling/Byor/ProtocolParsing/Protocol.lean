import Mathlib.Logic.Relation
import Byor.Foundations.Reader
import Byor.Foundations.Service
import Byor.EventLoop.Client

/-!
# The server that answers one request at a time, and its clients

`02_protocol_parsing/myserver.cpp` and `myclient.cpp`. The server accepts one connection after
another and answers its requests until a call fails, the other side has closed it, or a message is
announced that is too long. A client sends a text, waits for the reply, and only then sends the
next. All calls of `read` and `write` block; what lies between two calls is the state of a program.

* `OneRequest`, `System.serve`: `one_request` and the loops of `main` of the server.
* `Query`, `Client`: `query` and `main` of a client, for any list of texts.
* `Step`, `Failure`: the calls of all programs, and those that fail.
-/

namespace Byor.ProtocolParsing

open Wire
open Optimized (Bytes ascii lenFieldSize)
open EventLoop (WriteAll frames)

/-- `MAX_MSG_FIELD_SIZE` -/
def maxMsgFieldSize : ℕ := 16

/-- What is printed of an array of characters: those before the first zero. -/
def printed (buf : Bytes) : Bytes := buf.takeWhile (· ≠ 0)

/-! ## The server -/

/-- `reply` -/
def reply : Bytes := ascii "world\n"

/-- `wbuf` of `one_request` -/
def replyBuf : Bytes := leBytes lenFieldSize reply.length ++ reply

/-- `rbuf` of `one_request` when a message has been read: an array of zeros, in which the length and
the message were stored, and whose last element was set. -/
def rbuf (msg : Bytes) : Bytes :=
  ((leBytes lenFieldSize msg.length ++ msg).rightpad (lenFieldSize + maxMsgFieldSize + 1) 0).set
    (lenFieldSize + maxMsgFieldSize) 0

/-- `one_request` between two calls, or its result. -/
inductive OneRequest
  /-- In one of the calls of `read_full`. -/
  | read (r : Reader)
  /-- In `write_all`. -/
  | write (l : WriteAll)
  | returned (err : ℤ)

/-- `one_request` after a call of `read`. -/
def OneRequest.ofReader : Reader → OneRequest
  | .done _ => .write ⟨replyBuf, 0⟩
  | .refused => .returned (-1)
  | r => .read r

/-- `one_request` after a call of `write`. -/
def OneRequest.ofWriteAll (l : WriteAll) : OneRequest :=
  if l.bytesWritten < l.buf.length then .write l else .returned 0

/-- `one_request` when it is called. -/
def OneRequest.start : OneRequest := .ofReader (.start lenFieldSize maxMsgFieldSize)

/-- What `one_request` prints behind "client says:" after a call of `read`. -/
def saysAfter : Reader → List Bytes
  | .done msg => [printed ((rbuf msg).drop lenFieldSize)]
  | _ => []

/-! ## A client -/

/-- A string of the program, without the zero behind it. -/
structure CString where
  bytes : Bytes
  nonzero : ∀ b ∈ bytes, b ≠ 0

/-- `wbuf` of `query`: of the length, a `size_t`, the first four bytes are copied. -/
def wbuf (text : CString) : Bytes := (leBytes 8 text.bytes.length).take lenFieldSize ++ text.bytes

/-- `query` between two calls, or its result. -/
inductive Query
  /-- In `write_all`. -/
  | write (l : WriteAll)
  /-- In one of the calls of `read_full`. -/
  | read (r : Reader)
  | returned (err : ℤ)

/-- `query` after a call of `read`. -/
def Query.ofReader : Reader → Query
  | .done _ => .returned 0
  | .refused => .returned (-1)
  | r => .read r

/-- `query` after a call of `write`. -/
def Query.ofWriteAll (l : WriteAll) : Query :=
  if l.bytesWritten < l.buf.length then .write l
  else .ofReader (.start lenFieldSize maxMsgFieldSize)

/-- `query` when it is called. -/
def Query.call (text : CString) : Query :=
  if maxMsgFieldSize < text.bytes.length then .returned (-1) else .ofWriteAll ⟨wbuf text, 0⟩

/-- What `query` prints behind "server says " after a call of `read`: the message is followed by the
zero that was set behind it. -/
def showsAfter : Reader → List Bytes
  | .done msg => [printed (msg ++ [0])]
  | _ => []

/-- `main` of a client. -/
inductive Process
  /-- It has not called `connect` yet. -/
  | waiting
  | running (q : Query)
  | exited (code : ℕ)

/-- A client: the texts `query` has not been called for, and what was printed. -/
structure Client where
  texts : List CString
  process : Process
  shown : List Bytes

/-- `main` calls `query` for the next text. -/
def Client.next (c : Client) : Client :=
  match c.texts with
  | [] => { c with process := .exited 0 }
  | text :: texts =>
    match Query.call text with
    | .returned _ => { c with texts := texts, process := .exited 1 }
    | q => { c with texts := texts, process := .running q }

/-- `main`, with `query` in the state `q`. -/
def Client.resume (c : Client) (q : Query) : Client :=
  match q with
  | .returned err => if err = 0 then c.next else { c with process := .exited 1 }
  | q => { c with process := .running q }

/-! ## All of them -/

/-- A client and the bytes that have passed over its connection. -/
structure Link where
  client : Client
  /-- By the client's calls of `write`. -/
  sent : Bytes
  /-- By the server's calls of `read`. -/
  received : Bytes
  /-- By the server's calls of `write`. -/
  written : Bytes
  /-- By the client's calls of `read`. -/
  got : Bytes

/-- The clients and the server. -/
structure System (ι : Type) where
  link : ι → Link
  /-- The clients whose connections wait to be accepted. -/
  backlog : List ι
  /-- The connection the server has accepted, and its call of `one_request`. -/
  conn : Option (ι × OneRequest)
  /-- The connections the server has closed. -/
  closed : List ι
  /-- What the server has printed, and for which connection. -/
  said : List (ι × Bytes)

/-- No client has called `connect` yet. -/
def System.init {ι : Type} (texts : ι → List CString) : System ι where
  link i := ⟨⟨texts i, .waiting, []⟩, [], [], [], []⟩
  backlog := []
  conn := none
  closed := []
  said := []

namespace System

variable {ι : Type} [DecidableEq ι] (s : System ι) (i : ι)

def setLink (l : Link) : System ι := { s with link := Function.update s.link i l }

/-- `connect`, and the first call of `query`. -/
def connect : System ι :=
  { s.setLink i { s.link i with client := (s.link i).client.next } with
    backlog := s.backlog ++ [i] }

/-- A call of `write` in `write_all` of the client has returned `n`. -/
def clientWrite (l : WriteAll) (n : ℕ) : System ι :=
  s.setLink i { s.link i with
    client := (s.link i).client.resume (.ofWriteAll (l.wrote n))
    sent := (s.link i).sent ++ l.rest.take n }

/-- A call of `read` in `read_full` of the client has returned the bytes `b`. -/
def clientRead (r : Reader) (b : Bytes) : System ι :=
  let r' := r.feed lenFieldSize maxMsgFieldSize b
  let c := (s.link i).client
  s.setLink i { s.link i with
    client := { c with shown := c.shown ++ showsAfter r' }.resume (.ofReader r')
    got := (s.link i).got ++ b }

/-- A call of the client has failed. -/
def clientFails : System ι :=
  s.setLink i { s.link i with client := (s.link i).client.resume (.returned (-1)) }

/-- `accept` has returned the next connection. -/
def accept (rest : List ι) : System ι :=
  { s with backlog := rest, conn := some (i, .start) }

/-- `main` of the server, with `one_request` in the state `o`. -/
def serve (o : OneRequest) : System ι :=
  match o with
  | .returned err =>
    if err = 0 then { s with conn := some (i, .start) }
    else { s with conn := none, closed := s.closed ++ [i] }
  | o => { s with conn := some (i, o) }

/-- A call of `read` in `read_full` of the server has returned the bytes `b`. -/
def serverRead (r : Reader) (b : Bytes) : System ι :=
  let r' := r.feed lenFieldSize maxMsgFieldSize b
  { s.setLink i { s.link i with received := (s.link i).received ++ b } with
    said := s.said ++ (saysAfter r').map (i, ·) }.serve i (.ofReader r')

/-- A call of `write` in `write_all` of the server has returned `n`. -/
def serverWrite (l : WriteAll) (n : ℕ) : System ι :=
  (s.setLink i { s.link i with
    written := (s.link i).written ++ l.rest.take n }).serve i (.ofWriteAll (l.wrote n))

/-- A call of the server has failed, or returned `0` at the end of the stream. -/
def serverStops : System ι := s.serve i (.returned (-1))

end System

variable {ι : Type} [DecidableEq ι]

/-- The calls that do not fail. A call of `read` returns some of the bytes that are under way, and a
call of `write` takes some of the bytes it is given. -/
inductive Step : System ι → System ι → Prop
  | connect {s} (i : ι) (h : (s.link i).client.process = .waiting) : Step s (s.connect i)
  | clientWrite {s} (i : ι) {l n} (h : (s.link i).client.process = .running (.write l))
      (hn : 0 < n) (hle : n ≤ l.rest.length) : Step s (s.clientWrite i l n)
  | clientRead {s} (i : ι) {r b} (h : (s.link i).client.process = .running (.read r))
      (hne : b ≠ []) (hlen : b.length ≤ r.missing lenFieldSize)
      (hb : (s.link i).got ++ b <+: (s.link i).written) : Step s (s.clientRead i r b)
  /-- The server has closed the connection: `read` returns `0`, and the client calls it again. -/
  | clientEof {s} (i : ι) {r} (h : (s.link i).client.process = .running (.read r))
      (hclosed : i ∈ s.closed) (hall : (s.link i).got = (s.link i).written) : Step s s
  | accept {s} {i : ι} {rest} (h : s.conn = none) (hbacklog : s.backlog = i :: rest) :
      Step s (s.accept i rest)
  | serverRead {s} {i : ι} {r b} (h : s.conn = some (i, .read r)) (hne : b ≠ [])
      (hlen : b.length ≤ r.missing lenFieldSize)
      (hb : (s.link i).received ++ b <+: (s.link i).sent) : Step s (s.serverRead i r b)
  /-- The client has closed the connection: `read` returns `0`. -/
  | serverEof {s} {i : ι} {r code} (h : s.conn = some (i, .read r))
      (hexit : (s.link i).client.process = .exited code)
      (hall : (s.link i).received = (s.link i).sent) : Step s (s.serverStops i)
  | serverWrite {s} {i : ι} {l n} (h : s.conn = some (i, .write l)) (hn : 0 < n)
      (hle : n ≤ l.rest.length) : Step s (s.serverWrite i l n)

/-- The calls of `read` and `write` that fail. -/
inductive Failure : System ι → System ι → Prop
  | client {s} (i : ι) {q} (h : (s.link i).client.process = .running q) :
      Failure s (s.clientFails i)
  | server {s} {i : ι} {o} (h : s.conn = some (i, o)) : Failure s (s.serverStops i)

end Byor.ProtocolParsing
