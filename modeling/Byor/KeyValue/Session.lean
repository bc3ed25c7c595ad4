import Mathlib.Logic.Relation
import Byor.EventLoop.Client

/-!
# A session of the client

`send_request` of the client of the first key-value server (`04_key_value_server/src/client.cpp`),
over all the calls a process makes. Its `write_all` is the one of the echo server's client; unlike
there, a static flag has the first call that passes the size check put one byte in front of its
frame.

* `Inv`: what has been sent at every moment of a session.
* `session_framed_iff`: what a session puts on the connection splits back into its requests exactly
  if the flag is down already, or nothing is sent.
-/

namespace Byor.KeyValue

open Wire Optimized
open EventLoop (WriteAll Valid frames echoDecoder takes_frames map_payload_map frames_append
  frames_cons frames_nil)

/-- `send_request`: the buffer it hands to `write_all`, or `none` if it refuses, and the static
`send_once`. Of the length, a `size_t`, it inserts the first four bytes. -/
def sendRequest (sendOnce : Bool) (request : Bytes) : Option Bytes × Bool :=
  if maxMsgFieldSize < request.length then (none, sendOnce)
  else
    let wbuf : Bytes := if sendOnce then [5] else []
    (some (wbuf ++ (leBytes 8 request.length).take Optimized.lenFieldSize ++ request), false)

/-- A process between two calls of `write`: the static flag, the requests for which `send_request`
is still to be called, the loop of the last call, and the bytes on the connection. -/
structure Session where
  sendOnce : Bool
  requests : List Bytes
  loop : WriteAll
  sent : Bytes
  deriving DecidableEq, Repr

namespace Session

/-- Before the first of the calls. -/
def start (sendOnce : Bool) (requests : List Bytes) : Session := ⟨sendOnce, requests, ⟨[], 0⟩, []⟩

/-- The next call of `send_request`. -/
def next (s : Session) : Session :=
  match s.requests with
  | [] => s
  | q :: requests =>
    match sendRequest s.sendOnce q with
    | (none, sendOnce) => { s with sendOnce := sendOnce, requests := requests }
    | (some wbuf, sendOnce) =>
      { s with sendOnce := sendOnce, requests := requests, loop := ⟨wbuf, 0⟩ }

/-- A call of `write` has taken `n` bytes. -/
def wrote (s : Session) (n : ℕ) : Session :=
  { s with loop := s.loop.wrote n, sent := s.sent ++ s.loop.rest.take n }

/-- All the calls have returned. -/
def Finished (s : Session) : Prop := s.requests = [] ∧ s.loop.rest = []

instance (s : Session) : Decidable s.Finished := inferInstanceAs (Decidable (_ ∧ _))

/-- The steps of a session: the next call of `send_request` when the last one has returned, and the
calls of `write`, each of which may take any part of what it is given. -/
inductive Step : Session → Session → Prop
  | sendRequest {s : Session} (hdone : s.loop.rest = []) : Step s s.next
  | write {s : Session} (n : ℕ) (hn : n ≤ s.loop.rest.length) : Step s (s.wrote n)

/-- The runs of a session. -/
abbrev Run (sendOnce : Bool) (requests : List Bytes) : Session → Prop :=
  Relation.ReflTransGen Step (start sendOnce requests)

/-- The bytes on the connection are the frames of the requests, and are split back into them. -/
def Framed (requests : List Bytes) (s : Session) : Prop :=
  s.sent = frames requests ∧ (echoDecoder.drain s.sent).1.map Record.payload = requests ∧
    (echoDecoder.drain s.sent).2 = []

/-- The byte in front of the first frame. -/
def marker (sendOnce : Bool) (called : List Bytes) : Bytes :=
  if sendOnce = true ∧ called ≠ [] then [5] else []

/-- **What holds at every moment**: the requests for which `send_request` was called have been sent,
or are still in the loop. -/
def Inv (sendOnce : Bool) (requests : List Bytes) (s : Session) : Prop :=
  ∃ called, requests = called ++ s.requests ∧
    s.sent ++ s.loop.rest = marker sendOnce called ++ frames called ∧
    s.sendOnce = (sendOnce && called.isEmpty)

variable {sendOnce : Bool} {requests : List Bytes} {s s' : Session} {q : Bytes}

/-! ## Steps -/

/-- The first four bytes of the length are the header of a request within the limit. -/
theorem sendRequest_eq (h : q.length ≤ maxMsgFieldSize) : KeyValue.sendRequest sendOnce q =
    (some ((if sendOnce then [5] else []) ++ record Optimized.lenFieldSize q), false) := by
  rw [KeyValue.sendRequest, if_neg (Nat.not_lt.mpr h), record, ← List.append_assoc]
  rfl

theorem next_cons (hq : s.requests = q :: requests) (h : q.length ≤ maxMsgFieldSize) :
    s.next = ⟨false, requests,
      ⟨(if s.sendOnce then [5] else []) ++ record Optimized.lenFieldSize q, 0⟩,
      s.sent⟩ := by
  simp only [next, hq, sendRequest_eq h]

/-- The byte is put in front of the frame of the first call. -/
theorem marker_append (called : List Bytes) (q : Bytes) :
    marker sendOnce (called ++ [q]) ++ frames (called ++ [q]) =
      marker sendOnce called ++ frames called ++
        ((if sendOnce && called.isEmpty then [5] else []) ++ record Optimized.lenFieldSize q) := by
  rw [frames_append, frames_cons, frames_nil, List.append_nil]
  cases called with
  | nil => cases sendOnce <;> rfl
  | cons p called =>
    cases sendOnce with
    | false => rfl
    | true =>
      rw [List.append_assoc]
      rfl

theorem inv_start (sendOnce : Bool) (requests : List Bytes) :
    Inv sendOnce requests (start sendOnce requests) := by
  refine ⟨[], rfl, ?_, (Bool.and_true sendOnce).symm⟩
  cases sendOnce <;> rfl

theorem Inv.sendRequest (h : Inv sendOnce requests s) (hv : Valid requests)
    (hdone : s.loop.rest = []) : Inv sendOnce requests s.next := by
  obtain ⟨called, hreq, hsent, honce⟩ := id h
  cases hq : s.requests with
  | nil =>
    have hsame : s.next = s := by simp only [next, hq]
    rwa [hsame]
  | cons q rest =>
    have hmax : q.length ≤ maxMsgFieldSize := hv q (by rw [hreq, hq]; simp)
    rw [next_cons hq hmax]
    refine ⟨called ++ [q], by rw [hreq, hq, List.append_assoc]; rfl, ?_, ?_⟩
    · rw [hdone, List.append_nil] at hsent
      rw [marker_append, ← honce, ← hsent]
      rfl
    · simp

theorem Inv.wrote (h : Inv sendOnce requests s) (n : ℕ) : Inv sendOnce requests (s.wrote n) := by
  obtain ⟨called, hreq, hsent, honce⟩ := id h
  refine ⟨called, hreq, ?_, honce⟩
  rw [← hsent]
  change s.sent ++ s.loop.rest.take n ++ s.loop.buf.drop (s.loop.bytesWritten + n) = _
  rw [← List.drop_drop, List.append_assoc]
  exact congrArg (s.sent ++ ·) (List.take_append_drop n s.loop.rest)

theorem Inv.step (h : Inv sendOnce requests s) (hv : Valid requests) (hs : Step s s') :
    Inv sendOnce requests s' := by
  cases hs with
  | sendRequest hdone => exact h.sendRequest hv hdone
  | write n hn => exact h.wrote n

theorem inv_of_run (hv : Valid requests) (h : Run sendOnce requests s) :
    Inv sendOnce requests s := by
  induction h with
  | refl => exact inv_start sendOnce requests
  | tail _ hs ih => exact ih.step hv hs

/-! ## Sessions -/

/-- What a session has put on the connection when all the calls have returned. -/
theorem sent_of_finished (hv : Valid requests) (h : Run sendOnce requests s) (hf : s.Finished) :
    s.sent = marker sendOnce requests ++ frames requests := by
  obtain ⟨called, hreq, hsent, -⟩ := inv_of_run hv h
  rw [hf.1, List.append_nil] at hreq
  rw [hf.2, List.append_nil] at hsent
  rw [hreq, hsent]

theorem framed_of_sent (hv : Valid requests) (h : s.sent = frames requests) :
    Framed requests s := by
  have htakes := takes_frames hv []
  rw [List.append_nil, ← h] at htakes
  have hdrain := echoDecoder.drain_eq_of_takes htakes (framing_next_nil _)
  refine ⟨h, ?_, by rw [hdrain]⟩
  rw [hdrain]
  exact map_payload_map requests

/-- **When a session is framed**: for every sequence of requests within the limit and any short
writes, the bytes on the connection are the frames of the requests, and split back into them,
exactly if the process has lowered the flag before, or there is no request. -/
theorem session_framed_iff (sendOnce : Bool) (requests : List Bytes) (hv : Valid requests)
    (s : Session) (h : Run sendOnce requests s) (hf : s.Finished) :
    Framed requests s ↔ sendOnce = false ∨ requests = [] := by
  have hsent := sent_of_finished hv h hf
  constructor
  · rintro ⟨hframes, -⟩
    by_contra hflag
    push Not at hflag
    obtain ⟨honce, hne⟩ := hflag
    rw [marker, if_pos ⟨Bool.eq_true_of_not_eq_false honce, hne⟩, hframes] at hsent
    have hlen := congrArg List.length hsent
    rw [List.length_append, List.length_singleton] at hlen
    omega
  · intro hflag
    refine framed_of_sent hv ?_
    rw [hsent, marker, if_neg, List.nil_append]
    rintro ⟨honce, hne⟩
    rcases hflag with hdown | hnil
    · rw [honce] at hdown
      cases hdown
    · exact hne hnil

theorem valid_get : Valid [ascii "get"] := by
  unfold Valid
  decide

/-- A session with the request `get`, written in two pieces. -/
theorem run_get (sendOnce : Bool) : Run sendOnce [ascii "get"]
    ((((start sendOnce [ascii "get"]).next).wrote 3).wrote
      (if sendOnce then 5 else 4)) := by
  refine .tail (.tail (.tail .refl (.sendRequest rfl)) (.write 3 ?_)) (.write _ ?_)
  · cases sendOnce <;> decide
  · cases sendOnce <;> decide

theorem session_framed_get : Framed [ascii "get"]
    ((((start false [ascii "get"]).next).wrote 3).wrote 4) ↔ false = false ∨ [ascii "get"] = [] :=
  session_framed_iff false [ascii "get"] valid_get _ (run_get false) (by decide)

/-- The first request of a process is not framed. -/
theorem session_not_framed :
    ¬ ∀ requests, Valid requests → ∀ s, Run true requests s → s.Finished → Framed requests s := by
  intro h
  have hframed := h [ascii "get"] valid_get _ (run_get true) (by decide)
  exact absurd hframed.1 (by decide)

end Session

end Byor.KeyValue
