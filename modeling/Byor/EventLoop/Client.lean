import Byor.EventLoop.Server

/-!
# The client of the echo server

The loops of `03_event_loop/src/client.cpp`, which may be interrupted at any call of `write` or
`read`: the state of a loop is what it holds between two calls.

* `WriteAll`, `sendRequest`, `Sender`: `write_all`, `send_request` and the calls of it in `main`.
* `ReadFull`, `ReadResponse`, `Receiver`: `read_full`, `read_response` and the calls of it in
  `main`.
* `drain_of_part`: part of a stream of valid frames is taken apart into some of the payloads, and
  no header in it is above the limit.
* `Reads.read`: what a receiver has made of the bytes it was given, byte for byte.
-/

namespace Byor.EventLoop

open Wire Optimized

/-! ## Sending -/

/-- `write_all` between two calls of `write`. -/
structure WriteAll where
  buf : Bytes
  bytesWritten : ℕ
  deriving DecidableEq, Repr

/-- The bytes the next call of `write` is given. The loop is done when there are none. -/
def WriteAll.rest (l : WriteAll) : Bytes := l.buf.drop l.bytesWritten

/-- A call of `write` has returned `num_written`. -/
def WriteAll.wrote (l : WriteAll) (numWritten : ℕ) : WriteAll :=
  { l with bytesWritten := l.bytesWritten + numWritten }

/-- `send_request`: the buffer it hands to `write_all`, or `none` if it refuses. Of the length, a
`size_t`, it inserts the first four bytes. -/
def sendRequest (request : Bytes) : Option Bytes :=
  if maxMsgFieldSize < request.length then none
  else some ((leBytes 8 request.length).take lenFieldSize ++ request)

/-- `main` while it sends: the queries for which `send_request` is still to be called, and the loop
of the last call. -/
structure Sender where
  queries : List Bytes
  loop : WriteAll
  deriving DecidableEq, Repr

/-- The next call of `send_request`. -/
def Sender.next (s : Sender) : Sender :=
  match s.queries with
  | [] => s
  | q :: queries =>
    match sendRequest q with
    | none => { s with queries := queries }
    | some wbuf => ⟨queries, ⟨wbuf, 0⟩⟩

/-- The first four bytes of the length are its header. -/
theorem sendRequest_eq {request : Bytes} (h : request.length ≤ maxMsgFieldSize) :
    sendRequest request = some (record lenFieldSize request) := by
  rw [sendRequest, if_neg (Nat.not_lt.mpr h)]
  rfl

/-! ## Receiving -/

/-- `read_full` between two calls of `read`, with the bytes it has read. -/
structure ReadFull where
  numToRead : ℕ
  buf : Bytes
  deriving DecidableEq, Repr

/-- `read_response` between two calls of `read`, or its result. -/
inductive ReadResponse
  | len (l : ReadFull)
  | data (l : ReadFull)
  | done (data : Bytes)
  | failed
  deriving DecidableEq, Repr

/-- `read_response` in the loop that reads the data. -/
def ReadResponse.ofData (l : ReadFull) : ReadResponse :=
  if l.buf.length < l.numToRead then .data l else .done l.buf

/-- `read_response` in the loop that reads the length. -/
def ReadResponse.ofLen (l : ReadFull) : ReadResponse :=
  if l.buf.length < l.numToRead then .len l
  else
    let dataLen := leVal l.buf
    if maxMsgFieldSize < dataLen then .failed else .ofData ⟨dataLen, []⟩

/-- `read_response` when it is called. -/
def ReadResponse.start : ReadResponse := .ofLen ⟨lenFieldSize, []⟩

/-- A call of `read` has returned the bytes `b`. -/
def ReadResponse.read (b : Bytes) : ReadResponse → ReadResponse
  | .len l => .ofLen { l with buf := l.buf ++ b }
  | .data l => .ofData { l with buf := l.buf ++ b }
  | r => r

/-- How many bytes the next call of `read` asks for. -/
def ReadResponse.missing : ReadResponse → ℕ
  | .len l => l.numToRead - l.buf.length
  | .data l => l.numToRead - l.buf.length
  | _ => 0

/-- `main` while it receives: the call of `read_response` that is running, and the results of those
before it. -/
structure Receiver where
  current : ReadResponse
  results : List (Option Bytes)
  deriving DecidableEq, Repr

/-- A call of `read` has returned the bytes `b`. -/
def Receiver.read (b : Bytes) (s : Receiver) : Receiver :=
  match s.current.read b with
  | .done data => ⟨.start, s.results ++ [some data]⟩
  | .failed => ⟨.start, s.results ++ [none]⟩
  | current => ⟨current, s.results⟩

/-! ## Streams of valid frames -/

section

variable {queries responses : List Bytes} {xs b got : Bytes} {s : Receiver}

/-- Payloads within the limit. -/
def Valid (queries : List Bytes) : Prop := ∀ q ∈ queries, q.length ≤ maxMsgFieldSize

theorem takes_frames (h : Valid queries) (rest : Bytes) :
    echoDecoder.Takes (frames queries ++ rest) (queries.map fun q => ⟨q, ()⟩) rest := by
  have haccept : ∀ f ∈ queries.map fun q => (⟨q, ()⟩ : Record Unit),
      f.payload.length < 256 ^ lenFieldSize ∧ acceptEcho f.payload = some f.value := by
    intro f hf
    obtain ⟨q, hq, rfl⟩ := List.mem_map.mp hf
    exact ⟨lt_of_le_maxMsgFieldSize (h q hq), if_neg (Nat.not_lt.mpr (h q hq))⟩
  have htakes := takes_records (by decide) _ haccept rest
  rwa [List.map_map] at htakes

theorem map_payload_map (queries : List Bytes) :
    (queries.map fun q => (⟨q, ()⟩ : Record Unit)).map Record.payload = queries := by
  rw [List.map_map]
  exact List.map_id' queries

/-- What frames contain is taken off first. -/
theorem prefix_drain_frames_append (h : Valid responses) (rest : Bytes) :
    responses <+: (echoDecoder.drain (frames responses ++ rest)).1.map Record.payload := by
  obtain ⟨cs, hcs, -⟩ := (takes_frames h rest).of_drain
  rw [hcs, List.map_append, map_payload_map]
  exact List.prefix_append ..

/-- **Part of a stream of valid frames** is taken apart into some of the payloads, and no header in
it is above the limit. -/
theorem drain_of_part (h : Valid queries) (hxs : xs <+: frames queries) :
    (echoDecoder.drain xs).1.map Record.payload <+: queries ∧
      ¬ OverLimit (echoDecoder.drain xs).2 := by
  obtain ⟨ys, hys⟩ := hxs
  have hall := takes_frames h []
  rw [List.append_nil, ← hys] at hall
  have hdrain := (echoDecoder.drain_append xs ys).symm.trans
    (echoDecoder.drain_eq_of_takes hall (framing_next_nil _))
  obtain ⟨hfirst, hrest⟩ := Prod.mk.inj hdrain
  constructor
  · rw [← map_payload_map queries, ← hfirst, List.map_append]
    exact List.prefix_append ..
  · intro ho
    have hnext := next_echo_eq_none (ho.append ys).not_startsComplete
    rw [echoDecoder.drain_of_none hnext] at hrest
    have hlen := (ho.append ys).1
    rw [show (echoDecoder.drain xs).2 ++ ys = [] from hrest] at hlen
    exact absurd hlen (by decide)

/-! ## What a receiver has read -/

/-- The bytes the running call of `read_response` has read. -/
def ReadResponse.consumed : ReadResponse → Bytes
  | .len l => l.buf
  | .data l => leBytes lenFieldSize l.numToRead ++ l.buf
  | .done response => record lenFieldSize response
  | .failed => []

/-- The call is waiting for bytes. -/
def ReadResponse.Waiting : ReadResponse → Prop
  | .len l => l.numToRead = lenFieldSize ∧ l.buf.length < l.numToRead
  | .data l => l.numToRead ≤ maxMsgFieldSize ∧ l.buf.length < l.numToRead
  | _ => False

/-- The call is waiting for bytes, or it has returned a response. -/
def ReadResponse.Ok (r : ReadResponse) : Prop :=
  r.Waiting ∨ ∃ response, r = .done response ∧ response.length ≤ maxMsgFieldSize

theorem ofData_ok {l : ReadFull} (hmax : l.numToRead ≤ maxMsgFieldSize)
    (hlen : l.buf.length ≤ l.numToRead) : (ReadResponse.ofData l).Ok ∧
      (ReadResponse.ofData l).consumed = leBytes lenFieldSize l.numToRead ++ l.buf := by
  unfold ReadResponse.ofData
  split
  · rename_i hlt
    exact ⟨.inl ⟨hmax, hlt⟩, rfl⟩
  · rename_i hge
    have heq : l.buf.length = l.numToRead := by omega
    exact ⟨.inr ⟨l.buf, rfl, heq ▸ hmax⟩, by rw [← heq]; rfl⟩

theorem ofLen_ok {l : ReadFull} (hnum : l.numToRead = lenFieldSize)
    (hlen : l.buf.length ≤ l.numToRead) (ho : ¬ OverLimit l.buf) :
    (ReadResponse.ofLen l).Ok ∧ (ReadResponse.ofLen l).consumed = l.buf := by
  unfold ReadResponse.ofLen
  split
  · rename_i hlt
    exact ⟨.inl ⟨hnum, hlt⟩, rfl⟩
  · rename_i hge
    have heq : l.buf.length = lenFieldSize := by omega
    have hmax : leVal l.buf ≤ maxMsgFieldSize := by
      by_contra hgt
      refine ho ⟨heq.ge, ?_⟩
      rw [dataLen, List.take_of_length_le heq.le]
      exact Nat.lt_of_not_le hgt
    obtain ⟨hok, hconsumed⟩ := ofData_ok (l := ⟨leVal l.buf, []⟩) hmax (Nat.zero_le _)
    simp only [if_neg (Nat.not_lt.mpr hmax)]
    refine ⟨hok, ?_⟩
    rw [hconsumed, List.append_nil, ← heq]
    exact leBytes_leVal l.buf

/-- A call that is given no more bytes than it asked for has consumed them. -/
theorem ReadResponse.Waiting.read {r : ReadResponse} (h : r.Waiting) (hlen : b.length ≤ r.missing)
    (ho : ¬ OverLimit (r.consumed ++ b)) :
    (r.read b).Ok ∧ (r.read b).consumed = r.consumed ++ b := by
  cases r with
  | len l =>
    obtain ⟨hnum, hlt⟩ := h
    change b.length ≤ l.numToRead - l.buf.length at hlen
    have hfull : (l.buf ++ b).length ≤ l.numToRead := by
      rw [List.length_append]
      omega
    exact ofLen_ok hnum hfull ho
  | data l =>
    obtain ⟨hmax, hlt⟩ := h
    change b.length ≤ l.numToRead - l.buf.length at hlen
    have hfull : (l.buf ++ b).length ≤ l.numToRead := by
      rw [List.length_append]
      omega
    obtain ⟨hok, hconsumed⟩ := ofData_ok (l := { l with buf := l.buf ++ b }) hmax hfull
    exact ⟨hok, hconsumed.trans (List.append_assoc ..).symm⟩
  | done response => exact h.elim
  | failed => exact h.elim

/-- **A receiver that was given the bytes `got`** has returned the responses, and holds the rest. -/
structure Reads (s : Receiver) (responses : List Bytes) (got : Bytes) : Prop where
  valid : Valid responses
  results : s.results = responses.map some
  waiting : s.current.Waiting
  got : got = frames responses ++ s.current.consumed

theorem start_waiting : ReadResponse.start.Waiting := ⟨rfl, by decide⟩

theorem start_consumed : ReadResponse.start.consumed = [] := rfl

/-- The bytes of a receiver that is fed from a stream of valid frames hold no header above the
limit. -/
theorem Reads.not_overLimit (h : Reads s responses got) (hq : Valid queries)
    (hpre : got ++ b <+: frames queries) : ¬ OverLimit (s.current.consumed ++ b) := by
  intro ho
  have hnone := next_echo_eq_none ho.not_startsComplete
  have hdrain := echoDecoder.drain_eq_of_takes
    (takes_frames h.valid (s.current.consumed ++ b)) hnone
  rw [← List.append_assoc, ← h.got] at hdrain
  have hlim := (drain_of_part hq hpre).2
  rw [hdrain] at hlim
  exact hlim ho

/-- **A read of a receiver**, fed from a stream of valid frames. -/
theorem Reads.read (h : Reads s responses got) (hq : Valid queries)
    (hlen : b.length ≤ s.current.missing) (hpre : got ++ b <+: frames queries) :
    ∃ responses', Reads (s.read b) responses' (got ++ b) := by
  obtain ⟨hok, hconsumed⟩ := h.waiting.read hlen (h.not_overLimit hq hpre)
  have hgot : got ++ b = frames responses ++ (s.current.read b).consumed := by
    rw [hconsumed, ← List.append_assoc, ← h.got]
  unfold Receiver.read
  rcases hok with hwaiting | ⟨response, hdone, hmax⟩
  · refine ⟨responses, ?_⟩
    cases hr : s.current.read b <;> rw [hr] at hwaiting hgot
    case len l => exact ⟨h.valid, h.results, hwaiting, hgot⟩
    case data l => exact ⟨h.valid, h.results, hwaiting, hgot⟩
    case done response => exact hwaiting.elim
    case failed => exact hwaiting.elim
  · refine ⟨responses ++ [response], ?_⟩
    rw [hdone] at hgot ⊢
    refine ⟨?_, ?_, start_waiting, ?_⟩
    · intro q hmem
      rcases List.mem_append.mp hmem with hmem | hmem
      · exact h.valid q hmem
      · obtain rfl := List.mem_singleton.mp hmem
        exact hmax
    · simp [h.results]
    · rw [hgot, frames_append, start_consumed]
      simp [ReadResponse.consumed]

/-- What a receiver has returned is what was sent first. -/
theorem Reads.prefix_queries (h : Reads s responses got) (hq : Valid queries)
    (hpre : got <+: frames queries) : responses <+: queries := by
  have hresponses := prefix_drain_frames_append h.valid s.current.consumed
  rw [← h.got] at hresponses
  exact hresponses.trans (drain_of_part hq hpre).1

end

end Byor.EventLoop
