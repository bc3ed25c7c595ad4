import Mathlib.Logic.Relation
import Byor.Foundations.Linearizable
import Byor.Optimized.Client
import Byor.Optimized.Limits
import Byor.Optimized.ResponseStream
import Byor.Optimized.RoundTrip
import Byor.Optimized.Turn

/-!
# The optimized server and its clients

Any number of clients are connected to the optimized server. A client serializes lists of strings
and sends them, as many as it likes before it reads; what the server writes comes back to it in
pieces, and it takes replies off by their length fields. The server serves its events in between,
each read returns some of the bytes that are under way, and connections may be lost. `NetworkRun` is
the runs of all of this, with what the clients have seen. The lists of strings keep to the limits of
the server (`Sendable`); `serialize` checks neither.

* `linearizable_of_network`: the server is a linearizable key-value map.
* `answered_of_network`: when nothing is under way between the server and a client, all its
  commands were carried out and answered.
-/

namespace Byor.Optimized

open Wire Relation
open KeyValue (Reply reply replyDecoder toRecord)

/-- What the key-value server is for. -/
def keyValueObject : Object Store (List Bytes) Reply where
  start := Store.empty
  apply gData cmd := ((doRequest gData cmd .init).1, reply (doRequest gData cmd .init).2)

/-- The commands of a log, each with the socket it came from. -/
def commandsOf (log : List Execution) : List (ℕ × List Bytes) :=
  log.map fun e => (e.socket, e.cmd)

/-- The server, the clients and what is between them. Clients have the numbers of their sockets. -/
structure Network where
  world : World
  /-- The bytes a client has sent. -/
  outbox : ℕ → Bytes
  /-- The bytes that have come back to a client. -/
  delivered : ℕ → Bytes
  /-- Those of them that it has not read as replies yet. -/
  inbox : ℕ → Bytes
  /-- The lists of strings that were sent and the replies that were read, in order. -/
  seen : List (Action ℕ (List Bytes) Reply)

/-- The server is about to wait for the first time. -/
def Network.init (serverFd : Fd) : Network where
  world := World.init serverFd
  outbox := fun _ => []
  delivered := fun _ => []
  inbox := fun _ => []
  seen := []

/-- `send_message` of the client `s`. Its socket is a blocking one, `send` takes everything. -/
def Network.sendMessage (n : Network) (s : ℕ) (msg : List Bytes) (frame : Bytes) : Network :=
  { n with
    outbox := Function.update n.outbox s (n.outbox s ++ frame)
    seen := n.seen ++ [.call s msg] }

/-- Bytes come back to the client `s`. -/
def Network.deliver (n : Network) (s : ℕ) (b : Bytes) : Network :=
  { n with
    delivered := Function.update n.delivered s (n.delivered s ++ b)
    inbox := Function.update n.inbox s (n.inbox s ++ b) }

/-- The client `s` reads a reply. -/
def Network.readReply (n : Network) (s : ℕ) (f : Record Reply) (rest : Bytes) : Network :=
  { n with
    inbox := Function.update n.inbox s rest
    seen := n.seen ++ [.ret s f.value] }

/-- The server serves an event. -/
def Network.serve (n : Network) (event : Event) (r : SysResults) : Network :=
  { n with world := afterEvent event r n.world }

theorem update_append (f : ℕ → Bytes) (s s' : ℕ) (b : Bytes) :
    Function.update f s (f s ++ b) s' = f s' ++ if s = s' then b else [] := by
  by_cases hs : s = s'
  · subst hs
    rw [Function.update_self, if_pos rfl]
  · rw [Function.update_of_ne (Ne.symm hs), if_neg hs, List.append_nil]

theorem sendMessage_outbox (n : Network) (s s' : ℕ) (msg : List Bytes) (frame : Bytes) :
    (n.sendMessage s msg frame).outbox s' = n.outbox s' ++ if s = s' then frame else [] :=
  update_append ..

theorem deliver_delivered (n : Network) (s s' : ℕ) (b : Bytes) :
    (n.deliver s b).delivered s' = n.delivered s' ++ if s = s' then b else [] := update_append ..

theorem deliver_inbox (n : Network) (s s' : ℕ) (b : Bytes) :
    (n.deliver s b).inbox s' = n.inbox s' ++ if s = s' then b else [] := update_append ..

theorem readReply_inbox (n : Network) (s : ℕ) (f : Record Reply) (rest : Bytes) :
    (n.readReply s f rest).inbox s = rest := Function.update_self ..

theorem readReply_inbox_ne {s s' : ℕ} (h : s' ≠ s) (n : Network) (f : Record Reply)
    (rest : Bytes) : (n.readReply s f rest).inbox s' = n.inbox s' := Function.update_of_ne h ..

/-- The runs of the server and its clients, with the events that are still to be served. `Wait`
holds of the batches `epoll_wait` may return. -/
inductive NetworkRun (Wait : World → List Event → Prop) (serverFd : Fd) :
    Network → List Event → Prop
  | start : NetworkRun Wait serverFd (Network.init serverFd) []
  | wait {n batch} (h : NetworkRun Wait serverFd n []) (hb : Wait n.world batch) :
      NetworkRun Wait serverFd n batch
  /-- What is read has been sent. -/
  | serve {n event events r} (h : NetworkRun Wait serverFd n (event :: events))
      (ha : r.Allowed n.world)
      (hr : ∀ s, (n.serve event r).world.kernel.received s <+: n.outbox s) :
      NetworkRun Wait serverFd (n.serve event r) events
  | sendMessage {n events} (h : NetworkRun Wait serverFd n events) (s : ℕ) {msg frame}
      (hmsg : Sendable msg) (hframe : serialize msg = some frame) :
      NetworkRun Wait serverFd (n.sendMessage s msg frame) events
  /-- What comes back has been written. -/
  | deliver {n events} (h : NetworkRun Wait serverFd n events) (s : ℕ) (b : Bytes)
      (hb : n.delivered s ++ b <+: n.world.kernel.written s) :
      NetworkRun Wait serverFd (n.deliver s b) events
  | readReply {n events} (h : NetworkRun Wait serverFd n events) (s : ℕ) {f rest}
      (hf : replyDecoder.next (n.inbox s) = some (f, rest)) :
      NetworkRun Wait serverFd (n.readReply s f rest) events

/-- One step of a run, from a network with events that are still to be served to another. -/
inductive NetworkStep (Wait : World → List Event → Prop) :
    Network × List Event → Network × List Event → Prop
  | wait {n batch} (hb : Wait n.world batch) : NetworkStep Wait (n, []) (n, batch)
  | serve {n event events r} (ha : r.Allowed n.world)
      (hr : ∀ s, (n.serve event r).world.kernel.received s <+: n.outbox s) :
      NetworkStep Wait (n, event :: events) (n.serve event r, events)
  | sendMessage {n events} (s : ℕ) {msg frame} (hmsg : Sendable msg)
      (hframe : serialize msg = some frame) :
      NetworkStep Wait (n, events) (n.sendMessage s msg frame, events)
  | deliver {n events} (s : ℕ) (b : Bytes)
      (hb : n.delivered s ++ b <+: n.world.kernel.written s) :
      NetworkStep Wait (n, events) (n.deliver s b, events)
  | readReply {n events} (s : ℕ) {f rest} (hf : replyDecoder.next (n.inbox s) = some (f, rest)) :
      NetworkStep Wait (n, events) (n.readReply s f rest, events)

variable {Wait : World → List Event → Prop} {serverFd : Fd} {n n' : Network}
  {events events' : List Event} {w : World} {s : ℕ} {msgs : List (List Bytes)}

/-- A run goes on. -/
theorem NetworkRun.trans (h : NetworkRun Wait serverFd n events)
    (hs : ReflTransGen (NetworkStep Wait) (n, events) (n', events')) :
    NetworkRun Wait serverFd n' events' := by
  generalize hend : (n', events') = p at hs
  induction hs generalizing n' events' with
  | refl =>
    cases hend
    exact h
  | @tail q _ _ hstep ih =>
    have hrun : NetworkRun Wait serverFd q.1 q.2 := ih rfl
    cases hstep with
    | wait hb => cases hend; exact .wait hrun hb
    | serve ha hr => cases hend; exact .serve hrun ha hr
    | sendMessage s hmsg hframe => cases hend; exact .sendMessage hrun s hmsg hframe
    | deliver s b hb => cases hend; exact .deliver hrun s b hb
    | readReply s hf => cases hend; exact .readReply hrun s hf

/-- **A run is a sequence of steps** from the start. -/
theorem networkRun_iff : NetworkRun Wait serverFd n events ↔
    ReflTransGen (NetworkStep Wait) (Network.init serverFd, []) (n, events) := by
  constructor
  · intro h
    induction h with
    | start => exact .refl
    | wait _ hb ih => exact ih.tail (.wait hb)
    | serve _ ha hr ih => exact ih.tail (.serve ha hr)
    | sendMessage _ s hmsg hframe ih => exact ih.tail (.sendMessage s hmsg hframe)
    | deliver _ s b hb ih => exact ih.tail (.deliver s b hb)
    | readReply _ s hf ih => exact ih.tail (.readReply s hf)
  · exact NetworkRun.trans .start

/-- The server's part of a run. -/
theorem reachable_of_network (h : NetworkRun Wait serverFd n events) :
    Reachable Wait anyResults serverFd n.world events := by
  induction h with
  | start => exact .start
  | wait _ hb ih => exact .wait ih hb
  | serve _ ha _ ih => exact .serve ih ha trivial
  | sendMessage _ _ _ _ ih => exact ih
  | deliver _ _ _ _ ih => exact ih
  | readReply _ _ _ ih => exact ih

/-! ## What only grows -/

/-- The calls that were made and the bytes that were written stay. -/
structure Extends (w w' : World) : Prop where
  executed : w.executed <+: w'.executed
  written : ∀ s, w.kernel.written s <+: w'.kernel.written s

theorem Extends.refl (w : World) : Extends w w := ⟨List.prefix_rfl, fun _ => List.prefix_rfl⟩

theorem Extends.of_streams {w' w'' : World} (h : Extends w w') (hlog : w''.executed = w'.executed)
    (hwritten : w''.kernel.written = w'.kernel.written) : Extends w w'' := by
  refine ⟨hlog ▸ h.executed, fun s => ?_⟩
  rw [hwritten]
  exact h.written s

theorem extends_afterEvent {event : Event} {r : SysResults} (h : TableOk w) (ha : r.Allowed w) :
    Extends w (afterEvent event r w) := by
  refine (afterEvent_steps (P := fun w' => TableOk w' ∧ Extends w w') ⟨h, .refl w⟩ ha
    (fun _ h' => h'.1) ?_ ?_ ?_ ?_ ?_ ?_).1.2
  · intro fd ho
    exact ⟨h.refused ho, (Extends.refl w).of_streams rfl
      (close_streams (w.kernel.accept fd) fd).2.2.2⟩
  · intro fd ho
    exact ⟨h.accepted ho, (Extends.refl w).of_streams rfl rfl⟩
  · intro c b hc
    exact ⟨h.drained hc.2 b, List.prefix_append .., fun _ => List.prefix_rfl⟩
  · rintro w' c n ⟨ht', h'⟩ hc
    refine ⟨ht'.wrote hc.2 n, h'.executed, fun s => (h'.written s).trans ?_⟩
    change _ <+: Function.update w'.kernel.written _ _ s
    rw [Function.update_apply]
    split
    · rename_i hs
      rw [hs]
      exact List.prefix_append ..
    · exact List.prefix_rfl
  · rintro w' m ⟨ht', h'⟩
    exact ⟨ht'.modified _ m, h'.of_streams rfl rfl⟩
  · rintro w' c ⟨ht', h'⟩ hc
    exact ⟨ht'.closed hc, h'.of_streams rfl (close_streams _ _).2.2.2⟩

/-! ## What the server makes of what was sent -/

/-- What the server takes for a list of strings. -/
def toRequest (msg : List Bytes) : Request := ⟨encodePayload msg, msg⟩

/-- The bytes of lists of strings that were sent. -/
def requestBytes (msgs : List (List Bytes)) : Bytes :=
  (msgs.map fun msg => (toRequest msg).frame).flatten

theorem requestBytes_append (msgs msgs' : List (List Bytes)) :
    requestBytes (msgs ++ msgs') = requestBytes msgs ++ requestBytes msgs' := by
  simp [requestBytes]

theorem accepted_toRequest (h : ∀ msg ∈ msgs, Sendable msg) : ∀ f ∈ msgs.map toRequest,
    f.payload.length < 256 ^ lenFieldSize ∧ acceptPayload f.payload = some f.value := by
  intro f hf
  obtain ⟨msg, hmem, rfl⟩ := List.mem_map.mp hf
  exact ⟨lt_of_le_maxMsgFieldSize (h msg hmem).length_le, (h msg hmem).acceptPayload_eq⟩

theorem requestBytes_eq (msgs : List (List Bytes)) : requestBytes msgs =
    ((msgs.map toRequest).map fun f => record lenFieldSize f.payload).flatten := by
  rw [requestBytes, List.map_map]
  rfl

/-- **What was sent** is taken apart into the lists of strings. -/
theorem drain_requestBytes (h : ∀ msg ∈ msgs, Sendable msg) :
    requestDecoder.drain (requestBytes msgs) = (msgs.map toRequest, []) := by
  rw [requestBytes_eq]
  exact drain_records (by decide) _ (accepted_toRequest h)

theorem values_toRequest (msgs : List (List Bytes)) :
    (msgs.map toRequest).map Record.value = msgs := by
  rw [List.map_map]
  exact List.map_id _

/-- The commands of a socket in the log. -/
theorem ofPeer_commandsOf (s : ℕ) (log : List Execution) :
    ofPeer s (commandsOf log) = (callsOf s log).map Execution.cmd :=
  ofPeer_map s Execution.socket Execution.cmd log

theorem map_request_value (log : List Execution) :
    (log.map Execution.request).map Record.value = log.map Execution.cmd := by
  rw [List.map_map]
  rfl

/-- **The commands carried out for a client** are the first it has sent. -/
theorem Consistent.commands_prefix (h : Consistent w) (hmsgs : ∀ msg ∈ msgs, Sendable msg)
    (hreceived : w.kernel.received s <+: requestBytes msgs) :
    ofPeer s (commandsOf w.executed) <+: msgs := by
  obtain ⟨rest, hrest⟩ := (h.prefix_received s).trans hreceived
  have htakes : requestDecoder.Takes (requestBytes msgs)
      ((callsOf s w.executed).map Execution.request) rest := by
    rw [← hrest, consumedFrom, ← Function.comp_def, ← List.map_map]
    refine takes_accepted (fun f hf => ?_) rest
    obtain ⟨e, he, rfl⟩ := List.mem_map.mp hf
    exact h.accepted e (List.mem_of_mem_filter he)
  obtain ⟨later, hlater, -⟩ := htakes.of_drain
  rw [drain_requestBytes hmsgs] at hlater
  refine ⟨later.map Record.value, ?_⟩
  rw [ofPeer_commandsOf, ← map_request_value, ← List.map_append, ← hlater, values_toRequest]

/-! ## What the clients make of what was written -/

theorem results_commandsOf (gData : Store) (log : List Execution)
    (h : log.map Execution.resp = (runCommands gData (log.map Execution.cmd)).2) :
    keyValueObject.results gData (commandsOf log) =
      log.map fun e => (e.socket, reply e.resp) := by
  induction log generalizing gData with
  | nil => rfl
  | cons e log ih =>
    rw [List.map_cons, List.map_cons, runCommands_cons] at h
    obtain ⟨hresp, hlog⟩ := List.cons.inj h
    change (e.socket, reply (doRequest gData e.cmd .init).2) ::
      keyValueObject.results (doRequest gData e.cmd .init).1 (commandsOf log) = _
    rw [ih _ hlog, List.map_cons, hresp]

/-- The replies to a client, by the map that carries out all commands in order. -/
theorem Consistent.ofPeer_results (h : Consistent w) (s : ℕ) :
    ofPeer s (keyValueObject.results keyValueObject.start (commandsOf w.executed)) =
      ((callsOf s w.executed).map Execution.resp).map reply := by
  have hresults := results_commandsOf Store.empty w.executed h.sequential
  change ofPeer s (keyValueObject.results Store.empty (commandsOf w.executed)) = _
  rw [hresults, ofPeer_map s Execution.socket (fun e => reply e.resp), List.map_map]
  rfl

/-- What is owed to a client is taken apart into the replies. -/
theorem Consistent.drain_answersTo (h : Consistent w) (s : ℕ) :
    replyDecoder.drain (answersTo s w.executed) =
      (((callsOf s w.executed).map Execution.resp).map toRecord, []) := by
  have hfits : ∀ resp ∈ (callsOf s w.executed).map Execution.resp, resp.Fits := by
    intro resp hresp
    obtain ⟨e, he, rfl⟩ := List.mem_map.mp hresp
    have hlen := length_resp_of_consistent h e (List.mem_of_mem_filter he)
    have hmax := maxMsgFieldSize_eq
    rw [Response.Fits]
    omega
  rw [answersTo, responseBytes_eq_records hfits]
  exact drain_records (by decide) _ (records_accepted hfits)

/-- **The replies a client has read** are the first of its replies. -/
theorem Consistent.replies_prefix (h : Consistent w) {delivered rest : Bytes}
    {fs : List (Record Reply)} (hdelivered : delivered <+: w.kernel.written s)
    (htakes : replyDecoder.Takes delivered fs rest) : fs.map Record.value <+:
      ofPeer s (keyValueObject.results keyValueObject.start (commandsOf w.executed)) := by
  obtain ⟨later, hlater⟩ := hdelivered.trans (h.prefix_written s)
  have happend := htakes.append later
  rw [hlater] at happend
  obtain ⟨gs, hgs, -⟩ := happend.of_drain
  rw [h.drain_answersTo] at hgs
  change ((callsOf s w.executed).map Execution.resp).map toRecord = fs ++ gs at hgs
  rw [h.ofPeer_results, ← values_toRecord, hgs, List.map_append]
  exact List.prefix_append ..

/-! ## The invariant -/

/-- **What holds at every moment** of what is under way and of what was seen. -/
structure Networked (n : Network) : Prop where
  consistent : Consistent n.world
  sendable : ∀ s, ∀ msg ∈ callsBy s n.seen, Sendable msg
  outbox : ∀ s, n.outbox s = requestBytes (callsBy s n.seen)
  received : ∀ s, n.world.kernel.received s <+: n.outbox s
  delivered : ∀ s, n.delivered s <+: n.world.kernel.written s
  inbox : ∀ s, ∃ fs, replyDecoder.Takes (n.delivered s) fs (n.inbox s) ∧
    retsTo s n.seen = fs.map Record.value
  linearizes : Linearizes keyValueObject (commandsOf n.world.executed) n.seen

theorem networked_init (serverFd : Fd) : Networked (Network.init serverFd) where
  consistent := consistent_init serverFd
  sendable _ _ h := by cases h
  outbox _ := rfl
  received _ := List.prefix_rfl
  delivered _ := List.prefix_rfl
  inbox _ := ⟨[], .nil [], rfl⟩
  linearizes := .nil

theorem Networked.serve (h : Networked n) {event : Event} {r : SysResults}
    (ha : r.Allowed n.world)
    (hr : ∀ s, (n.serve event r).world.kernel.received s <+: n.outbox s) :
    Networked (n.serve event r) := by
  have hconsistent : Consistent (n.serve event r).world := h.consistent.afterEvent ha
  obtain ⟨hexecuted, hwritten⟩ : Extends n.world (n.serve event r).world :=
    extends_afterEvent h.consistent.toTableOk ha
  refine { h with
    consistent := hconsistent
    received := hr
    delivered := fun s => (h.delivered s).trans (hwritten s)
    linearizes := h.linearizes.grow (hexecuted.map _) fun s => ?_ }
  exact hconsistent.commands_prefix (h.sendable s) (h.outbox s ▸ hr s)

theorem Networked.sendMessage (h : Networked n) (s : ℕ) {msg : List Bytes} {frame : Bytes}
    (hmsg : Sendable msg) (hframe : serialize msg = some frame) :
    Networked (n.sendMessage s msg frame) := by
  obtain rfl : frame = (toRequest msg).frame :=
    Option.some.inj (hframe.symm.trans hmsg.serialize_eq)
  have hcalls : ∀ s', callsBy s' (n.sendMessage s msg (toRequest msg).frame).seen =
      callsBy s' n.seen ++ if s = s' then [msg] else [] := by
    intro s'
    rw [Network.sendMessage, callsBy_append, callsBy_call]
  refine { h with sendable := ?_, outbox := ?_, received := ?_, inbox := ?_, linearizes := ?_ }
  · intro s' m hm
    rw [hcalls, List.mem_append] at hm
    rcases hm with hm | hm
    · exact h.sendable s' m hm
    · split at hm
      · rwa [List.mem_singleton.mp hm]
      · cases hm
  · intro s'
    rw [sendMessage_outbox, hcalls, requestBytes_append, h.outbox]
    split <;> simp [requestBytes]
  · intro s'
    rw [sendMessage_outbox]
    exact (h.received s').trans (List.prefix_append ..)
  · intro s'
    obtain ⟨fs, htakes, hrets⟩ := h.inbox s'
    refine ⟨fs, htakes, ?_⟩
    rw [Network.sendMessage, retsTo_append, retsTo_call, List.append_nil, hrets]
  · exact h.linearizes.called s msg

theorem Networked.deliver (h : Networked n) (s : ℕ) {b : Bytes}
    (hb : n.delivered s ++ b <+: n.world.kernel.written s) : Networked (n.deliver s b) := by
  refine { h with delivered := fun s' => ?_, inbox := fun s' => ?_ }
  · rw [deliver_delivered]
    split
    · rename_i hs
      subst hs
      exact hb
    · rw [List.append_nil]
      exact h.delivered s'
  · obtain ⟨fs, htakes, hrets⟩ := h.inbox s'
    refine ⟨fs, ?_, hrets⟩
    rw [deliver_delivered, deliver_inbox]
    exact htakes.append _

theorem Networked.readReply (h : Networked n) (s : ℕ) {f : Record Reply} {rest : Bytes}
    (hf : replyDecoder.next (n.inbox s) = some (f, rest)) : Networked (n.readReply s f rest) := by
  obtain ⟨fs, htakes, hrets⟩ := h.inbox s
  have hnext : replyDecoder.Takes (n.delivered s) (fs ++ [f]) rest :=
    htakes.trans (.cons hf (.nil rest))
  have hcalls : ∀ s', callsBy s' (n.readReply s f rest).seen = callsBy s' n.seen := by
    intro s'
    rw [Network.readReply, callsBy_append, callsBy_ret, List.append_nil]
  refine { h with sendable := ?_, outbox := ?_, inbox := ?_, linearizes := ?_ }
  · intro s'
    rw [hcalls]
    exact h.sendable s'
  · intro s'
    rw [hcalls]
    exact h.outbox s'
  · intro s'
    have hrets' : retsTo s' (n.readReply s f rest).seen =
        retsTo s' n.seen ++ if s = s' then [f.value] else [] := by
      rw [Network.readReply, retsTo_append, retsTo_ret]
    rw [hrets']
    by_cases hs : s = s'
    · subst hs
      rw [readReply_inbox, if_pos rfl]
      exact ⟨fs ++ [f], hnext, by rw [hrets, List.map_append]; rfl⟩
    · rw [readReply_inbox_ne (Ne.symm hs), if_neg hs, List.append_nil]
      exact h.inbox s'
  · refine h.linearizes.returned ?_
    have hprefix := h.consistent.replies_prefix (h.delivered s) hnext
    rwa [List.map_append, ← hrets] at hprefix

/-! ## Runs -/

theorem networked_of_run (h : NetworkRun Wait serverFd n events) : Networked n := by
  induction h with
  | start => exact networked_init serverFd
  | wait _ _ ih => exact ih
  | serve _ ha hr ih => exact ih.serve ha hr
  | sendMessage _ s hmsg hframe ih => exact ih.sendMessage s hmsg hframe
  | deliver _ s b hb ih => exact ih.deliver s hb
  | readReply _ s hf ih => exact ih.readReply s hf

/-- Only the client an event reads from has to have sent what is read. -/
theorem received_serve {event : Event} {r : SysResults}
    (h : NetworkRun EpollReports serverFd n (event :: events)) (ha : r.Allowed n.world)
    (hb : ∀ s, ReadsFrom n.world s event →
      n.world.kernel.received s ++ r.read.taken <+: n.outbox s) (s : ℕ) :
    (n.serve event r).world.kernel.received s <+: n.outbox s :=
  received_afterEvent_sent (reachable_of_network h) ha (networked_of_run h).received hb s

theorem NetworkRun.served {event : Event} {r : SysResults}
    (h : NetworkRun EpollReports serverFd n (event :: events)) (ha : r.Allowed n.world)
    (hb : ∀ s, ReadsFrom n.world s event →
      n.world.kernel.received s ++ r.read.taken <+: n.outbox s) :
    NetworkRun EpollReports serverFd (n.serve event r) events :=
  .serve h ha (received_serve h ha hb)

/-- **The server is a linearizable key-value map.** In every run with any number of clients that
send lists of strings within the limits, without waiting for replies, whatever the interleaving and
however the streams are cut, one sequence of the commands explains all replies that were read. It
respects the order of each client, and no command comes before one whose reply had been read before
it was sent. That sequence is the one in which `do_request` was called. -/
theorem linearizable_of_network (h : NetworkRun Wait serverFd n events) :
    Linearizes keyValueObject (commandsOf n.world.executed) n.seen :=
  (networked_of_run h).linearizes

/-- A command that asks for a key. -/
def getMessage : List Bytes := [ascii "get", ascii "k"]

/-- A command that stores a value at another key. -/
def setMessage : List Bytes := [ascii "set", ascii "j", ascii "v"]

/-- A command that asks for that value. -/
def askMessage : List Bytes := [ascii "get", ascii "j"]

theorem sendable_getMessage : Sendable getMessage := ⟨by decide, by decide⟩

theorem sendable_setMessage : Sendable setMessage := ⟨by decide, by decide⟩

theorem sendable_askMessage : Sendable askMessage := ⟨by decide, by decide⟩

/-- One client has sent a command, another one two. -/
def bothSent : Network :=
  (((Network.init 3).sendMessage 0 getMessage (toRequest getMessage).frame).sendMessage 1
    setMessage (toRequest setMessage).frame).sendMessage 1 askMessage (toRequest askMessage).frame

/-- The first is accepted. -/
def oneAccepted : Network := bothSent.serve ⟨3, EPOLLIN⟩ { SysResults.again with accept := 7 }

/-- Both are. -/
def bothAccepted : Network := oneAccepted.serve ⟨3, EPOLLIN⟩ { SysResults.again with accept := 8 }

/-- The command of the first is read. -/
def oneRead : Network := bothAccepted.serve ⟨7, EPOLLIN⟩
  { SysResults.again with read := .bytes (toRequest getMessage).frame }

/-- Those of the second are, in the same batch. -/
def bothRead : Network := oneRead.serve ⟨8, EPOLLIN⟩
  { SysResults.again with
    read := .bytes ((toRequest setMessage).frame ++ (toRequest askMessage).frame) }

/-- The replies to the second are written, then the one to the first. -/
def bothServed : Network :=
  (bothRead.serve ⟨8, EPOLLOUT⟩ { SysResults.again with write := .wrote 21 }).serve ⟨7, EPOLLOUT⟩
    { SysResults.again with write := .wrote 5 }

/-- The replies to the second client come back. -/
def bothDelivered : Network :=
  bothServed.deliver 1 (responseBytes [⟨.RES_OK, ascii "j set to v"⟩, ⟨.RES_OK, ascii "v"⟩])

/-- Both clients have read their replies. -/
def bothAnswered : Network :=
  (((bothDelivered.readReply 1 (toRecord ⟨.RES_OK, ascii "j set to v"⟩)
    (Response.frame ⟨.RES_OK, ascii "v"⟩)).readReply 1 (toRecord ⟨.RES_OK, ascii "v"⟩) []).deliver 0
      (Response.frame ⟨.RES_NX, []⟩)).readReply 0 (toRecord ⟨.RES_NX, []⟩) []

/-- Then the first asks for what the second has stored. -/
def askSent : Network := bothAnswered.sendMessage 0 askMessage (toRequest askMessage).frame

/-- It has its reply. -/
def askAnswered : Network :=
  (((askSent.serve ⟨7, EPOLLIN⟩
    { SysResults.again with read := .bytes (toRequest askMessage).frame }).serve ⟨7, EPOLLOUT⟩
      { SysResults.again with write := .wrote 6 }).deliver 0
        (Response.frame ⟨.RES_OK, ascii "v"⟩)).readReply 0 (toRecord ⟨.RES_OK, ascii "v"⟩) []

theorem networkRun_bothAccepted : NetworkRun EpollReports 3 bothAccepted [] := by
  have hsent : NetworkRun EpollReports 3 bothSent [] :=
    .sendMessage (.sendMessage (.sendMessage .start 0 sendable_getMessage
      sendable_getMessage.serialize_eq) 1 sendable_setMessage sendable_setMessage.serialize_eq) 1
        sendable_askMessage sendable_askMessage.serialize_eq
  have hone : NetworkRun EpollReports 3 oneAccepted [] :=
    .serve (.wait hsent (.single (m := EPOLLIN) rfl id id)) (.of_accept (by decide))
      fun _ => List.nil_prefix
  exact .serve (.wait hone (.single (m := EPOLLIN) rfl id id)) (.of_accept (by decide))
    fun _ => List.nil_prefix

/-- The first command is read while the event of the second client is still to be served. -/
theorem networkRun_oneRead : NetworkRun EpollReports 3 oneRead [⟨8, EPOLLIN⟩] := by
  have hbatch : EpollReports bothAccepted.world [⟨7, EPOLLIN⟩, ⟨8, EPOLLIN⟩] :=
    .cons (.single (m := EPOLLIN) (by decide) id id) (m := EPOLLIN) (by decide) id id (by decide)
  refine (NetworkRun.wait networkRun_bothAccepted hbatch).served
    (.of_read _ (by decide) (by decide)) ?_
  rintro s ⟨-, -, rfl⟩
  decide +kernel

theorem networkRun_bothRead : NetworkRun EpollReports 3 bothRead [] := by
  refine networkRun_oneRead.served (.of_read _ (by decide) (by decide)) ?_
  rintro s ⟨-, -, rfl⟩
  decide +kernel

theorem networkRun_bothAnswered : NetworkRun EpollReports 3 bothAnswered [] := by
  have hbatch : EpollReports bothRead.world [⟨8, EPOLLOUT⟩, ⟨7, EPOLLOUT⟩] :=
    .cons (.single (m := EPOLLOUT) (by decide +kernel) id id) (m := EPOLLOUT) (by decide +kernel) id
      id (by decide)
  have hserved : NetworkRun EpollReports 3 bothServed [] :=
    ((NetworkRun.wait networkRun_bothRead hbatch).served (.of_write _ _)
      fun _ hs => by cases hs.2.1).served (.of_write _ _) fun _ hs => by cases hs.2.1
  have hdelivered : NetworkRun EpollReports 3 bothDelivered [] :=
    .deliver hserved 1 _ (by decide +kernel)
  exact .readReply (.deliver (.readReply (.readReply hdelivered 1 rfl) 1 rfl) 0 _
    (by decide +kernel)) 0 rfl

theorem networkRun_askAnswered : NetworkRun EpollReports 3 askAnswered [] := by
  have hsent : NetworkRun EpollReports 3 askSent [] :=
    .sendMessage networkRun_bothAnswered 0 sendable_askMessage sendable_askMessage.serialize_eq
  have hwait : NetworkRun EpollReports 3 askSent [⟨7, EPOLLIN⟩] :=
    .wait hsent (.single (m := EPOLLIN) (by decide +kernel) id id)
  have hread : NetworkRun EpollReports 3 (askSent.serve ⟨7, EPOLLIN⟩
      { SysResults.again with read := .bytes (toRequest askMessage).frame }) [] := by
    refine hwait.served (.of_read _ (by decide) (by decide)) ?_
    rintro s ⟨-, -, rfl⟩
    decide +kernel
  refine .readReply (.deliver (.served (.wait hread
    (.single (m := EPOLLOUT) (by decide +kernel) id id)) (.of_write _ (.wrote 6)) ?_) 0 _
      (by decide +kernel)) 0 rfl
  rintro s ⟨-, hin, -⟩
  cases hin

/-- The first client gets the value because the other had its reply before. -/
theorem linearizable_of_ask_network :
    askAnswered.seen = [.call 0 getMessage, .call 1 setMessage, .call 1 askMessage,
        .ret 1 (0, ascii "j set to v"), .ret 1 (0, ascii "v"), .ret 0 (2, []),
        .call 0 askMessage, .ret 0 (0, ascii "v")] ∧
      Linearizes keyValueObject [(0, getMessage), (1, setMessage), (1, askMessage), (0, askMessage)]
        askAnswered.seen := by
  have hlog : commandsOf askAnswered.world.executed =
      [(0, getMessage), (1, setMessage), (1, askMessage), (0, askMessage)] := by decide +kernel
  exact ⟨rfl, hlog ▸ linearizable_of_network networkRun_askAnswered⟩

/-- What was carried out and read for a client that nothing is owed to and that owes nothing. -/
theorem Networked.answered (h : Networked n) (hd : Drained n.world) {fd : Fd} {c : Connection}
    (hc : IsClient n.world fd c) (hs : n.world.kernel.socketOf fd = s)
    (hreceived : n.world.kernel.received s = n.outbox s) (hout : c.outgoing = [])
    (hdelivered : n.delivered s = n.world.kernel.written s)
    (hread : replyDecoder.next (n.inbox s) = none) :
    ofPeer s (commandsOf n.world.executed) = callsBy s n.seen ∧
      retsTo s n.seen =
        ofPeer s (keyValueObject.results keyValueObject.start (commandsOf n.world.executed)) := by
  subst hs
  constructor
  · have hdrain := h.consistent.drain_received hd hc
    rw [hreceived, h.outbox, drain_requestBytes (h.sendable _)] at hdrain
    rw [ofPeer_commandsOf, ← map_request_value, ← (Prod.mk.inj hdrain).1, values_toRequest]
  · obtain ⟨fs, htakes, hrets⟩ := h.inbox (n.world.kernel.socketOf fd)
    have hwritten := h.consistent.written fd c hc
    rw [hout, List.append_nil] at hwritten
    have hdrain := replyDecoder.drain_eq_of_takes htakes hread
    rw [hdelivered, hwritten, h.consistent.drain_answersTo] at hdrain
    rw [hrets, h.consistent.ofPeer_results, ← values_toRecord, (Prod.mk.inj hdrain).1]

/-- **No command within the limits is lost.** If the server has read all that a client has sent, its
connection has nothing more to send, and the client has read all that was written, then all its
commands were carried out, in order, and it has the reply to each. -/
theorem answered_of_network (h : NetworkRun Wait serverFd n events) {fd : Fd} {c : Connection}
    (hc : IsClient n.world fd c) (hs : n.world.kernel.socketOf fd = s)
    (hreceived : n.world.kernel.received s = n.outbox s) (hout : c.outgoing = [])
    (hdelivered : n.delivered s = n.world.kernel.written s)
    (hread : replyDecoder.next (n.inbox s) = none) :
    ofPeer s (commandsOf n.world.executed) = callsBy s n.seen ∧
      retsTo s n.seen =
        ofPeer s (keyValueObject.results keyValueObject.start (commandsOf n.world.executed)) :=
  (networked_of_run h).answered (drained_of_reachable (reachable_of_network h)) hc hs hreceived hout
    hdelivered hread

theorem answered_of_both_network :
    ofPeer 1 (commandsOf bothAnswered.world.executed) = [setMessage, askMessage] ∧
      retsTo 1 bothAnswered.seen =
        ofPeer 1 (keyValueObject.results Store.empty (commandsOf bothAnswered.world.executed)) := by
  have hclient : IsClient bothAnswered.world 8 ⟨8, [], []⟩ :=
    ⟨by decide +kernel, by decide +kernel⟩
  have hsocket : bothAnswered.world.kernel.socketOf 8 = 1 := by decide +kernel
  exact answered_of_network networkRun_bothAnswered hclient hsocket (by decide +kernel) rfl
    (by decide +kernel) rfl

end Byor.Optimized
