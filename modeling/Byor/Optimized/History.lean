import Byor.Optimized.Table

/-!
# One history for all connections

Every run of the optimized server is explained by the sequence of the calls of `do_request`. What
the component is for is said over that sequence alone: what was consumed from a socket
(`consumedFrom`), what is owed to it (`answersTo`), and what a `get` may answer (`GetsLatest`).

`Consistent` is the invariant that ties the byte streams of every connection, received, buffered
and sent, to the sequence and the map. It is kept by each operation (`Consistent.drained`,
`Consistent.wrote`, `Consistent.closed`, `Consistent.accept`), so by every event
(`Consistent.afterEvent`) and every run (`consistent_of_reachable`, `history_of_run`).
-/

namespace Byor.Optimized

open Wire

/-! ## The history -/

/-- The command of a call. -/
def Execution.cmd (e : Execution) : List Bytes := e.request.value

/-- The calls for requests of one socket. -/
def callsOf (s : ℕ) (log : List Execution) : List Execution := log.filter fun e => e.socket = s

/-- The bytes of the frames consumed from a socket. -/
def consumedFrom (s : ℕ) (log : List Execution) : Bytes :=
  ((callsOf s log).map fun e => e.request.frame).flatten

/-- The bytes of the responses to the requests of a socket. -/
def answersTo (s : ℕ) (log : List Execution) : Bytes :=
  responseBytes ((callsOf s log).map Execution.resp)

/-- The responses are the ones a map gives that starts empty and runs the commands in order. -/
def Sequential (log : List Execution) : Prop :=
  log.map Execution.resp = (runCommands Store.empty (log.map Execution.cmd)).2

/-- No call of the log sets or removes the key. -/
def Untouched (key : Bytes) (log : List Execution) : Prop :=
  ∀ e ∈ log, (∀ val, ¬ IsSet e.cmd key val) ∧ ¬ IsDel e.cmd key

/-- The latest call that sets or removes the key sets it to the value. -/
def LatestSet (key val : Bytes) (log : List Execution) : Prop :=
  ∃ before e after, log = before ++ e :: after ∧ IsSet e.cmd key val ∧ Untouched key after

/-- A `get` answers with the value of the latest earlier `set` of its key, and that there is none
if there was no such `set` or a `del` came after it. -/
def GetsLatest (log : List Execution) : Prop :=
  ∀ before e after key, log = before ++ e :: after → IsGet e.cmd key →
    (∀ val, LatestSet key val before → e.resp = ⟨.RES_OK, val⟩) ∧
      ((∀ val, ¬ LatestSet key val before) → e.resp = ⟨.RES_NX, []⟩)

variable {w : World} {conn : Fd} {c : Connection}

theorem callsOf_append (s : ℕ) (log log' : List Execution) :
    callsOf s (log ++ log') = callsOf s log ++ callsOf s log' := List.filter_append ..

theorem consumedFrom_append (s : ℕ) (log log' : List Execution) :
    consumedFrom s (log ++ log') = consumedFrom s log ++ consumedFrom s log' := by
  simp only [consumedFrom, callsOf_append, List.map_append, List.flatten_append]

theorem answersTo_append (s : ℕ) (log log' : List Execution) :
    answersTo s (log ++ log') = answersTo s log ++ answersTo s log' := by
  simp only [answersTo, callsOf_append, List.map_append, responseBytes_append]

theorem map_request_calls (s : ℕ) (gData : Store) (fs : List Request) :
    (calls s gData fs).map Execution.request = fs := by
  rw [calls, ← List.map_uncurry_zip_eq_zipWith, List.map_map]
  exact List.map_fst_zip (length_responses gData fs).ge

theorem length_calls (s : ℕ) (gData : Store) (fs : List Request) :
    (calls s gData fs).length = fs.length := by
  rw [← congrArg List.length (map_request_calls s gData fs), List.length_map]

theorem map_resp_calls (s : ℕ) (gData : Store) (fs : List Request) :
    (calls s gData fs).map Execution.resp = responses gData fs := by
  rw [calls, ← List.map_uncurry_zip_eq_zipWith, List.map_map]
  exact List.map_snd_zip (length_responses gData fs).le

theorem map_cmd_calls (s : ℕ) (gData : Store) (fs : List Request) :
    (calls s gData fs).map Execution.cmd = fs.map Record.value := by
  rw [← congrArg (List.map Record.value) (map_request_calls s gData fs), List.map_map]
  rfl

theorem socket_of_mem_calls {s : ℕ} {gData : Store} {fs : List Request} {e : Execution}
    (h : e ∈ calls s gData fs) : e.socket = s := by
  rw [calls, ← List.map_uncurry_zip_eq_zipWith] at h
  obtain ⟨p, -, rfl⟩ := List.mem_map.mp h
  rfl

/-- New calls belong to the socket they came from. -/
theorem callsOf_calls_self (s : ℕ) (gData : Store) (fs : List Request) :
    callsOf s (calls s gData fs) = calls s gData fs :=
  List.filter_eq_self.mpr fun _ he => decide_eq_true (socket_of_mem_calls he)

theorem callsOf_calls_ne {s s' : ℕ} (h : s' ≠ s) (gData : Store) (fs : List Request) :
    callsOf s' (calls s gData fs) = [] :=
  List.filter_eq_nil_iff.mpr fun _ he he' =>
    h ((of_decide_eq_true he').symm.trans (socket_of_mem_calls he))

theorem consumedFrom_calls_self (s : ℕ) (gData : Store) (fs : List Request) :
    consumedFrom s (calls s gData fs) = (fs.map Request.frame).flatten := by
  rw [consumedFrom, callsOf_calls_self,
    ← congrArg (List.map Request.frame) (map_request_calls s gData fs), List.map_map]
  rfl

theorem answersTo_calls_self (s : ℕ) (gData : Store) (fs : List Request) :
    answersTo s (calls s gData fs) = responseBytes (responses gData fs) := by
  rw [answersTo, callsOf_calls_self, map_resp_calls]

/-! ## The invariant -/

/-- The server executed the payload because it is within the limit and parses to the command. -/
def Request.Accepted (f : Request) : Prop :=
  f.payload.length ≤ maxMsgFieldSize ∧ parseReq f.payload [] = (true, f.value)

/-- **The invariant**: the byte streams of every socket are explained by one sequence of calls. -/
structure Consistent (w : World) : Prop extends TableOk w where
  /-- Nothing has happened on a socket that is still to be accepted. -/
  fresh : ∀ s, w.kernel.accepted ≤ s →
    w.kernel.received s = [] ∧ w.kernel.written s = [] ∧ callsOf s w.executed = []
  store : w.gData = (runCommands Store.empty (w.executed.map Execution.cmd)).1
  sequential : Sequential w.executed
  accepted : ∀ e ∈ w.executed, e.request.Accepted
  received : ∀ fd c, IsClient w fd c → w.kernel.received (w.kernel.socketOf fd) =
    consumedFrom (w.kernel.socketOf fd) w.executed ++ c.incoming
  written : ∀ fd c, IsClient w fd c → w.kernel.written (w.kernel.socketOf fd) ++ c.outgoing =
    answersTo (w.kernel.socketOf fd) w.executed
  prefix_received : ∀ s, consumedFrom s w.executed <+: w.kernel.received s
  prefix_written : ∀ s, w.kernel.written s <+: answersTo s w.executed

/-- Every request taken off a buffer is an accepted one. -/
theorem accepted_of_takes {xs rest : Bytes} {fs : List Request}
    (h : requestDecoder.Takes xs fs rest) : ∀ f ∈ fs, f.Accepted := by
  induction h with
  | nil => exact fun f hf => absurd hf List.not_mem_nil
  | cons hn _ ih =>
    obtain ⟨-, -, hacc⟩ := Framing.next_eq_some_iff.mp hn
    exact List.forall_mem_cons.mpr ⟨acceptPayload_eq_some hacc, ih⟩

theorem frames_of_takes {xs rest : Bytes} {fs : List Request}
    (h : requestDecoder.Takes xs fs rest) : xs = (fs.map Request.frame).flatten ++ rest := h.split

/-! ## Operations -/

/-- **An operation on one connection** leaves the streams and the calls of the other sockets alone;
it keeps the history if the streams of its own socket agree with the calls and the buffers. -/
theorem Consistent.of_socket {w' : World} {c' : Connection} (h : Consistent w)
    (hc : IsClient w conn c) (ht : TableOk w')
    (hclient : ∀ fd d, IsClient w' fd d → fd = conn ∧ d = c' ∨ fd ≠ conn ∧ IsClient w fd d)
    (hsock : w'.kernel.socketOf = w.kernel.socketOf) (hacc : w'.kernel.accepted = w.kernel.accepted)
    (hother : ∀ s, s ≠ w.kernel.socketOf conn → w'.kernel.received s = w.kernel.received s ∧
      w'.kernel.written s = w.kernel.written s ∧ callsOf s w'.executed = callsOf s w.executed)
    (hstore : w'.gData = (runCommands Store.empty (w'.executed.map Execution.cmd)).1)
    (hseq : Sequential w'.executed) (haccepted : ∀ e ∈ w'.executed, e.request.Accepted)
    (hreceived : w'.kernel.received (w.kernel.socketOf conn) =
      consumedFrom (w.kernel.socketOf conn) w'.executed ++ c'.incoming)
    (hwritten : w'.kernel.written (w.kernel.socketOf conn) ++ c'.outgoing =
      answersTo (w.kernel.socketOf conn) w'.executed) : Consistent w' := by
  refine { ht with
    fresh := ?_, store := hstore, sequential := hseq, accepted := haccepted
    received := ?_, written := ?_, prefix_received := ?_, prefix_written := ?_ }
  · intro s hs
    rw [hacc] at hs
    have hne : s ≠ w.kernel.socketOf conn := ((h.bounded conn c hc).trans_le hs).ne'
    obtain ⟨hr, hw, hl⟩ := hother s hne
    rw [hr, hw, hl]
    exact h.fresh s hs
  · intro fd d hd
    rw [hsock]
    rcases hclient fd d hd with ⟨rfl, rfl⟩ | ⟨hne, hd⟩
    · exact hreceived
    · obtain ⟨hr, -, hl⟩ := hother _ (h.client_inj hd hc hne)
      rw [hr, consumedFrom, hl]
      exact h.received fd d hd
  · intro fd d hd
    rw [hsock]
    rcases hclient fd d hd with ⟨rfl, rfl⟩ | ⟨hne, hd⟩
    · exact hwritten
    · obtain ⟨-, hw, hl⟩ := hother _ (h.client_inj hd hc hne)
      rw [hw, answersTo, hl]
      exact h.written fd d hd
  · intro s
    by_cases hs : s = w.kernel.socketOf conn
    · rw [hs, hreceived]
      exact List.prefix_append ..
    · obtain ⟨hr, -, hl⟩ := hother s hs
      rw [hr, consumedFrom, hl]
      exact h.prefix_received s
  · intro s
    by_cases hs : s = w.kernel.socketOf conn
    · rw [hs, ← hwritten]
      exact List.prefix_append ..
    · obtain ⟨-, hw, hl⟩ := hother s hs
      rw [hw, answersTo, hl]
      exact h.prefix_written s

theorem Consistent.buffered (h : Consistent w) (hc : IsClient w conn c) (b : Bytes) :
    Consistent (w.buffered conn c b) := by
  have hreceived : (w.buffered conn c b).kernel.received = Function.update w.kernel.received
      (w.kernel.socketOf conn) (w.kernel.received (w.kernel.socketOf conn) ++ b) := by
    rw [← h.entry conn c hc.2]
    rfl
  refine h.of_socket hc (h.toTableOk.buffered hc.2 b)
    (fun _ _ hd => IsClient.of_update w (w.buffered conn c b) rfl rfl hd) rfl rfl
    (fun s hs => ⟨?_, rfl, rfl⟩) h.store h.sequential h.accepted ?_ (h.written conn c hc)
  · rw [hreceived, Function.update_of_ne hs]
  · rw [hreceived, Function.update_self, h.received conn c hc, List.append_assoc]
    rfl

/-- Serving requests from the front of a buffer. -/
theorem Consistent.served (h : Consistent w) (hc : IsClient w conn c) {fs : List Request}
    {rest : Bytes} (ht : requestDecoder.Takes c.incoming fs rest) :
    Consistent (w.served conn c fs rest) := by
  have hlog : (w.served conn c fs rest).executed =
      w.executed ++ calls (w.kernel.socketOf conn) w.gData fs := by
    rw [← h.entry conn c hc.2]
    rfl
  refine h.of_socket hc (h.toTableOk.served hc.2 fs rest)
    (fun _ _ hd => IsClient.of_update w (w.served conn c fs rest) rfl rfl hd) rfl rfl
    (fun s hs => ⟨rfl, rfl, ?_⟩) ?_ ?_ ?_ ?_ ?_
  · rw [hlog, callsOf_append, callsOf_calls_ne hs, List.append_nil]
  · rw [hlog, List.map_append, map_cmd_calls, runCommands_append, ← h.store]
    rfl
  · rw [hlog, Sequential, List.map_append, List.map_append, map_cmd_calls, map_resp_calls,
      runCommands_append, ← h.store, ← h.sequential]
    rfl
  · intro e he
    rw [hlog] at he
    rcases List.mem_append.mp he with he | he
    · exact h.accepted e he
    · refine accepted_of_takes ht e.request ?_
      rw [← map_request_calls (w.kernel.socketOf conn) w.gData fs]
      exact List.mem_map_of_mem he
  · rw [hlog, consumedFrom_append, consumedFrom_calls_self, List.append_assoc]
    exact (h.received conn c hc).trans (congrArg (_ ++ ·) (frames_of_takes ht))
  · rw [hlog, answersTo_append, answersTo_calls_self, ← h.written conn c hc, List.append_assoc]
    rfl

theorem Consistent.drained (h : Consistent w) (hc : IsClient w conn c) (b : Bytes) :
    Consistent (w.drained conn c b) :=
  (h.buffered hc b).served ⟨hc.1, buffered_connections b⟩ (requestDecoder.takes_drain _)

/-- The kernel takes bytes from the front of the outgoing buffer. -/
theorem Consistent.wrote (h : Consistent w) (hc : IsClient w conn c) (n : ℕ) :
    Consistent (w.wrote conn c n) := by
  have hwritten : (w.wrote conn c n).kernel.written = Function.update w.kernel.written
      (w.kernel.socketOf conn) (w.kernel.written (w.kernel.socketOf conn) ++
        c.outgoing.take (min n c.outgoing.length)) := by
    rw [← h.entry conn c hc.2]
    rfl
  refine h.of_socket hc (h.toTableOk.wrote hc.2 n)
    (fun _ _ hd => IsClient.of_update w (w.wrote conn c n) rfl rfl hd) rfl rfl
    (fun s hs => ⟨rfl, ?_, rfl⟩) h.store h.sequential h.accepted (h.received conn c hc) ?_
  · rw [hwritten, Function.update_of_ne hs]
  · rw [hwritten, Function.update_self, List.append_assoc, Connection.wrote, List.take_append_drop]
    exact h.written conn c hc

/-- What leaves the streams and the calls alone, and brings in no client, keeps the history. -/
theorem Consistent.of_streams {w' : World} (h : Consistent w) (ht : TableOk w')
    (hclient : ∀ fd d, IsClient w' fd d →
      IsClient w fd d ∧ w'.kernel.socketOf fd = w.kernel.socketOf fd)
    (hdata : w'.gData = w.gData) (hlog : w'.executed = w.executed)
    (hacc : w.kernel.accepted ≤ w'.kernel.accepted)
    (hreceived : w'.kernel.received = w.kernel.received)
    (hwritten : w'.kernel.written = w.kernel.written) : Consistent w' := by
  refine { ht with
    fresh := ?_, store := ?_, sequential := ?_, accepted := ?_
    received := ?_, written := ?_, prefix_received := ?_, prefix_written := ?_ }
  · intro s hs
    rw [hreceived, hwritten, hlog]
    exact h.fresh s (hacc.trans hs)
  · rw [hdata, hlog]
    exact h.store
  · rw [hlog]
    exact h.sequential
  · rw [hlog]
    exact h.accepted
  · intro fd d hd
    obtain ⟨hd, hsock⟩ := hclient fd d hd
    rw [hreceived, hlog, hsock]
    exact h.received fd d hd
  · intro fd d hd
    obtain ⟨hd, hsock⟩ := hclient fd d hd
    rw [hwritten, hlog, hsock]
    exact h.written fd d hd
  · rw [hreceived, hlog]
    exact h.prefix_received
  · rw [hwritten, hlog]
    exact h.prefix_written

theorem Consistent.modified (h : Consistent w) (fd : Fd) (m : EventMask) :
    Consistent (w.modified fd m) :=
  h.of_streams (h.toTableOk.modified fd m) (fun _ _ hd => ⟨hd, rfl⟩) rfl rfl (Nat.le_refl _) rfl rfl

theorem Consistent.closed (h : Consistent w) (hc : IsClient w conn c) :
    Consistent (w.closed conn) := by
  have hk := h.close_eq hc.2
  refine h.of_streams (h.toTableOk.closed hc) (fun fd d hd => ⟨?_, ?_⟩) rfl rfl ?_ ?_ ?_
  · exact (IsClient.of_erased w (w.closed conn) rfl rfl hd).2
  all_goals rw [hk]

theorem Consistent.refused {fd : Fd} (h : Consistent w) (ho : w.kernel.isOpen fd = false) :
    Consistent (w.refused fd) := by
  have hk : (w.refused fd).kernel = _ := accept_close_eq w.kernel fd
  refine h.of_streams (h.toTableOk.refused ho) (fun fd' d hd => ⟨hd, ?_⟩) rfl rfl ?_ ?_ ?_
  · rw [hk]
    exact Function.update_of_ne (h.ne_of_closed ho hd.2) ..
  · rw [hk]
    exact Nat.le_succ _
  all_goals rw [hk]

/-- A new client starts with a socket nothing has happened on. -/
theorem Consistent.accept {fd : Fd} (h : Consistent w) (ho : w.kernel.isOpen fd = false) :
    Consistent (w.accepted fd) := by
  obtain ⟨hrecv, hsent, hcalls⟩ := h.fresh w.kernel.accepted (Nat.le_refl _)
  refine { h.toTableOk.accepted ho with
    fresh := fun s hs => h.fresh s (Nat.le_of_succ_le hs)
    store := h.store, sequential := h.sequential, accepted := h.accepted
    received := ?_, written := ?_
    prefix_received := h.prefix_received, prefix_written := h.prefix_written }
  · intro fd' d hd
    rcases hd.of_accepted with ⟨rfl, rfl⟩ | ⟨hne, hd⟩
    · rw [accepted_socketOf]
      change w.kernel.received w.kernel.accepted = consumedFrom _ w.executed ++ []
      rw [hrecv, consumedFrom, hcalls]
      rfl
    · rw [accepted_socketOf_ne hne]
      exact h.received fd' d hd
  · intro fd' d hd
    rcases hd.of_accepted with ⟨rfl, rfl⟩ | ⟨hne, hd⟩
    · rw [accepted_socketOf]
      change w.kernel.written w.kernel.accepted ++ [] = answersTo _ w.executed
      rw [hsent, answersTo, hcalls]
      rfl
    · rw [accepted_socketOf_ne hne]
      exact h.written fd' d hd

/-! ## Runs -/

theorem Consistent.readEffect (h : Consistent w) (hc : IsClient w conn c) (r : ReadResult) :
    Consistent (w.readEffect conn c r) :=
  readEffect_steps h hc (fun b => h.drained hc b) (fun _ m h' => h'.modified _ m)
    (fun _ _ h' hc' => h'.closed hc') r

theorem Consistent.afterEvent {event : Event} {r : SysResults} (h : Consistent w)
    (ha : r.Allowed w) : Consistent (afterEvent event r w) :=
  (afterEvent_steps h ha (fun _ h' => h'.toTableOk) (fun _ => h.refused) (fun _ => h.accept)
    (fun _ b hc => h.drained hc b) (fun _ _ n h' hc => h'.wrote hc n)
    (fun _ m h' => h'.modified _ m) fun _ _ h' hc => h'.closed hc).1

theorem consistent_init (serverFd : Fd) : Consistent (World.init serverFd) :=
  { tableOk_init serverFd with
    fresh := fun _ _ => ⟨rfl, rfl, rfl⟩
    store := rfl
    sequential := rfl
    accepted := fun _ he => absurd he List.not_mem_nil
    received := fun fd c hc => absurd hc (not_isClient_init serverFd fd c)
    written := fun fd c hc => absurd hc (not_isClient_init serverFd fd c)
    prefix_received := fun _ => List.nil_prefix
    prefix_written := fun _ => List.nil_prefix }

theorem consistent_of_reachable {Wait : World → List Event → Prop}
    {Serve : World → Event → SysResults → Prop} {serverFd : Fd} {events : List Event}
    (h : Reachable Wait Serve serverFd w events) : Consistent w :=
  h.invariant (consistent_init serverFd) fun _ _ _ hw ha => hw.afterEvent ha

/-! ## What a `get` answers -/

/-- The response to a call, from the commands before it. -/
theorem Sequential.resp_eq {before after : List Execution} {e : Execution}
    (h : Sequential (before ++ e :: after)) :
    e.resp = (doRequest (runCommands Store.empty (before.map Execution.cmd)).1 e.cmd .init).2 := by
  rw [Sequential, List.map_append, List.map_append, runCommands_append] at h
  have hlen : (before.map Execution.resp).length =
      (runCommands Store.empty (before.map Execution.cmd)).2.length := by
    rw [length_runCommands, List.length_map, List.length_map]
  have htail := (List.append_inj h hlen).2
  exact (List.cons.inj htail).1

/-- The log of writes of the calls. -/
def writesOf (log : List Execution) : List (Bytes × Option Bytes) :=
  (log.map Execution.cmd).filterMap writeOf

theorem writesOf_append (log log' : List Execution) :
    writesOf (log ++ log') = writesOf log ++ writesOf log' := by
  rw [writesOf, List.map_append, List.filterMap_append]
  rfl

theorem untouched_iff {key : Bytes} {log : List Execution} :
    Untouched key log ↔ ∀ e ∈ writesOf log, e.1 ≠ key := by
  constructor
  · rintro h ⟨k, v⟩ he rfl
    obtain ⟨cmd, hcmd, hw⟩ := List.mem_filterMap.mp he
    obtain ⟨e, hmem, rfl⟩ := List.mem_map.mp hcmd
    rcases writeOf_eq_some_iff.mp hw with ⟨val, hset, -⟩ | ⟨hdel, -⟩
    · exact (h e hmem).1 val hset
    · exact (h e hmem).2 hdel
  · intro h e he
    have hmem : ∀ v, writeOf e.cmd = some (key, v) → False := fun v hv =>
      h (key, v) (List.mem_filterMap.mpr ⟨e.cmd, List.mem_map_of_mem he, hv⟩) rfl
    exact ⟨fun val hset => hmem (some val) (writeOf_eq_some_iff.mpr (.inl ⟨val, hset, rfl⟩)),
      fun hdel => hmem none (writeOf_eq_some_iff.mpr (.inr ⟨hdel, rfl⟩))⟩

/-- The latest call that sets or removes the key is the last write to it. -/
theorem latestSet_iff {key val : Bytes} {log : List Execution} :
    LatestSet key val log ↔ LastWrite key (some val) (writesOf log) := by
  constructor
  · rintro ⟨before, e, after, rfl, hset, hafter⟩
    have hw : writeOf e.cmd = some (key, some val) :=
      writeOf_eq_some_iff.mpr (.inl ⟨val, hset, rfl⟩)
    refine ⟨writesOf before, writesOf after, ?_, untouched_iff.mp hafter⟩
    rw [writesOf_append, writesOf, writesOf, List.map_cons, List.filterMap_cons_some hw]
    rfl
  · rintro ⟨before, after, hlog, hafter⟩
    obtain ⟨l1, l2, hl, -, hl2⟩ := List.filterMap_eq_append_iff.mp hlog
    obtain ⟨l3, cmd, l4, rfl, -, hw, hl4⟩ := List.filterMap_eq_cons_iff.mp hl2
    rw [← List.append_assoc] at hl
    obtain ⟨e12, e34, rfl, -, he⟩ := List.map_eq_append_iff.mp hl
    obtain ⟨e, rest, rfl, rfl, hrest⟩ := List.map_eq_cons_iff.mp he
    refine ⟨e12, e, rest, rfl, ?_, untouched_iff.mpr ?_⟩
    · rcases writeOf_eq_some_iff.mp hw with ⟨val', hset, hval⟩ | ⟨-, hval⟩
      · cases hval
        exact hset
      · cases hval
    · rw [writesOf, hrest, hl4]
      exact hafter

theorem Sequential.getsLatest {log : List Execution} (h : Sequential log) : GetsLatest log := by
  rintro before e after key rfl hget
  have hresp := h.resp_eq
  rw [doRequest_get _ hget, runCommands_store] at hresp
  change e.resp = getResponse (applyWrites Store.empty (writesOf before) key) at hresp
  constructor
  · intro val hset
    rw [applyWrites_of_lastWrite _ (latestSet_iff.mp hset)] at hresp
    exact hresp
  · intro hnot
    have hnone : applyWrites Store.empty (writesOf before) key = none := by
      rcases untouched_or_lastWrite key (writesOf before) with hu | ⟨v, hv⟩
      · exact applyWrites_of_untouched _ hu
      · cases v with
        | none => exact applyWrites_of_lastWrite _ hv
        | some val => exact absurd (latestSet_iff.mpr hv) (hnot val)
    rw [hnone] at hresp
    exact hresp

/-! ## Every run has one history -/

/-- **Every run is explained by its sequence of calls.** Each call is for an accepted frame; the
calls are run one after another on one map. The frames of the calls of a socket are, in order, what
was consumed from it, so each consumed frame was executed once; what was written to the socket and
what is still to be written is the responses to them. A `get` answers with the latest `set`. -/
theorem history_of_run {serverFd : Fd} {events : List Event}
    (h : Reachable anyBatch anyResults serverFd w events) :
    (∀ e ∈ w.executed, e.request.Accepted) ∧ Sequential w.executed ∧
      w.gData = (runCommands Store.empty (w.executed.map Execution.cmd)).1 ∧
      (∀ fd c, IsClient w fd c →
        w.kernel.received (w.kernel.socketOf fd) =
            consumedFrom (w.kernel.socketOf fd) w.executed ++ c.incoming ∧
          w.kernel.written (w.kernel.socketOf fd) ++ c.outgoing =
            answersTo (w.kernel.socketOf fd) w.executed) ∧
      (∀ s, consumedFrom s w.executed <+: w.kernel.received s ∧
        w.kernel.written s <+: answersTo s w.executed) ∧
      GetsLatest w.executed := by
  have hc := consistent_of_reachable h
  refine ⟨hc.accepted, hc.sequential, hc.store, ?_, ?_, hc.sequential.getsLatest⟩
  · intro fd c hcl
    exact ⟨hc.received fd c hcl, hc.written fd c hcl⟩
  · intro s
    exact ⟨hc.prefix_received s, hc.prefix_written s⟩

/-- A client is accepted. -/
def pipelinedAccept : World :=
  afterEvent ⟨3, EPOLLIN⟩ { SysResults.again with accept := 7 } (World.init 3)

theorem reachable_pipelinedAccept {Wait : World → List Event → Prop}
    {Serve : World → Event → SysResults → Prop} (hb : Wait (World.init 3) [⟨3, EPOLLIN⟩])
    (hs : Serve (World.init 3) ⟨3, EPOLLIN⟩ { SysResults.again with accept := 7 }) :
    Reachable Wait Serve 3 pipelinedAccept [] :=
  Reachable.start.single hb (.of_accept (by decide)) hs

/-- A frame of a `set`, and one of a `get` of the same key. -/
def pipelinedFrames : Bytes :=
  record lenFieldSize (encodePayload [ascii "set", ascii "k", ascii "v"]) ++
    record lenFieldSize (encodePayload [ascii "get", ascii "k"])

/-- The first read ends inside the header of the second frame. -/
def pipelinedFirst : World :=
  afterEvent ⟨7, EPOLLIN⟩ { SysResults.again with read := .bytes (pipelinedFrames.take 27) }
    pipelinedAccept

/-- The second read brings the rest. -/
def pipelinedSecond : World :=
  afterEvent ⟨7, EPOLLIN⟩ { SysResults.again with read := .bytes (pipelinedFrames.drop 27) }
    pipelinedFirst

/-- A short write. -/
def pipelinedWrite : World :=
  afterEvent ⟨7, EPOLLOUT⟩ { SysResults.again with write := .wrote 6 } pipelinedSecond

theorem history_of_pipelined_run :
    (pipelinedWrite.executed.map Execution.resp =
      [⟨.RES_OK, ascii "k set to v"⟩, ⟨.RES_OK, ascii "v"⟩]) ∧
      GetsLatest pipelinedWrite.executed ∧
      pipelinedWrite.kernel.written 0 <+: answersTo 0 pipelinedWrite.executed := by
  have hfirst : Reachable anyBatch anyResults 3 pipelinedFirst [] :=
    (reachable_pipelinedAccept trivial trivial).single trivial
      (.of_read _ (by decide) (by decide)) trivial
  have hsecond : Reachable anyBatch anyResults 3 pipelinedSecond [] :=
    hfirst.single trivial (.of_read _ (by decide) (by decide)) trivial
  have hwrite : Reachable anyBatch anyResults 3 pipelinedWrite [] :=
    hsecond.single trivial (.of_write _ _) trivial
  obtain ⟨-, -, -, -, hpre, hget⟩ := history_of_run hwrite
  exact ⟨by decide, hget, (hpre 0).2⟩

end Byor.Optimized
