import Byor.Optimized.Limits
import Byor.Optimized.Turn

/-!
# Clients that do not take their answers

A connection with something to send is registered for `EPOLLOUT` alone, so nothing is read from it
until all of it was written. What waits to be sent is therefore the answers to the requests that one
read has completed, the last of the connection. A client that pipelines and does not read holds up
its own requests; it does not make its outgoing buffer grow.

* `Backlogged.afterEvent`: every event keeps the backlog of every connection within that.
* `backlog_of_run`: so the outgoing buffers are bounded in every run, and nothing is read from a
  connection, nor carried out for it, while something waits to be sent to it.
-/

namespace Byor.Optimized

open Wire

variable {w w' : World} {conn fd : Fd} {c : Connection} {event : Event} {events : List Event}
  {r : SysResults} {s : ℕ} {log : List Execution} {outgoing b : Bytes} {serverFd : Fd}

/-! ## The backlog of a connection -/

/-- What waits to be sent to a socket belongs to the responses of its last few calls. -/
def Backlog (log : List Execution) (s : ℕ) (outgoing : Bytes) : Prop :=
  ∃ waiting, waiting <:+ callsOf s log ∧ waiting.length ≤ maxBacklog ∧
    outgoing <:+ responseBytes (waiting.map Execution.resp)

theorem backlog_nil (log : List Execution) (s : ℕ) : Backlog log s [] :=
  ⟨[], List.nil_suffix, Nat.zero_le _, List.nil_suffix⟩

theorem Backlog.drop (h : Backlog log s outgoing) (n : ℕ) : Backlog log s (outgoing.drop n) := by
  obtain ⟨waiting, hcalls, hlen, hout⟩ := h
  exact ⟨waiting, hcalls, hlen, (List.drop_suffix n outgoing).trans hout⟩

/-- **The invariant**: the outgoing buffer of every client is a backlog. -/
structure Backlogged (w : World) : Prop extends TableOk w where
  backlog : ∀ fd c, IsClient w fd c → Backlog w.executed (w.kernel.socketOf fd) c.outgoing

/-- An operation on one connection leaves the calls of the other sockets alone. -/
theorem Backlogged.of_socket {c' : Connection} (h : Backlogged w) (hc : IsClient w conn c)
    (ht : TableOk w')
    (hclient : ∀ fd d, IsClient w' fd d → fd = conn ∧ d = c' ∨ fd ≠ conn ∧ IsClient w fd d)
    (hsock : w'.kernel.socketOf = w.kernel.socketOf)
    (hother : ∀ s, s ≠ w.kernel.socketOf conn → callsOf s w'.executed = callsOf s w.executed)
    (hself : Backlog w'.executed (w.kernel.socketOf conn) c'.outgoing) : Backlogged w' := by
  refine { ht with backlog := fun fd d hd => ?_ }
  rw [hsock]
  rcases hclient fd d hd with ⟨rfl, rfl⟩ | ⟨hne, hd⟩
  · exact hself
  · obtain ⟨waiting, hcalls, hrest⟩ := h.backlog fd d hd
    exact ⟨waiting, hother _ (h.client_inj hd hc hne) ▸ hcalls, hrest⟩

/-- What brings in no client and no call keeps the backlogs. -/
theorem Backlogged.of_calls (h : Backlogged w) (ht : TableOk w')
    (hclient : ∀ fd d, IsClient w' fd d →
      IsClient w fd d ∧ w'.kernel.socketOf fd = w.kernel.socketOf fd)
    (hlog : w'.executed = w.executed) : Backlogged w' := by
  refine { ht with backlog := fun fd d hd => ?_ }
  obtain ⟨hd, hsock⟩ := hclient fd d hd
  rw [hsock, hlog]
  exact h.backlog fd d hd

theorem Backlogged.modified (h : Backlogged w) (fd : Fd) (m : EventMask) :
    Backlogged (w.modified fd m) :=
  h.of_calls (h.toTableOk.modified fd m) (fun _ _ hd => ⟨hd, rfl⟩) rfl

theorem Backlogged.closed (h : Backlogged w) (hc : IsClient w conn c) :
    Backlogged (w.closed conn) := by
  refine h.of_calls (h.toTableOk.closed hc) (fun fd d hd => ⟨?_, ?_⟩) rfl
  · exact (IsClient.of_erased w (w.closed conn) rfl rfl hd).2
  · rw [h.close_eq hc.2]

theorem Backlogged.refused (h : Backlogged w) (ho : w.kernel.isOpen fd = false) :
    Backlogged (w.refused fd) := by
  have hk : (w.refused fd).kernel = _ := accept_close_eq w.kernel fd
  refine h.of_calls (h.toTableOk.refused ho) (fun fd' d hd => ⟨hd, ?_⟩) rfl
  rw [hk]
  exact Function.update_of_ne (h.ne_of_closed ho hd.2) ..

theorem Backlogged.accepted (h : Backlogged w) (ho : w.kernel.isOpen fd = false) :
    Backlogged (w.accepted fd) := by
  refine { h.toTableOk.accepted ho with backlog := fun fd' d hd => ?_ }
  rcases hd.of_accepted with ⟨-, rfl⟩ | ⟨hne, hd⟩
  · exact backlog_nil ..
  · rw [accepted_socketOf_ne hne]
    exact h.backlog fd' d hd

theorem Backlogged.wrote (h : Backlogged w) (hc : IsClient w conn c) (n : ℕ) :
    Backlogged (w.wrote conn c n) :=
  h.of_socket hc (h.toTableOk.wrote hc.2 n)
    (fun _ _ hd => IsClient.of_update w (w.wrote conn c n) rfl rfl hd) rfl (fun _ _ => rfl)
    ((h.backlog conn c hc).drop _)

/-- A read that meets an empty outgoing buffer: the backlog is what it has completed. -/
theorem Backlogged.drained (h : Backlogged w) (hc : IsClient w conn c) (hempty : c.outgoing = [])
    (hnone : requestDecoder.next c.incoming = none) (hb : b.length ≤ readBufferSize) :
    Backlogged (w.drained conn c b) := by
  obtain ⟨fs, hfs⟩ : ∃ fs, fs = (requestDecoder.drain (c.incoming ++ b)).1 := ⟨_, rfl⟩
  have hlog : (w.drained conn c b).executed =
      w.executed ++ calls (w.kernel.socketOf conn) w.gData fs := by
    rw [hfs, ← h.entry conn c hc.2]
    rfl
  refine h.of_socket hc (h.toTableOk.drained hc.2 b)
    (fun _ _ hd => IsClient.of_update w (w.drained conn c b) rfl (drained_connections_eq b) hd) rfl
    (fun s hs => ?_) ⟨calls (w.kernel.socketOf conn) w.gData fs, ?_, ?_, ?_⟩
  · rw [hlog, callsOf_append, callsOf_calls_ne hs, List.append_nil]
  · rw [hlog, callsOf_append, callsOf_calls_self]
    exact List.suffix_append ..
  · rw [length_calls, hfs]
    exact length_drain_incoming_le hnone hb
  · rw [map_resp_calls, Connection.drained, Connection.served, hempty, hfs]
    exact List.suffix_rfl

theorem Backlogged.readEffect (h : Backlogged w) (hd : Drained w) (hc : IsClient w conn c)
    (hempty : c.outgoing = []) (ha : r.Allowed w) : Backlogged (w.readEffect conn c r.read) := by
  cases hr : r.read with
  | eof => exact h.closed hc
  | error errno => exact h
  | bytes b =>
    have hdrained := h.drained hc hempty (hd.next conn c hc) (ha.read b hr).2
    unfold World.readEffect World.afterRead
    simp only
    split
    · exact hdrained.closed ⟨hc.1, drained_connections b⟩
    split
    · exact hdrained
    · exact hdrained.modified conn EPOLLOUT

theorem Backlogged.writeEffect (h : Backlogged w) (hc : IsClient w conn c) (r : WriteResult) :
    Backlogged (w.writeEffect conn c r) :=
  writeEffect_steps h (fun n => h.wrote hc n) (fun _ m h' => h'.modified conn m) (h.closed hc) r

/-- **Every event keeps the backlogs**, because a read event meets an empty outgoing buffer. -/
theorem Backlogged.afterEvent (h : Backlogged w) (hd : Drained w) (hi : InterestOk w)
    (hr : EpollReports w (event :: events)) (ha : r.Allowed w) :
    Backlogged (afterEvent event r w) := by
  have hserver : ∀ w' : World, Backlogged w' ∧ w'.serverFd = w.serverFd →
      ∀ fd c, w'.connections fd = some c → c.fd = fd := fun _ h' => h'.1.entry
  refine (afterEvent_rule (P := fun w' => Backlogged w' ∧ w'.serverFd = w.serverFd) ⟨h, rfl⟩
    hserver ?_ ?_ ?_ ?_).1
  · intro _
    refine ⟨?_, serverFd_newEffect w r⟩
    exact h.newEffect_cases ha h (fun ho => h.refused ho) fun ho => h.accepted ho
  · intro hne hin c hc
    obtain ⟨d, hd', hempty, -⟩ := hr.client hi hne
    obtain rfl := Option.some.inj (hd'.2.symm.trans hc)
    exact ⟨h.readEffect hd hd' (hempty hin) ha, serverFd_readEffect ..⟩
  · rintro hne _ w' c ⟨h', hs⟩ hc
    exact ⟨h'.writeEffect ⟨hs ▸ hne, hc⟩ r.write, (serverFd_writeEffect ..).trans hs⟩
  · rintro hne w' c ⟨h', hs⟩ hc
    exact ⟨h'.closed ⟨hs ▸ hne, hc⟩, hs⟩

theorem backlogged_init (serverFd : Fd) : Backlogged (World.init serverFd) :=
  { tableOk_init serverFd with
    backlog := fun fd c hc => absurd hc (not_isClient_init serverFd fd c) }

theorem backlogged_of_reachable {Serve : World → Event → SysResults → Prop}
    (h : Reachable EpollReports Serve serverFd w events) : Backlogged w := by
  induction h with
  | start => exact backlogged_init serverFd
  | wait _ _ ih => exact ih
  | serve hr ha _ ih =>
    exact ih.afterEvent (drained_of_reachable hr) (interestOk_of_reachable hr)
      (epollReports_of_reachable hr) ha

/-! ## Nothing is read from a connection with a backlog -/

/-- Nothing was read from the socket and nothing carried out for it. -/
structure Paused (s : ℕ) (w w' : World) : Prop where
  received : w'.kernel.received s = w.kernel.received s
  calls : callsOf s w'.executed = callsOf s w.executed

theorem paused_of_effect (he : EventEffect w event r w') (hs : ¬ ReadsFrom w s event) :
    Paused s w w' := by
  obtain ⟨new, hnew, -, hsocket⟩ := he.executed
  constructor
  · rw [he.received, if_neg hs, List.append_nil]
  · rw [hnew, callsOf_append, List.append_right_eq_self]
    refine List.filter_eq_nil_iff.mpr fun e hmem hsock => hs ?_
    exact of_decide_eq_true hsock ▸ hsocket e hmem

/-- **No event reads from a connection with a backlog.** -/
theorem not_readsFrom (hi : InterestOk w) (hr : EpollReports w (event :: events))
    (hc : IsClient w fd c) (hout : c.outgoing ≠ []) :
    ¬ ReadsFrom w (w.kernel.socketOf fd) event := by
  rintro ⟨hne, hin, hs⟩
  obtain ⟨d, hd, hempty, -⟩ := hr.client hi hne
  have hfd := hi.distinct _ _ _ _ hd hc hs
  rw [hfd] at hd
  obtain rfl := Option.some.inj (hd.2.symm.trans hc.2)
  exact hout (hempty hin)

/-! ## Runs -/

theorem length_responseBytes_le {resps : List Response} {k : ℕ}
    (h : ∀ resp ∈ resps, resp.frame.length ≤ k) :
    (responseBytes resps).length ≤ resps.length * k := by
  rw [responseBytes, List.length_flatten, List.map_map]
  refine (List.sum_le_card_nsmul _ k fun n hn => ?_).trans_eq ?_
  · obtain ⟨resp, hresp, rfl⟩ := List.mem_map.mp hn
    exact h resp hresp
  · rw [List.length_map]
    rfl

/-- The frame of a response in a history. -/
theorem length_frame_of_consistent (h : Consistent w) :
    ∀ e ∈ w.executed, e.resp.frame.length ≤ maxMsgFieldSize - 6 := by
  intro e he
  have hlen := length_resp_of_consistent h e he
  have hmax := maxMsgFieldSize_eq
  rw [Response.frame_eq_record _ (by omega), length_record, List.length_cons]
  omega

/-- **Backpressure.** In every run, of the requests carried out for a client all but the last few
were answered in full; what waits to be sent to it is bounded; and while something waits, nothing is
read from it and nothing carried out for it. -/
theorem backlog_of_run (h : Reachable EpollReports anyResults serverFd w events)
    (hc : IsClient w fd c) :
    (∃ answered waiting, callsOf (w.kernel.socketOf fd) w.executed = answered ++ waiting ∧
        waiting.length ≤ maxBacklog ∧ responseBytes (answered.map Execution.resp) <+:
          w.kernel.written (w.kernel.socketOf fd)) ∧
      c.outgoing.length ≤ maxBacklog * (maxMsgFieldSize - 6) ∧
      ∀ event rest r, events = event :: rest → r.Allowed w → c.outgoing ≠ [] →
        Paused (w.kernel.socketOf fd) w (afterEvent event r w) := by
  have hhistory := consistent_of_reachable h
  obtain ⟨waiting, ⟨answered, hcalls⟩, hlen, before, hout⟩ :=
    (backlogged_of_reachable h).backlog fd c hc
  refine ⟨⟨answered, waiting, hcalls.symm, hlen, ?_⟩, ?_, ?_⟩
  · have hwritten := hhistory.written fd c hc
    rw [answersTo, ← hcalls, List.map_append, responseBytes_append, ← hout, ← List.append_assoc,
      List.append_cancel_right_eq] at hwritten
    rw [hwritten]
    exact List.prefix_append ..
  · have hsuffix : c.outgoing.length ≤ (responseBytes (waiting.map Execution.resp)).length := by
      rw [← hout, List.length_append]
      omega
    have hframes : ∀ resp ∈ waiting.map Execution.resp,
        resp.frame.length ≤ maxMsgFieldSize - 6 := by
      intro resp hresp
      obtain ⟨e, he, rfl⟩ := List.mem_map.mp hresp
      have hmem : e ∈ callsOf (w.kernel.socketOf fd) w.executed :=
        hcalls ▸ List.mem_append_right answered he
      exact length_frame_of_consistent hhistory e (List.mem_of_mem_filter hmem)
    refine hsuffix.trans ((length_responseBytes_le hframes).trans ?_)
    rw [List.length_map]
    exact Nat.mul_le_mul_right _ hlen
  · rintro event rest r rfl ha hne
    have hi := interestOk_of_reachable h
    have hr := epollReports_of_reachable h
    exact paused_of_effect (eventEffect_afterEvent hi (drained_of_reachable h) hr ha)
      (not_readsFrom hi hr hc hne)

/-- Two responses wait to be sent. -/
theorem backlog_of_pipelined_run :
    (∃ c, IsClient halfClosedRead 7 c ∧ c.outgoing ≠ [] ∧
        c.outgoing.length ≤ maxBacklog * (maxMsgFieldSize - 6)) ∧
      Paused (halfClosedRead.kernel.socketOf 7) halfClosedRead
        (afterEvent ⟨7, EPOLLOUT⟩ { SysResults.again with write := .wrote 3 } halfClosedRead) := by
  have haccept : Reachable EpollReports anyResults 3 pipelinedAccept [] :=
    reachable_pipelinedAccept (.single (m := EPOLLIN) rfl id id) trivial
  have hread : Reachable EpollReports anyResults 3 halfClosedRead [⟨7, EPOLLOUT⟩] :=
    .wait (haccept.single (.single (m := EPOLLIN) (by decide) id id)
      (.of_read _ (by decide) (by decide)) trivial) (.single (m := EPOLLOUT) (by decide) id id)
  obtain ⟨c, hc, hout⟩ : ∃ c, halfClosedRead.connections 7 = some c ∧ c.outgoing ≠ [] :=
    ⟨_, rfl, by decide⟩
  have hclient : IsClient halfClosedRead 7 c := ⟨by decide, hc⟩
  obtain ⟨-, hlen, hpaused⟩ := backlog_of_run hread hclient
  exact ⟨⟨c, hclient, hout, hlen⟩, hpaused _ _ _ rfl (.of_write _ _) hout⟩

end Byor.Optimized
