import Byor.Optimized.History

/-!
# The interest registered with epoll

Between events the server waits for `EPOLLOUT` on a connection exactly when it has something to
send, and for `EPOLLIN` otherwise (`InterestOk`). With what `epoll_wait` promises (`EpollReports`)
this decides which handlers an event can run: a read event meets an empty outgoing buffer, so the
close at end-of-file loses nothing.

* `InterestOk.readEffect`, `InterestOk.writeEffect`, `InterestOk.newEffect`: the handlers keep the
  invariant, although the worlds inside a handler do not have it.
* `afterEvent_connections`: serving an event leaves the other connections alone.
* `EpollReports.afterEvent`: so a batch stays truthful while its events are served.
-/

namespace Byor.Optimized

open Wire

variable {w w' : World} {conn fd : Fd} {c : Connection} {event : Event} {r : SysResults}

/-- The interest a connection should have. -/
def interestFor (c : Connection) : EventMask := if c.outgoing = [] then EPOLLIN else EPOLLOUT

/-- **The interest invariant**: every entry of the table, and nothing else, is registered, with the
interest its outgoing buffer asks for. -/
structure InterestOk (w : World) : Prop extends TableOk w where
  interest : ∀ fd, w.kernel.interest fd = (w.connections fd).map interestFor

theorem interestFor_of_empty (h : c.outgoing = []) : interestFor c = EPOLLIN := if_pos h

theorem interestFor_of_nonempty (h : c.outgoing ≠ []) : interestFor c = EPOLLOUT := if_neg h

theorem interestFor_eq_in_iff : interestFor c = EPOLLIN ↔ c.outgoing = [] := by
  unfold interestFor
  split
  · rename_i h
    exact ⟨fun _ => h, fun _ => rfl⟩
  · rename_i h
    exact ⟨fun he => absurd he (by decide), fun he => absurd he h⟩

theorem interestFor_eq_out_iff : interestFor c = EPOLLOUT ↔ c.outgoing ≠ [] := by
  unfold interestFor
  split
  · rename_i h
    exact ⟨fun he => absurd he (by decide), fun he => absurd h he⟩
  · rename_i h
    exact ⟨fun _ => h, fun _ => rfl⟩

theorem InterestOk.interest_eq (h : InterestOk w) (hc : w.connections fd = some c) :
    w.kernel.interest fd = some (interestFor c) := by
  rw [h.interest, hc]
  rfl

theorem InterestOk.exists_of_interest (h : InterestOk w) {m : EventMask}
    (hm : w.kernel.interest fd = some m) : ∃ c, w.connections fd = some c ∧ m = interestFor c := by
  rw [h.interest] at hm
  obtain ⟨c, hc, rfl⟩ := Option.map_eq_some_iff.mp hm
  exact ⟨c, hc, rfl⟩

/-! ## Operations -/

/-- A handler that replaces an entry and leaves the right interest behind. -/
theorem InterestOk.of_update (h : InterestOk w) (ht : TableOk w') (c' : Connection)
    (hconn : w'.connections = Function.update w.connections conn (some c'))
    (hint : w'.kernel.interest = Function.update w.kernel.interest conn (some (interestFor c'))) :
    InterestOk w' := by
  refine { ht with interest := fun fd => ?_ }
  rw [hconn, hint]
  by_cases he : fd = conn
  · subst he
    rw [Function.update_self, Function.update_self]
    rfl
  · rw [Function.update_of_ne he, Function.update_of_ne he]
    exact h.interest fd

theorem InterestOk.update_self (h : InterestOk w) {c' : Connection}
    (hc : w.connections conn = some c) (he : interestFor c' = interestFor c) :
    w.kernel.interest = Function.update w.kernel.interest conn (some (interestFor c')) := by
  rw [he, ← h.interest_eq hc, Function.update_eq_self]

theorem InterestOk.modified_interest (h : InterestOk w) (hc : w.connections conn = some c)
    (m : EventMask) :
    (w.kernel.epollMod conn m).interest = Function.update w.kernel.interest conn (some m) := by
  change Function.update w.kernel.interest conn ((w.kernel.interest conn).map fun _ => m) = _
  rw [h.interest_eq hc]
  rfl

/-- Closing takes the entry and its interest away together, whatever the interest was. -/
theorem TableOk.interestOk_closed (ht : TableOk w) (hc : IsClient w conn c)
    (h : ∀ fd, fd ≠ conn → w.kernel.interest fd = (w.connections fd).map interestFor) :
    InterestOk (w.closed conn) := by
  refine { ht.closed hc with interest := fun fd => ?_ }
  rw [ht.close_eq hc.2]
  by_cases he : fd = conn
  · subst he
    rw [closed_connections]
    exact Function.update_self ..
  · rw [closed_connections_ne he]
    exact (Function.update_of_ne he ..).trans (h fd he)

theorem InterestOk.closed (h : InterestOk w) (hc : IsClient w conn c) :
    InterestOk (w.closed conn) := h.toTableOk.interestOk_closed hc fun fd _ => h.interest fd

theorem drained_connections_eq (b : Bytes) : (w.drained conn c b).connections =
    Function.update w.connections conn (some (c.drained w.gData b)) := Function.update_idem ..

/-- Responses are never empty, and nothing is taken off the outgoing buffer while requests are
served. -/
theorem drained_outgoing_eq_nil {gData : Store} {b : Bytes}
    (h : (c.drained gData b).outgoing = []) : c.outgoing = [] :=
  (List.append_eq_nil_iff.mp h).1

theorem InterestOk.readEffect (h : InterestOk w) (hc : IsClient w conn c) (r : ReadResult) :
    InterestOk (w.readEffect conn c r) := by
  cases r with
  | eof => exact h.closed hc
  | error errno => exact h
  | bytes b =>
    have ht := h.toTableOk.drained hc.2 b
    unfold World.readEffect
    simp only
    split
    · -- a header above the limit: the connection is gone with its interest
      refine ht.interestOk_closed ⟨hc.1, drained_connections b⟩ fun fd he => ?_
      rw [drained_connections_ne he]
      exact h.interest fd
    unfold World.afterRead
    split
    · rename_i hout
      refine h.of_update ht _ (drained_connections_eq b) (h.update_self hc.2 ?_)
      rw [interestFor_of_empty hout, interestFor_of_empty (drained_outgoing_eq_nil hout)]
    · rename_i hout
      refine h.of_update (ht.modified conn EPOLLOUT) _ (drained_connections_eq b) ?_
      rw [interestFor_of_nonempty hout]
      exact h.modified_interest hc.2 EPOLLOUT

theorem InterestOk.writeEffect (h : InterestOk w) (hc : IsClient w conn c) (r : WriteResult) :
    InterestOk (w.writeEffect conn c r) := by
  unfold World.writeEffect
  split
  · rename_i hout
    refine h.of_update (h.toTableOk.modified conn EPOLLIN) c
      (by rw [← hc.2, Function.update_eq_self]; rfl) ?_
    rw [interestFor_of_empty hout]
    exact h.modified_interest hc.2 EPOLLIN
  rename_i hout
  cases r with
  | error errno =>
    simp only
    split
    · exact h
    · exact h.closed hc
  | wrote n =>
    have ht := h.toTableOk.wrote hc.2 n
    simp only [World.afterWrite]
    split
    · rename_i hempty
      refine h.of_update (ht.modified conn EPOLLIN) (c.wrote n) rfl ?_
      rw [interestFor_of_empty hempty]
      exact h.modified_interest hc.2 EPOLLIN
    · rename_i hmore
      refine h.of_update ht (c.wrote n) rfl (h.update_self hc.2 ?_)
      rw [interestFor_of_nonempty hmore, interestFor_of_nonempty hout]

theorem InterestOk.refused (h : InterestOk w) (ho : w.kernel.isOpen fd = false) :
    InterestOk (w.refused fd) := by
  have hk : (w.refused fd).kernel = _ := accept_close_eq w.kernel fd
  refine { h.toTableOk.refused ho with interest := fun fd' => ?_ }
  rw [hk]
  by_cases he : fd' = fd
  · subst he
    have hnone : (w.refused fd').connections fd' = none := h.none_of_closed ho
    rw [hnone]
    exact Function.update_self ..
  · exact (Function.update_of_ne he ..).trans (h.interest fd')

theorem InterestOk.accepted (h : InterestOk w) (ho : w.kernel.isOpen fd = false) :
    InterestOk (w.accepted fd) :=
  h.of_update (h.toTableOk.accepted ho) ⟨fd, [], []⟩ rfl rfl

theorem InterestOk.newEffect (h : InterestOk w) (ha : r.Allowed w) : InterestOk (w.newEffect r) :=
  h.newEffect_cases ha h (fun ho => h.refused ho) fun ho => h.accepted ho

theorem InterestOk.afterEvent (h : InterestOk w) (ha : r.Allowed w) :
    InterestOk (afterEvent event r w) :=
  (afterEvent_effects h (fun _ h' => h'.toTableOk) (h.newEffect ha)
    (fun _ hc => h.readEffect hc r.read) (fun _ _ h' hc => h'.writeEffect hc r.write)
    fun _ _ h' hc => h'.closed hc).1

theorem interestOk_init (serverFd : Fd) : InterestOk (World.init serverFd) := by
  refine { tableOk_init serverFd with interest := fun fd => ?_ }
  by_cases he : fd = serverFd
  · subst he
    have hint : (World.init fd).kernel.interest fd = some EPOLLIN := Function.update_self ..
    have hself : (World.init fd).connections fd = some ⟨fd, [], []⟩ := Function.update_self ..
    rw [hint, hself]
    rfl
  · have hint : (World.init serverFd).kernel.interest fd = none := Function.update_of_ne he ..
    have hnone : (World.init serverFd).connections fd = none := Function.update_of_ne he ..
    rw [hint, hnone]
    rfl

theorem interestOk_of_reachable {Wait : World → List Event → Prop}
    {Serve : World → Event → SysResults → Prop} {serverFd : Fd} {events : List Event}
    (h : Reachable Wait Serve serverFd w events) : InterestOk w :=
  h.invariant (interestOk_init serverFd) fun _ _ _ hw ha => hw.afterEvent ha

/-! ## Batches -/

/-- Serving an event leaves the entries of the other descriptors alone. -/
theorem afterEvent_connections (ht : TableOk w) (ha : r.Allowed w)
    (hc : w.connections fd = some c) (hne : fd ≠ event.fd) :
    (afterEvent event r w).connections fd = some c := by
  have key : (TableOk (Optimized.afterEvent event r w) ∧
      (Optimized.afterEvent event r w).connections fd = some c) ∧
        (Optimized.afterEvent event r w).serverFd = w.serverFd :=
    afterEvent_steps (P := fun w' => TableOk w' ∧ w'.connections fd = some c) ⟨ht, hc⟩ ha
      (fun _ h => h.1)
      (fun fd' ho => ⟨ht.refused ho, hc⟩)
      (fun fd' ho => ⟨ht.accepted ho, (accepted_connections_ne (ht.ne_of_closed ho hc)).trans hc⟩)
      (fun c' b hc' => ⟨ht.drained hc'.2 b, (drained_connections_ne hne b).trans hc⟩)
      (fun w' c' n h hc' => ⟨h.1.wrote hc'.2 n, (setConn_connections_ne hne _).trans h.2⟩)
      (fun w' m h => ⟨h.1.modified _ m, h.2⟩)
      (fun w' c' h hc' => ⟨h.1.closed hc', (closed_connections_ne hne).trans h.2⟩)
  exact key.1.2

/-- **A batch stays truthful** while its events are served. -/
theorem EpollReports.afterEvent {events : List Event} (h : EpollReports w (event :: events))
    (hi : InterestOk w) (ha : r.Allowed w) : EpollReports (afterEvent event r w) events := by
  obtain ⟨hne, hnodup⟩ := List.nodup_cons.mp h.nodup
  refine ⟨hnodup, fun e he => ?_⟩
  obtain ⟨m, hm, hin, hout⟩ := h.registered e (List.mem_cons_of_mem event he)
  obtain ⟨c, hc, rfl⟩ := hi.exists_of_interest hm
  have hfd : e.fd ≠ event.fd := fun he' => hne (he' ▸ List.mem_map_of_mem he)
  have hc' := afterEvent_connections hi.toTableOk ha hc hfd
  exact ⟨interestFor c, (hi.afterEvent ha).interest_eq hc', hin, hout⟩

theorem epollReports_of_reachable {Serve : World → Event → SysResults → Prop} {serverFd : Fd}
    {events : List Event} (h : Reachable EpollReports Serve serverFd w events) :
    EpollReports w events := by
  induction h with
  | start => exact ⟨List.nodup_nil, fun _ he => absurd he List.not_mem_nil⟩
  | wait _ hb _ => exact hb
  | serve hr ha _ ih => exact ih.afterEvent (interestOk_of_reachable hr) ha

theorem EpollReports.cons {events : List Event} {m : EventMask} (h : EpollReports w events)
    (hm : w.kernel.interest event.fd = some m) (hin : event.events.epollin → m.epollin)
    (hout : event.events.epollout → m.epollout) (hne : event.fd ∉ events.map Event.fd) :
    EpollReports w (event :: events) := by
  refine ⟨List.nodup_cons.mpr ⟨hne, h.nodup⟩, fun e he => ?_⟩
  rcases List.mem_cons.mp he with rfl | he
  · exact ⟨m, hm, hin, hout⟩
  · exact h.registered e he

theorem EpollReports.single {m : EventMask} (hm : w.kernel.interest event.fd = some m)
    (hin : event.events.epollin → m.epollin) (hout : event.events.epollout → m.epollout) :
    EpollReports w [event] :=
  .cons ⟨List.nodup_nil, fun _ he => absurd he List.not_mem_nil⟩ hm hin hout List.not_mem_nil

/-- The event is for a connection in the table, and asks for no more than its interest. -/
theorem EpollReports.client {events : List Event} (h : EpollReports w (event :: events))
    (hi : InterestOk w) (hne : event.fd ≠ w.serverFd) : ∃ c, IsClient w event.fd c ∧
      (event.events.epollin → c.outgoing = []) ∧ (event.events.epollout → c.outgoing ≠ []) := by
  obtain ⟨m, hm, hin, hout⟩ := h.registered event List.mem_cons_self
  obtain ⟨c, hc, rfl⟩ := hi.exists_of_interest hm
  refine ⟨c, ⟨hne, hc⟩, fun he => ?_, fun he => ?_⟩
  · by_contra hne'
    have hflag := hin he
    rw [interestFor_of_nonempty hne'] at hflag
    cases hflag
  · intro hempty
    have hflag := hout he
    rw [interestFor_of_empty hempty] at hflag
    cases hflag

/-! ## End of file -/

/-- A read event that meets end-of-file ends with the connection closed, whatever follows. -/
theorem afterEvent_eof (hfd : c.fd = event.fd) (hc : IsClient w event.fd c)
    (hin : event.events.epollin = true) (hr : r.read = .eof) :
    afterEvent event r w = w.closed event.fd := by
  have hread : (readBranch event r).run w = .ok () (w.closed event.fd) := by
    rw [readBranch, if_pos hin, hr]
    exact run_handleReadEvent_eof hc.2 hfd
  have hnone : (w.closed event.fd).connections event.fd = none := closed_connections _
  rw [afterEvent, run_dispatch_client hc.1 hc.2, EStateM.run_bind, hread]
  simp only [EStateM.run_bind, writeBranch, closeBranch]
  cases event.events.epollout with
  | true =>
    simp only [if_true, run_handleWriteEvent_none hnone]
    rfl
  | false =>
    simp only [Bool.false_eq_true, if_false, EStateM.run_pure]
    split
    · rw [run_handleCloseEvent_none hnone]
      rfl
    · rfl

/-- **The interest follows the outgoing buffer** in every state between events; a read event meets
an empty outgoing buffer; and when it meets end-of-file, every response to the requests of the
socket has been written, before the close and after it. -/
theorem interest_of_run {serverFd : Fd} {events : List Event}
    (h : Reachable EpollReports anyResults serverFd w events) :
    (∀ fd c, IsClient w fd c →
      (w.kernel.interest fd = some EPOLLOUT ↔ c.outgoing ≠ []) ∧
        (w.kernel.interest fd = some EPOLLIN ↔ c.outgoing = [])) ∧
      ∀ event rest, events = event :: rest → event.fd ≠ w.serverFd →
        event.events.epollin = true →
          ∃ c, IsClient w event.fd c ∧ c.outgoing = [] ∧
            ∀ r : SysResults, r.read = .eof →
              (afterEvent event r w).connections event.fd = none ∧
                (afterEvent event r w).kernel.written (w.kernel.socketOf event.fd) =
                  answersTo (w.kernel.socketOf event.fd) (afterEvent event r w).executed := by
  have hi := interestOk_of_reachable h
  have hc := consistent_of_reachable h
  constructor
  · intro fd c hcl
    rw [hi.interest_eq hcl.2, Option.some_inj, Option.some_inj]
    exact ⟨interestFor_eq_out_iff, interestFor_eq_in_iff⟩
  · rintro event rest rfl hne hin
    obtain ⟨c, hcl, hempty, -⟩ := (epollReports_of_reachable h).client hi hne
    refine ⟨c, hcl, hempty hin, fun r hr => ?_⟩
    rw [afterEvent_eof (hi.entry event.fd c hcl.2) hcl hin hr, hi.close_eq hcl.2]
    refine ⟨closed_connections _, ?_⟩
    have hwritten := hc.written event.fd c hcl
    rwa [hempty hin, List.append_nil] at hwritten

/-- One read brings both frames of a client that pipelines. -/
def halfClosedRead : World :=
  afterEvent ⟨7, EPOLLIN⟩ { SysResults.again with read := .bytes pipelinedFrames } pipelinedAccept

/-- Both responses are written at once. -/
def halfClosedDone : World :=
  afterEvent ⟨7, EPOLLOUT⟩ { SysResults.again with write := .wrote 100 } halfClosedRead

/-- The client then half-closes: nothing of its two responses is lost. -/
theorem interest_of_half_closed_run :
    halfClosedRead.kernel.interest 7 = some EPOLLOUT ∧ halfClosedDone.executed.length = 2 ∧
      (afterEvent ⟨7, EPOLLIN⟩ { SysResults.again with read := .eof }
          halfClosedDone).kernel.written 0 =
        answersTo 0 (afterEvent ⟨7, EPOLLIN⟩ { SysResults.again with read := .eof }
          halfClosedDone).executed := by
  have haccept : Reachable EpollReports anyResults 3 pipelinedAccept [] :=
    reachable_pipelinedAccept (.single (m := EPOLLIN) rfl id id) trivial
  have hread : Reachable EpollReports anyResults 3 halfClosedRead [] :=
    haccept.single (.single (m := EPOLLIN) (by decide) id id)
      (.of_read _ (by decide) (by decide)) trivial
  have hdone : Reachable EpollReports anyResults 3 halfClosedDone [⟨7, EPOLLIN⟩] :=
    .wait (hread.single (.single (m := EPOLLOUT) (by decide) id id) (.of_write _ _) trivial)
      (.single (m := EPOLLIN) (by decide) id id)
  obtain ⟨c, -, -, heof⟩ := (interest_of_run hdone).2 _ _ rfl (by decide) rfl
  exact ⟨by decide, by decide, (heof { SysResults.again with read := .eof } rfl).2⟩

end Byor.Optimized
