import Byor.EventLoop.Ideal

/-!
# The interest of the earlier servers

In the earlier servers a read event goes on to write at once, and every write that leaves something
registers `EPOLLOUT` again. Between events the interest is still the one the outgoing buffer asks
for (`Interested`), so a read event meets an empty outgoing buffer, as in the optimized server.

* `Unsettled`: inside a handler this holds of the other connections only; what `handle_read_event`
  does after its parse loop settles it (`Unsettled.afterLoop`).
* `interested_of_run`: it holds between events in every run, for both servers.
* `interest_of_echoRun`: what it means for the echo server.
-/

namespace Byor.EventLoop

open Wire Optimized

variable {w w₀ w' : World} {conn fd : Fd} {c : Connection} {event : Event} {events : List Event}

/-- **Every entry is registered with the interest its outgoing buffer asks for.** -/
structure Interested (w : World) : Prop extends Registered w where
  asked : ∀ fd, w.kernel.interest fd = (w.connections fd).map interestFor

/-- The same but for one connection, which may have got something to send. -/
structure Unsettled (conn : Fd) (w : World) : Prop extends Registered w where
  others : ∀ fd, fd ≠ conn → w.kernel.interest fd = (w.connections fd).map interestFor
  empty : ∀ c, w.connections conn = some c → c.outgoing = [] →
    w.kernel.interest conn = some EPOLLIN

theorem Interested.asked_of (h : Interested w) (hc : w.connections conn = some c) :
    w.kernel.interest conn = some (interestFor c) := by
  rw [h.asked, hc]
  rfl

theorem Interested.unsettled (h : Interested w) (conn : Fd) : Unsettled conn w where
  toRegistered := h.toRegistered
  others fd _ := h.asked fd
  empty c hc hout := by rw [h.asked_of hc, interestFor_of_empty hout]

/-! ## What settles a connection -/

theorem Unsettled.of_update (h : Unsettled conn w) (hr : Registered w') (c' : Connection)
    (hconn : w'.connections = Function.update w.connections conn (some c'))
    (hint : w'.kernel.interest = Function.update w.kernel.interest conn (some (interestFor c'))) :
    Interested w' := by
  refine { hr with asked := fun fd => ?_ }
  rw [hconn, hint]
  by_cases he : fd = conn
  · subst he
    rw [Function.update_self, Function.update_self]
    rfl
  · rw [Function.update_of_ne he, Function.update_of_ne he]
    exact h.others fd he

/-- A connection that is left as it is, with the right interest. -/
theorem Unsettled.of_asked (h : Unsettled conn w) (hc : w.connections conn = some c)
    (hint : w.kernel.interest conn = some (interestFor c)) : Interested w :=
  h.of_update h.toRegistered c (by rw [← hc, Function.update_eq_self])
    (by rw [← hint, Function.update_eq_self])

theorem Unsettled.closed (h : Unsettled conn w) (hne : conn ≠ w.serverFd) :
    Interested (w.closed conn) := by
  refine { h.toRegistered.closed hne with asked := fun fd => ?_ }
  rw [closed_interest]
  by_cases he : fd = conn
  · subst he
    rw [closed_connections]
    exact Function.update_self ..
  · rw [closed_connections_ne he]
    exact (Function.update_of_ne he ..).trans (h.others fd he)

/-- A connection that is gone has no interest left. -/
theorem Unsettled.of_none (h : Unsettled conn w) (hnone : w.connections conn = none) :
    Interested w := by
  refine { h.toRegistered with asked := fun fd => ?_ }
  by_cases he : fd = conn
  · subst he
    have hint := h.interest fd
    rw [← h.isOpen, hnone] at hint
    rw [hnone]
    exact Option.not_isSome_iff_eq_none.mp (Bool.eq_false_iff.mp hint)
  · exact h.others fd he

theorem modified_interest (h : Registered w) (hc : w.connections conn = some c) (m : EventMask) :
    (w.modified conn m).kernel.interest = Function.update w.kernel.interest conn (some m) := by
  have hsome : (w.kernel.interest conn).isSome = true := by
    rw [h.interest, ← h.isOpen, hc]
    rfl
  obtain ⟨m', hm'⟩ := Option.isSome_iff_exists.mp hsome
  change Function.update w.kernel.interest conn ((w.kernel.interest conn).map fun _ => m) = _
  rw [hm']
  rfl

/-- **A write settles the connection**, if it is registered for `EPOLLOUT` while it has something to
send. -/
theorem Unsettled.writeEffect (h : Unsettled conn w) (hc : IsClient w conn c)
    (hout : c.outgoing ≠ [] → w.kernel.interest conn = some EPOLLOUT) (r : WriteResult) :
    Interested (writeEffect w conn c r) := by
  unfold EventLoop.writeEffect
  split
  · rename_i hempty
    refine h.of_update (h.toRegistered.modified conn EPOLLIN) c
      (by rw [← hc.2, Function.update_eq_self]; rfl) ?_
    rw [interestFor_of_empty hempty]
    exact modified_interest h.toRegistered hc.2 EPOLLIN
  rename_i hmore
  cases r with
  | error errno =>
    simp only
    split
    · refine h.of_asked hc.2 ?_
      rw [interestFor_of_nonempty hmore]
      exact hout hmore
    · exact h.closed hc.1
  | wrote n =>
    have hwrote : Registered (w.wrote conn c n) := h.toRegistered.of_kept (kept_wrote hc.2 n)
    refine h.of_update (hwrote.modified conn _) (c.wrote n) rfl ?_
    exact modified_interest hwrote (setConn_connections _) _

/-- **What follows the parse loop** settles the connection, if it is still there. -/
theorem Unsettled.afterLoop (h : Unsettled conn w) (hne : conn ≠ w.serverFd) (r : Results) :
    Leaves Interested (afterLoop r conn) w := by
  cases hc : w.connections conn with
  | none =>
    intro w' hrun
    rw [run_afterLoop_none hc] at hrun
    split at hrun
    · cases hrun
      exact h.of_none hc
    · cases hrun
  | some c =>
    refine leaves_of_run (run_afterLoop hc (h.entry conn c hc)) ?_
    split
    · rename_i hempty
      refine h.of_asked hc ?_
      rw [interestFor_of_empty hempty]
      exact h.empty c hc hempty
    · rename_i hmore
      have hint := modified_interest h.toRegistered hc EPOLLOUT
      have hmodified : Unsettled conn (w.modified conn EPOLLOUT) := by
        refine { h.toRegistered.modified conn EPOLLOUT with
          others := fun fd he => ?_, empty := fun d hd hempty => ?_ }
        · rw [hint, Function.update_of_ne he]
          exact h.others fd he
        · obtain rfl := Option.some.inj (hc.symm.trans hd)
          exact absurd hempty hmore
      refine hmodified.writeEffect ⟨hne, hc⟩ (fun _ => ?_) r.writeNow
      rw [hint, Function.update_self]

/-! ## The other connections -/

/-- The other connections are as before. -/
structure Apart (conn : Fd) (w₀ w : World) : Prop where
  serverFd : w.serverFd = w₀.serverFd
  others : ∀ fd, fd ≠ conn → w.connections fd = w₀.connections fd

theorem Apart.refl (conn : Fd) (w : World) : Apart conn w w := ⟨rfl, fun _ _ => rfl⟩

theorem Apart.modified (h : Apart conn w₀ w) (m : EventMask) :
    Apart conn w₀ (w.modified conn m) := ⟨h.serverFd, h.others⟩

theorem Apart.closed (h : Apart conn w₀ w) : Apart conn w₀ (w.closed conn) :=
  ⟨h.serverFd, fun fd he => (closed_connections_ne he).trans (h.others fd he)⟩

theorem Apart.writeEffect (h : Apart conn w₀ w) (c : Connection) (r : WriteResult) :
    Apart conn w₀ (writeEffect w conn c r) := by
  unfold EventLoop.writeEffect
  split
  · exact h.modified EPOLLIN
  cases r with
  | error errno =>
    simp only
    split
    · exact h
    · exact h.closed
  | wrote n => exact ⟨h.serverFd, fun fd he => (setConn_connections_ne he _).trans (h.others fd he)⟩

theorem Apart.afterLoop (h : Apart conn w₀ w) (hr : Registered w) (r : Results) :
    Leaves (Apart conn w₀) (afterLoop r conn) w := by
  cases hc : w.connections conn with
  | none =>
    intro w' hrun
    rw [run_afterLoop_none hc] at hrun
    split at hrun
    · cases hrun
      exact h
    · cases hrun
  | some c =>
    refine leaves_of_run (run_afterLoop hc (hr.entry conn c hc)) ?_
    split
    · exact h
    · exact (h.modified EPOLLOUT).writeEffect c r.writeNow

/-! ## Events -/

/-- A world an event of `conn` can lead to. -/
structure Tended (conn : Fd) (w₀ w : World) : Prop extends Interested w, Apart conn w₀ w

theorem Tended.handleWriteEvent (h : Tended conn w₀ w) (hne : conn ≠ w₀.serverFd)
    (r : WriteResult) : Leaves (Tended conn w₀) (handleWriteEvent r conn) w := by
  cases hc : w.connections conn with
  | none => exact leaves_of_throw (run_handleWriteEvent_none hc r)
  | some c =>
    have hclient : IsClient w conn c := ⟨h.serverFd ▸ hne, hc⟩
    refine leaves_of_run (run_handleWriteEvent hc (h.entry conn c hc) r)
      ⟨(h.unsettled conn).writeEffect hclient (fun hout => ?_) r, h.toApart.writeEffect c r⟩
    rw [h.asked_of hc, interestFor_of_nonempty hout]

/-- Closing a descriptor twice is refused by the kernel. -/
theorem Interested.close (h : Interested w) (hnone : w.connections conn = none) :
    Interested { w with kernel := w.kernel.close conn } := by
  have hopen : w.kernel.isOpen conn = false := by
    rw [← h.isOpen, hnone]
    rfl
  refine { h.toRegistered.of_kept (kept_close h.toRegistered hnone) with asked := fun fd => ?_ }
  have hint : (w.kernel.close conn).interest = w.kernel.interest := by
    rw [Kernel.close, hopen]
    rfl
  rw [hint]
  exact h.asked fd

theorem Tended.handleCloseEvent (h : Tended conn w₀ w) (hne : conn ≠ w₀.serverFd) :
    Leaves (Tended conn w₀) (handleCloseEvent conn) w := by
  cases hc : w.connections conn with
  | none =>
    exact leaves_of_run (run_handleCloseEvent_none hc)
      ⟨h.toInterested.close hc, h.serverFd, h.toApart.others⟩
  | some c =>
    exact leaves_of_run (run_handleCloseEvent hc)
      ⟨(h.unsettled conn).closed (h.serverFd ▸ hne), h.toApart.closed⟩

/-- What the parse loop of a read event leaves: bytes were added to the outgoing buffer of the
connection, or a header above the limit has closed it. -/
structure Appended (conn : Fd) (c : Connection) (w w₁ : World) : Prop where
  registered : Registered w₁
  serverFd : w₁.serverFd = w.serverFd
  interest : w₁.kernel.interest = w.kernel.interest
  connections : ∃ c₁, w₁.connections = Function.update w.connections conn (some c₁) ∧
    c.outgoing <+: c₁.outgoing

theorem Appended.unsettled (h : Appended conn c w w₀) (hi : Interested w)
    (hc : w.connections conn = some c) : Unsettled conn w₀ ∧ Apart conn w w₀ := by
  obtain ⟨c₁, hconn, hout⟩ := h.connections
  refine ⟨{ h.registered with
    others := fun fd he => ?_, empty := fun d hd hempty => ?_ }, h.serverFd, fun fd he => ?_⟩
  · rw [h.interest, hconn, Function.update_of_ne he]
    exact hi.asked fd
  · rw [hconn, Function.update_self] at hd
    obtain rfl := Option.some.inj hd
    rw [hempty, List.prefix_nil] at hout
    rw [h.interest, hi.asked_of hc, interestFor_of_empty hout]
  · rw [hconn, Function.update_of_ne he]

/-- **A read event**, if its parse loop adds to the outgoing buffer. -/
theorem Interested.readEvent {β : Type} (D : Decoder UInt8 β) (h : Interested w)
    (hne : conn ≠ w.serverFd) {tryRequest : Fd → Handler Bool} {onError : Handler Unit}
    {r : Results} (herror : Leaves (Tended conn w) onError w)
    (hloop : ∀ c b, w.connections conn = some c → ∃ w₁,
      (whileTrue ((c.incoming ++ b).length + 1) (tryRequest conn)).run (w.buffered conn c b) =
        .ok () (if OverLimit (D.drain (c.incoming ++ b)).2 then w₁.closed conn else w₁) ∧
          Appended conn c w w₁) :
    Leaves (Tended conn w) (readEvent tryRequest onError r conn) w := by
  have hself : Tended conn w w := ⟨h, .refl conn w⟩
  refine leaves_readEvent (h.entry conn) hself
    ⟨(h.unsettled conn).closed hne, hself.toApart.closed⟩ herror fun c b hc _ => ?_
  obtain ⟨w₁, hrun, happended⟩ := hloop c b hc
  obtain ⟨hu, hapart⟩ := happended.unsettled h hc
  have hne₁ : conn ≠ w₁.serverFd := hapart.serverFd ▸ hne
  refine ⟨_, hrun, fun w' hrun' => ?_⟩
  split at hrun'
  · have hclosed : Interested (w₁.closed conn) := hu.closed hne₁
    exact ⟨(hclosed.unsettled conn).afterLoop hne₁ r w' hrun',
      hapart.closed.afterLoop hclosed.toRegistered r w' hrun'⟩
  · exact ⟨hu.afterLoop hne₁ r w' hrun', hapart.afterLoop hu.toRegistered r w' hrun'⟩

/-! ## Accepting -/

theorem Interested.newEffect (h : Interested w) {r : SysResults} (ha : r.Allowed w) :
    Interested (w.newEffect r) := by
  refine newEffect_cases ha h.eq_none_of_closed h (fun ho => ?_) fun _ => ?_
  · have hk : (w.refused r.accept).kernel = _ := accept_close_eq w.kernel r.accept
    refine { h.toRegistered.refused ho with asked := fun fd => ?_ }
    rw [hk]
    by_cases he : fd = r.accept
    · subst he
      have hnone : (w.refused r.accept).connections r.accept = none := h.eq_none_of_closed ho
      rw [hnone]
      exact Function.update_self ..
    · exact (Function.update_of_ne he ..).trans (h.asked fd)
  · exact (h.unsettled r.accept).of_update (h.toRegistered.accepted r.accept) ⟨r.accept, [], []⟩
      rfl rfl

/-- The clients that are connected stay connected while another is accepted. -/
theorem newEffect_connections (h : Registered w) {r : SysResults} (ha : r.Allowed w)
    (hc : w.connections fd = some c) : (w.newEffect r).connections fd = some c := by
  refine newEffect_cases (P := fun w' => w'.connections fd = some c) ha h.eq_none_of_closed hc
    (fun _ => hc) fun ho => ?_
  have hne : fd ≠ r.accept := by
    rintro rfl
    rw [h.eq_none_of_closed ho] at hc
    cases hc
  exact (accepted_connections_ne hne).trans hc

/-! ## Runs -/

/-- What an event of the earlier servers does, if it returns. -/
def Tends (w : World) (event : Event) (w' : World) : Prop :=
  if event.fd = w.serverFd then ∃ r : SysResults, r.Allowed w ∧ w' = w.newEffect r
  else Tended event.fd w w'

/-- An event keeps the interest, and the entries of the other descriptors. -/
theorem Tends.interested (h : Tends w event w') (hi : Interested w) :
    Interested w' ∧ w'.serverFd = w.serverFd ∧
      ∀ fd c, fd ≠ event.fd → w.connections fd = some c → w'.connections fd = some c := by
  unfold Tends at h
  split at h
  · obtain ⟨r, ha, rfl⟩ := h
    exact ⟨hi.newEffect ha, serverFd_newEffect w r,
      fun _ _ _ hc => newEffect_connections hi.toRegistered ha hc⟩
  · exact ⟨h.toInterested, h.toApart.serverFd, fun fd c he hc => (h.others fd he).trans hc⟩

/-- A batch stays truthful while its events are served. -/
theorem Tends.epollReports (h : Tends w event w') (hi : Interested w)
    (hr : EpollReports w (event :: events)) : EpollReports w' events := by
  obtain ⟨hi', -, hothers⟩ := h.interested hi
  obtain ⟨hne, hnodup⟩ := List.nodup_cons.mp hr.nodup
  refine ⟨hnodup, fun e he => ?_⟩
  obtain ⟨m, hm, hin, hout⟩ := hr.registered e (List.mem_cons_of_mem event he)
  have hfd : e.fd ≠ event.fd := fun he' => hne (he' ▸ List.mem_map_of_mem he)
  rw [hi.asked] at hm
  obtain ⟨c, hc, rfl⟩ := Option.map_eq_some_iff.mp hm
  exact ⟨interestFor c, hi'.asked_of (hothers e.fd c hfd hc), hin, hout⟩

/-- **In every run of the earlier servers** under what epoll may report, the interest is the one the
outgoing buffers ask for, and the batch is as truthful as when it was delivered. -/
theorem interested_of_run {Serve : World → Event → World → Prop} {serverFd : Fd}
    (hserve : ∀ w event w', Interested w → Serve w event w' → Tends w event w')
    (h : BatchRun EpollReports Serve (World.init serverFd) w events) :
    Interested w ∧ EpollReports w events := by
  induction h with
  | start =>
    refine ⟨{ registered_init serverFd with asked := (interestOk_init serverFd).interest }, ?_⟩
    exact ⟨List.nodup_nil, fun _ he => absurd he List.not_mem_nil⟩
  | wait _ hb ih => exact ⟨ih.1, hb⟩
  | serve _ hs ih =>
    have htends := hserve _ _ _ ih.1 hs
    exact ⟨(htends.interested ih.1).1, htends.epollReports ih.1 ih.2⟩

theorem Interested.interest_iff (h : Interested w) (hc : w.connections conn = some c) :
    (w.kernel.interest conn = some EPOLLOUT ↔ c.outgoing ≠ []) ∧
      (w.kernel.interest conn = some EPOLLIN ↔ c.outgoing = []) := by
  rw [h.asked_of hc, Option.some_inj, Option.some_inj]
  exact ⟨interestFor_eq_out_iff, interestFor_eq_in_iff⟩

/-- **A read event meets an empty outgoing buffer.** -/
theorem Interested.read_finds_empty (h : Interested w) (hr : EpollReports w (event :: events))
    (hne : event.fd ≠ w.serverFd) (hin : event.events.epollin = true) :
    ∃ c, IsClient w event.fd c ∧ c.outgoing = [] := by
  obtain ⟨m, hm, hflag, -⟩ := hr.registered event List.mem_cons_self
  rw [h.asked] at hm
  obtain ⟨c, hc, rfl⟩ := Option.map_eq_some_iff.mp hm
  refine ⟨c, ⟨hne, hc⟩, ?_⟩
  by_contra hout
  have hmask := hflag hin
  rw [interestFor_of_nonempty hout] at hmask
  cases hmask

/-! ## The echo server -/

variable {r : Results} {serverFd : Fd}

theorem appended_moved (h : Registered w) (hc : w.connections conn = some c) (b : Bytes) :
    Appended conn c w (moved w conn c b) := by
  have hkept : Kept w (moved w conn c b) :=
    .of_update hc (echoed c (echoDecoder.drain (c.incoming ++ b)).1
      (echoDecoder.drain (c.incoming ++ b)).2) rfl rfl (moved_connections b) rfl rfl
  exact ⟨h.of_kept hkept, rfl, rfl, _, moved_connections b, List.prefix_append ..⟩

/-- Every event that is served keeps the interest. -/
theorem tends_of_dispatch (h : Interested w) (ha : r.toSysResults.Allowed w)
    (hrun : (dispatch event r).run w = .ok () w') : Tends w event w' := by
  unfold Tends
  split
  · rename_i hs
    cases (run_dispatch_server hs).symm.trans hrun
    exact ⟨r.toSysResults, ha, rfl⟩
  · rename_i hs
    have hself : Tended event.fd w w := ⟨h, .refl event.fd w⟩
    rw [run_dispatch_branches hs] at hrun
    refine leaves_branches hself ?_ (fun _ h' => h'.handleWriteEvent hs r.write)
      (fun _ h' => h'.handleCloseEvent hs) w' hrun
    refine h.readEvent echoDecoder hs (leaves_pure hself) fun c b hc => ?_
    exact ⟨_, run_whileTryRequest_all (h.entry _ c hc) b, appended_moved h.toRegistered hc b⟩

/-- **The interest of the echo server follows its outgoing buffers** in every state between events;
a read event finds every frame of its client that has come echoed, so that what it ends with, be it
end-of-file, loses nothing. -/
theorem interest_of_echoRun (h : EchoRun EpollReports serverFd w events) :
    (∀ fd c, IsClient w fd c →
      (w.kernel.interest fd = some EPOLLOUT ↔ c.outgoing ≠ []) ∧
        (w.kernel.interest fd = some EPOLLIN ↔ c.outgoing = [])) ∧
      ∀ event rest, events = event :: rest → event.fd ≠ w.serverFd →
        event.events.epollin = true → ∃ c, IsClient w event.fd c ∧ c.outgoing = [] ∧
          written w event.fd = echoBytes (echoDecoder.drain (received w event.fd)).1 := by
  have hserve : ∀ w event w', Interested w → (∃ r : Results, r.toSysResults.Allowed w ∧
      (dispatch event r).run w = .ok () w') → Tends w event w' := by
    rintro w event w' hi ⟨r, ha, hrun⟩
    exact tends_of_dispatch hi ha hrun
  obtain ⟨hi, hr⟩ := interested_of_run hserve h
  refine ⟨fun fd c hc => hi.interest_iff hc.2, ?_⟩
  rintro event rest rfl hne hin
  obtain ⟨c, hc, hempty⟩ := hi.read_finds_empty hr hne hin
  obtain ⟨arr, -, he⟩ := explained_of_echoRun h
  refine ⟨c, hc, hempty, ?_⟩
  have howed := he.outgoing event.fd c hc
  rw [hempty, List.append_nil, owed_echoService, ← he.received] at howed
  exact howed

/-- Two bytes of an echo wait to be sent. -/
theorem interest_of_read_echoRun :
    ∃ w, (dispatch ⟨7, EPOLLIN⟩ echoRead).run ((World.init 3).accepted 7) = .ok () w ∧
      w.kernel.interest 7 = some EPOLLOUT := by
  have hinit : EchoRun EpollReports 3 (World.init 3) [⟨3, EPOLLIN⟩] :=
    .wait .start (.single (m := EPOLLIN) rfl id id)
  have haccept : EchoRun EpollReports 3 ((World.init 3).accepted 7) [] :=
    .serve hinit ⟨echoAccept, .of_accept (by decide), rfl⟩
  obtain ⟨w, hw⟩ : ∃ w, (dispatch ⟨7, EPOLLIN⟩ echoRead).run ((World.init 3).accepted 7) =
      .ok () w := ⟨_, rfl⟩
  have hread : EchoRun EpollReports 3 w [] :=
    .serve (.wait haccept (.single (m := EPOLLIN) (by decide) id id))
      ⟨echoRead, .of_read ((World.init 3).accepted 7) (by decide) (by decide), hw⟩
  have hclient : IsClient w 7 ⟨7, [2, 0], [0, 65]⟩ := by
    cases hw
    exact ⟨by decide, by decide⟩
  exact ⟨w, hw, (((interest_of_echoRun hread).1 7 _ hclient).1).mpr (by decide)⟩

end Byor.EventLoop
