import Byor.Foundations.Batch
import Byor.EventLoop.Explained
import Byor.EventLoop.Server

/-!
# The echo server is the echo service

`echoService` keeps nothing but the bytes that are not a complete frame yet, and owes every peer its
own frames. The echo server is this service in every run that no exception has ended, with any
number of clients, whatever their reads and writes return, also if clients are lost to end-of-file,
to an error or to a header above the limit and their descriptors are handed out again
(`echo_of_serverRun`).
-/

namespace Byor.EventLoop

open Wire Optimized

/-- What the echo server is for. -/
def echoService : Service UInt8 (Record Unit) UInt8 Unit where
  decoder := echoDecoder
  exec _ f := ((), record lenFieldSize f.payload)
  start := ()

theorem execAll_echoService (fs : List (Record Unit)) : echoService.execAll () fs =
    ((), echoBytes fs) := by
  induction fs with
  | nil => rfl
  | cons f fs ih =>
    rw [Service.execAll, ih]
    rfl

/-- What the echo server owes a peer: the frames of its own stream. -/
theorem owed_echoService (arr : List (ℕ × UInt8)) (s : ℕ) : (echoService.after arr).owed s =
    echoBytes (echoDecoder.drain (ofPeer s arr)).1 := by
  rw [echoService.after_owed_of_stateless (fun _ _ => rfl), echoBytes, frames, List.map_map]
  rfl

variable {w w₀ : World} {conn : Fd} {c : Connection} {r : Results} {arr : List (ℕ × UInt8)}

/-- The echo server keeps no store. -/
abbrev noStore : Store → List Execution → Unit := fun _ _ => ()

/-- The parse loop of a read event, also if it ends with a header above the limit. -/
theorem run_whileTryRequest_all (hfd : c.fd = conn) (b : Bytes) :
    (whileTrue ((c.incoming ++ b).length + 1) (tryRequest r conn)).run (w.buffered conn c b) =
      .ok () (if OverLimit (echoDecoder.drain (c.incoming ++ b)).2 then
        (moved w conn c b).closed conn else moved w conn c b) := by
  have hloop := run_whileTryFrame (serveFrame conn) r.stale echoDecoder
    (fun fs xs => (w.buffered conn c b).setConn conn (echoed c fs xs))
    (fun fs xs => ⟨_, setConn_connections _, hfd, rfl⟩) ?_
    (fun fs xs hn ho => run_tryRequest_none (r := r) (setConn_connections _) ho hn)
    (Nat.lt_succ_self (c.incoming ++ b).length)
  · have hstart : (w.buffered conn c b).setConn conn (echoed c [] (c.incoming ++ b)) =
        w.buffered conn c b := by
      refine setConn_self ((buffered_connections b).trans ?_)
      simp [echoed, echoBytes]
    rw [hstart] at hloop
    exact hloop
  · intro fs xs f rest hn
    have hnext := run_tryRequest_next (r := r) (w := (w.buffered conn c b).setConn conn
      (echoed c fs xs)) (setConn_connections _) hn
    rw [setConn_setConn] at hnext
    simpa [echoed, tryRequest] using hnext

theorem moved_connections (b : Bytes) : (moved w conn c b).connections =
    Function.update w.connections conn (some (echoed c (echoDecoder.drain (c.incoming ++ b)).1
      (echoDecoder.drain (c.incoming ++ b)).2)) := by
  simp only [moved, World.buffered, World.setConn, Function.update_idem]

/-- Moving the complete frames is what the echo service does with the bytes. -/
theorem Follows.moved (h : Follows echoService noStore w arr w) (hc : IsClient w conn c)
    (b : Bytes) : Follows echoService noStore w arr (moved w conn c b) := by
  have hfd : c.fd = conn := h.registered.entry conn c hc.2
  subst hfd
  have he := h.explained
  rw [arrivals_self, List.append_nil] at he
  have hkept : Kept w (EventLoop.moved w c.fd c b) :=
    .of_update hc.2 (echoed c (echoDecoder.drain (c.incoming ++ b)).1
      (echoDecoder.drain (c.incoming ++ b)).2) rfl rfl (moved_connections b) rfl rfl
  refine ⟨h.registered.of_kept hkept, rfl, ?_⟩
  refine he.receive hc b _ _ rfl (moved_connections b) rfl rfl ?_ rfl
  rw [execAll_echoService]
  rfl

theorem Follows.handleReadEvent (h : Follows echoService noStore w arr w)
    (hne : conn ≠ w.serverFd) :
    Leaves (Follows echoService noStore w arr) (handleReadEvent r conn) w := by
  refine h.readEvent hne (leaves_pure h) fun c b hc _ => ?_
  have hmoved := h.moved ⟨hne, hc⟩ b
  refine ⟨_, run_whileTryRequest_all (h.registered.entry conn c hc) b, ?_⟩
  split
  · exact hmoved.closed hne
  · exact hmoved

theorem run_dispatch_branches {event : Event} (h : event.fd ≠ w.serverFd) :
    (dispatch event r).run w =
      ((if event.events.epollin then handleReadEvent r event.fd else pure ()) >>= fun _ =>
        (if event.events.epollout then handleWriteEvent r.write event.fd else pure ()) >>=
          fun _ => if event.events.epollerr || event.events.epollhup then
            handleCloseEvent event.fd else pure ()).run w := by
  rw [dispatch, EStateM.run_bind, EStateM.run_get]
  cases event.events.epollin <;> cases event.events.epollout <;>
    cases event.events.epollerr <;> cases event.events.epollhup <;> simp [h]

/-- **Every event that is served** keeps the server the echo service. -/
theorem Follows.dispatch {event : Event} (h : Follows echoService noStore w arr w)
    (ha : r.toSysResults.Allowed w) :
    Leaves (Follows echoService noStore w arr) (dispatch event r) w := by
  by_cases hs : event.fd = w.serverFd
  · exact leaves_of_run (run_dispatch_server hs) (h.newEffect ha)
  · intro w' hrun
    rw [run_dispatch_branches hs] at hrun
    exact h.branches hs (h.handleReadEvent hs) w' hrun

/-! ## Runs -/

/-- The runs of `start` that have not ended by an exception. -/
abbrev EchoRun (Wait : World → List Event → Prop) (serverFd : Fd) (w : World)
    (events : List Event) : Prop :=
  BatchRun Wait (fun w event w' =>
    ∃ r : Results, r.toSysResults.Allowed w ∧ (dispatch event r).run w = .ok () w')
    (World.init serverFd) w events

section

variable {Wait : World → List Event → Prop} {serverFd : Fd} {events : List Event}

theorem explained_of_echoRun (h : EchoRun Wait serverFd w events) :
    ∃ arr, Registered w ∧ Explained echoService noStore w arr := by
  obtain ⟨arr, hobs⟩ := h.observed arrivals
  refine ⟨arr, hobs.invariant (P := fun w arr => Registered w ∧
    Explained echoService noStore w arr) ⟨registered_init serverFd,
      explained_init echoService rfl serverFd⟩ ?_⟩
  rintro w event w' arr ⟨hr, he⟩ ⟨r, ha, hrun⟩
  have hafter := (Follows.start hr he).dispatch ha w' hrun
  exact ⟨hafter.registered, hafter.explained⟩

/-- **The echo server in every run.** What was ever written to a socket is a beginning of the frames
received from it. While it is connected, the rest of these frames waits in its outgoing buffer, and
what is not a complete frame yet in its incoming buffer. -/
theorem echo_of_serverRun (h : EchoRun Wait serverFd w events) :
    (∀ s, w.kernel.written s <+: echoBytes (echoDecoder.drain (w.kernel.received s)).1) ∧
      ∀ fd c, IsClient w fd c → c.incoming = (echoDecoder.drain (received w fd)).2 ∧
        written w fd ++ c.outgoing = echoBytes (echoDecoder.drain (received w fd)).1 := by
  obtain ⟨arr, -, he⟩ := explained_of_echoRun h
  refine ⟨fun s => ?_, fun fd c hc => ⟨?_, ?_⟩⟩
  · rw [he.received, ← owed_echoService]
    exact he.written s
  · rw [received, he.received, he.incoming fd c hc]
    exact congrArg Prod.snd (echoService.drain_ofPeer arr (w.kernel.socketOf fd)).symm
  · rw [received, he.received, ← owed_echoService]
    exact he.outgoing fd c hc

end

/-- A client is accepted as descriptor 7. -/
def echoAccept : Results :=
  ⟨{ SysResults.again with accept := 7 }, .error .EAGAIN, ⟨0, [], []⟩⟩

/-- A frame and the beginning of another arrive; the server writes three bytes at once. -/
def echoRead : Results :=
  ⟨{ SysResults.again with read := .bytes [1, 0, 0, 0, 65, 2, 0] }, .wrote 3, ⟨0, [], []⟩⟩

theorem echo_of_read_serverRun :
    ∃ w, (dispatch ⟨7, EPOLLIN⟩ echoRead).run ((World.init 3).accepted 7) = .ok () w ∧
      w.kernel.written 0 = [1, 0, 0] ∧
      w.kernel.written 0 <+: echoBytes (echoDecoder.drain (w.kernel.received 0)).1 := by
  have hinit : EchoRun anyBatch 3 (World.init 3) [⟨3, EPOLLIN⟩] := .wait .start trivial
  have haccept : EchoRun anyBatch 3 ((World.init 3).accepted 7) [] :=
    .serve hinit ⟨echoAccept, .of_accept (by decide), rfl⟩
  have hread : EchoRun anyBatch 3 _ [] :=
    .serve (.wait haccept trivial)
      ⟨echoRead, .of_read ((World.init 3).accepted 7) (by decide) (by decide),
        (show (dispatch ⟨7, EPOLLIN⟩ echoRead).run ((World.init 3).accepted 7) = _ from rfl)⟩
  exact ⟨_, rfl, by decide, (echo_of_serverRun hread).1 0⟩

end Byor.EventLoop
