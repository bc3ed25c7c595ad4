import Byor.Foundations.Batch
import Byor.Optimized.Explained
import Byor.Optimized.History

/-!
# The optimized server is the key-value service

`keyValueService` takes requests off the streams of its clients and runs their commands on one map,
one at a time. In every run of the optimized server the map, the buffers and the streams are those
of the service after the bytes that were read, in the order in which they were read
(`service_of_run`). How the bytes were cut into reads, in which batches the events came, how much
each write took and which clients were lost does not matter to it.
-/

namespace Byor.Optimized

open Wire

/-- What a key-value server is for: commands on one map, one at a time, each with its response. -/
def keyValueService : Service UInt8 Request UInt8 Store where
  decoder := requestDecoder
  exec gData f := ((doRequest gData f.value .init).1, (doRequest gData f.value .init).2.frame)
  start := Store.empty

/-- The calls of `do_request`, as the service logs them. -/
def logOf (w : World) : List (ℕ × Request) := w.executed.map fun e => (e.socket, e.request)

/-- Requests in order are the commands in order. -/
theorem execAll_keyValueService (gData : Store) (fs : List Request) :
    keyValueService.execAll gData fs =
      ((runCommands gData (fs.map Record.value)).1, responseBytes (responses gData fs)) := by
  induction fs generalizing gData with
  | nil => rfl
  | cons f fs ih =>
    rw [Service.execAll, ih]
    simp only [List.map_cons, runCommands_cons, responses, responseBytes, List.flatten_cons]
    rfl

theorem logOf_calls (s : ℕ) (gData : Store) (fs : List Request) :
    (calls s gData fs).map (fun e => (e.socket, e.request)) = fs.map (s, ·) := by
  rw [← congrArg (List.map (s, ·)) (map_request_calls s gData fs), List.map_map]
  exact List.map_congr_left fun e he => Prod.ext (socket_of_mem_calls he) rfl

/-- A world of the optimized server, explained by the key-value service, its log included. -/
structure ExplainedLog (w : World) (arr : List (ℕ × UInt8)) : Prop
    extends Explained keyValueService (fun gData _ => gData) w arr where
  log : logOf w = (keyValueService.after arr).log

variable {w w' : World} {conn fd : Fd} {c : Connection} {arr : List (ℕ × UInt8)}

/-- The parse loop of a read event carries out the requests that are complete. -/
theorem ExplainedLog.drained (h : ExplainedLog w arr) (ht : TableOk w) (hc : IsClient w conn c)
    (b : Bytes) : ExplainedLog (w.drained conn c b) (arr ++ arrivals w (w.drained conn c b)) := by
  have hfd : c.fd = conn := ht.entry conn c hc.2
  subst hfd
  have hexec := execAll_keyValueService w.gData (requestDecoder.drain (c.incoming ++ b)).1
  have hread := h.toExplained.receive hc b (w.drained c.fd c b) (c.drained w.gData b) rfl ?_ rfl
    rfl ?_ ?_
  · refine ⟨hread, ?_⟩
    have hlog : logOf (w.drained c.fd c b) = logOf w ++
        (requestDecoder.drain (c.incoming ++ b)).1.map (w.kernel.socketOf c.fd, ·) := by
      rw [← logOf_calls (w.kernel.socketOf c.fd) w.gData]
      exact List.map_append ..
    have harr : arrivals w (w.drained c.fd c b) = b.map (w.kernel.socketOf c.fd, ·) :=
      Kernel.arrivals_read (h.bounded c.fd c hc) b
    rw [hlog, harr, Service.after_piece, h.log, h.incoming c.fd c hc]
    rfl
  · simp only [World.drained, World.served, World.buffered, World.setConn, Function.update_idem]
    rfl
  · exact congrArg (c.outgoing ++ ·) (congrArg Prod.snd hexec).symm
  · exact (congrArg Prod.fst hexec).symm

/-- **An event keeps the server explained**, with what arrived while it was served. -/
theorem ExplainedLog.afterEvent {event : Event} {r : SysResults} (h : ExplainedLog w arr)
    (ht : TableOk w) (ha : r.Allowed w) :
    ExplainedLog (afterEvent event r w) (arr ++ arrivals w (afterEvent event r w)) := by
  refine (afterEvent_steps (P := fun w' => TableOk w' ∧ ExplainedLog w' (arr ++ arrivals w w'))
    ⟨ht, ?_⟩ ha (fun _ h' => h'.1) ?_ ?_ ?_ ?_ ?_ ?_).1.2
  · rwa [arrivals_self, List.append_nil]
  · intro fd ho
    rw [arrivals_congr w _ _ (refused_received w fd), arrivals_self, List.append_nil]
    exact ⟨ht.refused ho, h.toExplained.refused (ht.none_of_closed ho), h.log⟩
  · intro fd ho
    rw [arrivals_congr w w (w.accepted fd) rfl, arrivals_self, List.append_nil]
    exact ⟨ht.accepted ho, h.toExplained.accepted, h.log⟩
  · intro c b hc
    exact ⟨ht.drained hc.2 b, h.drained ht hc b⟩
  · rintro w' c n ⟨ht', h'⟩ hc
    rw [arrivals_congr w w' (w'.wrote event.fd c n) rfl]
    exact ⟨ht'.wrote hc.2 n, h'.toExplained.wrote hc (ht'.entry _ _ hc.2) n, h'.log⟩
  · rintro w' m ⟨ht', h'⟩
    rw [arrivals_congr w w' (w'.modified event.fd m) rfl]
    exact ⟨ht'.modified _ m, h'.toExplained.modified _ m, h'.log⟩
  · rintro w' c ⟨ht', h'⟩ hc
    rw [arrivals_congr w _ _ (closed_received w' event.fd)]
    exact ⟨ht'.closed hc, h'.toExplained.closed _, h'.log⟩

/-! ## Runs -/

/-- The runs of the loop with the bytes that were read, in order. -/
abbrev ServesArrivals (Wait : World → List Event → Prop) (serverFd : Fd) (w : World)
    (events : List Event) (arr : List (ℕ × UInt8)) : Prop :=
  ObservedRun arrivals Wait
    (fun w event w' => ∃ r : SysResults, r.Allowed w ∧ w' = afterEvent event r w)
    (World.init serverFd) w events arr

section

variable {Wait : World → List Event → Prop} {serverFd : Fd} {events : List Event}

/-- Waiting for one event and serving it. -/
theorem ServesArrivals.single (h : ServesArrivals Wait serverFd w [] arr) {event : Event}
    {r : SysResults} (hb : Wait w [event]) (ha : r.Allowed w) {arr' : List (ℕ × UInt8)}
    (harr : arr' = arr ++ arrivals w (Optimized.afterEvent event r w)) :
    ServesArrivals Wait serverFd (Optimized.afterEvent event r w) [] arr' := by
  have hwait : ServesArrivals Wait serverFd w [event] arr := .wait h hb
  exact hwait.serve ⟨r, ha, rfl⟩ harr

theorem explainedLog_of_run (h : ServesArrivals Wait serverFd w events arr) :
    Consistent w ∧ ExplainedLog w arr := by
  refine h.invariant (P := fun w arr => Consistent w ∧ ExplainedLog w arr)
    ⟨consistent_init serverFd, explained_init keyValueService rfl serverFd, rfl⟩ ?_
  rintro w event w' arr ⟨hc, he⟩ ⟨r, ha, rfl⟩
  exact ⟨hc.afterEvent ha, he.afterEvent hc.toTableOk ha⟩

/-- **The server is the service.** In every run the map and the sequence of calls are those of the
service after the bytes that were read; a connection has in its incoming buffer what the service has
pending, and what was written to it and waits in its outgoing buffer is what the service owes. To
no socket was anything else ever written. -/
theorem service_of_run (h : ServesArrivals Wait serverFd w events arr) :
    (∀ s, w.kernel.received s = ofPeer s arr) ∧
      w.gData = (keyValueService.after arr).store ∧
      logOf w = (keyValueService.after arr).log ∧
      (∀ fd c, IsClient w fd c →
        c.incoming = (keyValueService.after arr).pending (w.kernel.socketOf fd) ∧
          w.kernel.written (w.kernel.socketOf fd) ++ c.outgoing =
            (keyValueService.after arr).owed (w.kernel.socketOf fd)) ∧
      ∀ s, w.kernel.written s <+: (keyValueService.after arr).owed s := by
  obtain ⟨-, he⟩ := explainedLog_of_run h
  refine ⟨he.received, he.store_eq, he.log, ?_, he.written⟩
  intro fd c hc
  exact ⟨he.incoming fd c hc, he.outgoing fd c hc⟩

end

/-- The two frames of the client have arrived, in two pieces. -/
theorem servesArrivals_pipelined :
    ServesArrivals anyBatch 3 pipelinedSecond [] (pipelinedFrames.map (0, ·)) := by
  have haccept : ServesArrivals anyBatch 3 pipelinedAccept [] [] :=
    ServesArrivals.single .start trivial (.of_accept (by decide)) rfl
  have hfirst : ServesArrivals anyBatch 3 pipelinedFirst []
      ((pipelinedFrames.take 27).map (0, ·)) :=
    haccept.single trivial (.of_read _ (by decide) (by decide)) (by decide)
  exact hfirst.single trivial (.of_read _ (by decide) (by decide)) (by decide)

theorem service_of_pipelined_run :
    pipelinedSecond.gData = (keyValueService.after (pipelinedFrames.map (0, ·))).store ∧
      pipelinedSecond.kernel.written 0 <+:
        (keyValueService.after (pipelinedFrames.map (0, ·))).owed 0 := by
  obtain ⟨-, hdata, -, -, hwritten⟩ := service_of_run servesArrivals_pipelined
  exact ⟨hdata, hwritten 0⟩

end Byor.Optimized
