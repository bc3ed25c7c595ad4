import Byor.EventLoop.Interest
import Byor.KeyValue.Lookups
import Byor.Optimized.Ideal
import Byor.Optimized.Limits

/-!
# The first key-value server is the key-value service

The first key-value server runs the commands of the optimized server, one after another on one map;
only its responses are put into bytes differently, with what stands in memory behind their length
(`firstService`).

* `first_service_of_run`: in every run that no exception has ended, the server is this service.
* `servers_agree`: on the same bytes in the same order, the two servers end with the same map and
  have made the same calls of `do_request`.
-/

namespace Byor.KeyValue

open Wire EventLoop
open Optimized hiding Handler assign handleNewConnections handleWriteEvent handleCloseEvent

/-- The key-value service with the responses of the first server. Each call of `make_response` finds
the `memory` of its number. -/
def firstService (memory : ℕ → Adjacent) : Service UInt8 Request UInt8 (Store × ℕ) where
  decoder := requestDecoder
  exec s f := (((doRequest s.1 f.value .init).1, s.2 + 1),
    makeResponse (memory s.2) (doRequest s.1 f.value .init).2 [])
  start := (Store.empty, 0)

/-- The store of the service: the map, and how many calls there were. -/
abbrev counted : Store → List Execution → Store × ℕ := fun gData executed =>
  (gData, executed.length)

variable {memory : ℕ → Adjacent} {w : World} {conn : Fd} {c : Connection} {r : Results}
  {arr : List (ℕ × UInt8)}

/-- The world after the requests `fs` of the connection `c` were served. -/
def servedAll (memory : ℕ → Adjacent) (w : World) (conn : Fd) (c : Connection) (fs : List Request)
    (rest : Bytes) : World :=
  { w.setConn conn { c with
      incoming := rest
      outgoing := c.outgoing ++
        ((firstService memory).execAll (counted w.gData w.executed) fs).2 } with
    gData := (runCommands w.gData (fs.map Record.value)).1
    executed := w.executed ++ calls (w.kernel.socketOf c.fd) w.gData fs }

theorem execAll_firstService (gData : Store) (n : ℕ) (fs : List Request) :
    ((firstService memory).execAll (gData, n) fs).1 =
      ((runCommands gData (fs.map Record.value)).1, n + fs.length) := by
  induction fs generalizing gData n with
  | nil => rfl
  | cons f fs ih =>
    rw [Service.execAll]
    simp only [firstService] at ih ⊢
    rw [ih, List.map_cons, runCommands_cons, List.length_cons, Nat.add_right_comm]
    rfl

theorem servedAll_nil (h : w.connections conn = some c) :
    servedAll memory w conn c [] c.incoming = w := by
  simp only [servedAll, Service.execAll_nil, List.append_nil, World.setConn, ← h,
    Function.update_eq_self]
  simp [calls]

/-- One request more. -/
theorem serveFirst_servedAll (hr : r.memory = memory) (fs : List Request) (xs : Bytes) (f : Request)
    (rest : Bytes) : serveFirst r (servedAll memory w conn c fs xs) conn
        { c with
          incoming := xs
          outgoing := c.outgoing ++
            ((firstService memory).execAll (counted w.gData w.executed) fs).2 } f rest =
      servedAll memory w conn c (fs ++ [f]) rest := by
  have hlen : (w.executed ++ calls (w.kernel.socketOf c.fd) w.gData fs).length =
      w.executed.length + fs.length := by
    rw [List.length_append, length_calls]
  subst hr
  simp only [serveFirst, servedFirst, servedAll, World.setConn, Function.update_idem, hlen,
    Service.execAll_append, execAll_firstService, List.map_append, runCommands_append,
    calls_append]
  congr 1
  · rw [makeResponse_append, List.append_assoc]
    simp only [Service.execAll, List.append_nil]
    rfl
  · rw [List.append_assoc]
    rfl

/-- **The parse loop of a read event**, also if it ends with a header above the limit. -/
theorem run_whileTryRequest_all (hfd : c.fd = conn) (b : Bytes) :
    (whileTrue ((c.incoming ++ b).length + 1) (tryRequest r conn)).run (w.buffered conn c b) =
      .ok () (if OverLimit (requestDecoder.drain (c.incoming ++ b)).2 then
        (servedAll r.memory (w.buffered conn c b) conn { c with incoming := c.incoming ++ b }
          (requestDecoder.drain (c.incoming ++ b)).1
          (requestDecoder.drain (c.incoming ++ b)).2).closed conn
      else servedAll r.memory (w.buffered conn c b) conn { c with incoming := c.incoming ++ b }
        (requestDecoder.drain (c.incoming ++ b)).1 (requestDecoder.drain (c.incoming ++ b)).2) := by
  have hconn : ∀ fs xs, (servedAll r.memory (w.buffered conn c b) conn
      { c with incoming := c.incoming ++ b } fs xs).connections conn = some { c with
        incoming := xs
        outgoing := c.outgoing ++
          ((firstService r.memory).execAll (counted w.gData w.executed) fs).2 } :=
    fun fs xs => setConn_connections _
  have hloop := run_whileTryFrame (serveFrame r conn) r.stale requestDecoder
    (servedAll r.memory (w.buffered conn c b) conn { c with incoming := c.incoming ++ b })
    (fun fs xs => ⟨_, hconn fs xs, hfd, rfl⟩) ?_
    (fun fs xs hn ho => run_tryRequest_none (r := r) (hconn fs xs) ho hn)
    (Nat.lt_succ_self (c.incoming ++ b).length)
  · rw [servedAll_nil (buffered_connections b)] at hloop
    exact hloop
  · intro fs xs f rest hn
    have hnext := run_tryRequest_next (r := r) (hconn fs xs) hn
    exact hnext.trans (congrArg _ (serveFirst_servedAll rfl fs xs f rest))

variable {w₀ : World}

theorem servedAll_connections (memory : ℕ → Adjacent) (w : World) (conn : Fd) (c : Connection)
    (b : Bytes) : (servedAll memory (w.buffered conn c b) conn
      { c with incoming := c.incoming ++ b } (requestDecoder.drain (c.incoming ++ b)).1
      (requestDecoder.drain (c.incoming ++ b)).2).connections =
        Function.update w.connections conn (some { c with
          incoming := (requestDecoder.drain (c.incoming ++ b)).2
          outgoing := c.outgoing ++ ((firstService memory).execAll (counted w.gData w.executed)
            (requestDecoder.drain (c.incoming ++ b)).1).2 }) := by
  simp only [servedAll, World.buffered, World.setConn, Function.update_idem]

/-- Serving the complete requests is what the service does with the bytes. -/
theorem follows_servedAll (h : Follows (firstService memory) counted w arr w)
    (hc : IsClient w conn c) (b : Bytes) : Follows (firstService memory) counted w arr
      (servedAll memory (w.buffered conn c b) conn { c with incoming := c.incoming ++ b }
        (requestDecoder.drain (c.incoming ++ b)).1 (requestDecoder.drain (c.incoming ++ b)).2) := by
  have hfd : c.fd = conn := h.registered.entry conn c hc.2
  subst hfd
  have he := h.explained
  rw [arrivals_self, List.append_nil] at he
  have htable := servedAll_connections memory w c.fd c b
  refine ⟨h.registered.of_kept (.of_update hc.2 _ ?_ rfl htable rfl rfl), rfl, ?_⟩
  · rfl
  refine he.receive hc b _ _ rfl htable rfl rfl rfl ?_
  change (_, (w.executed ++ calls _ w.gData _).length) = _
  rw [List.length_append, length_calls]
  exact (execAll_firstService w.gData w.executed.length _).symm

theorem follows_handleReadEvent (h : Follows (firstService r.memory) counted w arr w)
    (hne : conn ≠ w.serverFd) :
    Leaves (Follows (firstService r.memory) counted w arr) (handleReadEvent r conn) w := by
  refine h.readEvent hne (leaves_of_throw rfl) fun c b hc _ => ?_
  have hserved := follows_servedAll h ⟨hne, hc⟩ b
  refine ⟨_, run_whileTryRequest_all (h.registered.entry conn c hc) b, ?_⟩
  split
  · exact hserved.closed hne
  · exact hserved

/-- **Every event that is served** keeps the server the service. -/
theorem follows_dispatch {event : Event} (h : Follows (firstService r.memory) counted w arr w)
    (ha : r.toSysResults.Allowed w) :
    Leaves (Follows (firstService r.memory) counted w arr) (dispatch event r) w := by
  by_cases hs : event.fd = w.serverFd
  · exact leaves_of_run (run_dispatch_server hs) (h.newEffect ha)
  · intro w' hrun
    rw [run_dispatch_client hs] at hrun
    exact h.branches hs (follows_handleReadEvent h hs) w' hrun

/-! ## Runs -/

/-- The runs of `start` that have not ended by an exception, with the bytes that were read; each
call of `make_response` finds the `memory` of its number. -/
abbrev FirstServesArrivals (memory : ℕ → Adjacent) (Wait : World → List Event → Prop)
    (serverFd : Fd) (w : World) (events : List Event) (arr : List (ℕ × UInt8)) : Prop :=
  ObservedRun arrivals Wait (fun w event w' => ∃ r : Results, r.toSysResults.Allowed w ∧
    r.memory = memory ∧ (dispatch event r).run w = .ok () w') (World.init serverFd) w events arr

section

variable {Wait Wait' : World → List Event → Prop} {serverFd serverFd' : Fd} {w' : World}
  {events events' : List Event}

theorem explained_of_firstRun (h : FirstServesArrivals memory Wait serverFd w events arr) :
    Registered w ∧ Explained (firstService memory) counted w arr := by
  refine h.invariant
    (P := fun w arr => Registered w ∧ Explained (firstService memory) counted w arr)
    ⟨registered_init serverFd, explained_init (firstService memory) rfl serverFd⟩ ?_
  rintro w event w' arr ⟨hr, he⟩ ⟨r, ha, rfl, hrun⟩
  have hafter := follows_dispatch (Follows.start hr he) ha w' hrun
  exact ⟨hafter.registered, hafter.explained⟩

/-- **The first server is its service**, in every run that no exception has ended. -/
theorem first_service_of_run (h : FirstServesArrivals memory Wait serverFd w events arr) :
    (∀ s, w.kernel.received s = ofPeer s arr) ∧
      w.gData = ((firstService memory).after arr).store.1 ∧
      w.executed.length = ((firstService memory).after arr).store.2 ∧
      (∀ fd c, IsClient w fd c →
        c.incoming = ((firstService memory).after arr).pending (w.kernel.socketOf fd) ∧
          w.kernel.written (w.kernel.socketOf fd) ++ c.outgoing =
            ((firstService memory).after arr).owed (w.kernel.socketOf fd)) ∧
      ∀ s, w.kernel.written s <+: ((firstService memory).after arr).owed s := by
  obtain ⟨-, he⟩ := explained_of_firstRun h
  obtain ⟨hdata, hcount⟩ := Prod.mk.inj he.store_eq
  refine ⟨he.received, hdata, hcount, ?_, he.written⟩
  intro fd c hc
  exact ⟨he.incoming fd c hc, he.outgoing fd c hc⟩

/-! ## The interest -/

theorem appended_servedAll (h : Registered w) (hc : w.connections conn = some c) (b : Bytes) :
    Appended conn c w (servedAll memory (w.buffered conn c b) conn
      { c with incoming := c.incoming ++ b } (requestDecoder.drain (c.incoming ++ b)).1
      (requestDecoder.drain (c.incoming ++ b)).2) := by
  have htable := servedAll_connections memory w conn c b
  refine ⟨h.of_kept (.of_update hc _ ?_ rfl htable rfl rfl), rfl, rfl, _, htable,
    List.prefix_append ..⟩
  rfl

/-- Every event that is served keeps the interest. -/
theorem tends_of_dispatch {event : Event} (h : Interested w) (ha : r.toSysResults.Allowed w)
    (hrun : (dispatch event r).run w = .ok () w') : Tends w event w' := by
  unfold Tends
  split
  · rename_i hs
    cases (run_dispatch_server hs).symm.trans hrun
    exact ⟨r.toSysResults, ha, rfl⟩
  · rename_i hs
    have hself : Tended event.fd w w := ⟨h, .refl event.fd w⟩
    rw [run_dispatch_client hs] at hrun
    refine leaves_branches hself ?_ (fun _ h' => h'.handleWriteEvent hs r.write)
      (fun _ h' => h'.handleCloseEvent hs) w' hrun
    refine h.readEvent requestDecoder hs (leaves_of_throw rfl) fun c b hc => ?_
    exact ⟨_, run_whileTryRequest_all (h.entry _ c hc) b, appended_servedAll h.toRegistered hc b⟩

/-- **The interest of the first server follows its outgoing buffers** in every state between events;
a read event finds everything written that is owed to its client. -/
theorem interest_of_firstRun
    (h : FirstServesArrivals memory EpollReports serverFd w events arr) :
    (∀ fd c, IsClient w fd c →
      (w.kernel.interest fd = some EPOLLOUT ↔ c.outgoing ≠ []) ∧
        (w.kernel.interest fd = some EPOLLIN ↔ c.outgoing = [])) ∧
      ∀ event rest, events = event :: rest → event.fd ≠ w.serverFd →
        event.events.epollin = true → ∃ c, IsClient w event.fd c ∧ c.outgoing = [] ∧
          w.kernel.written (w.kernel.socketOf event.fd) =
            ((firstService memory).after arr).owed (w.kernel.socketOf event.fd) := by
  have hserve : ∀ w event w', Interested w → (∃ r : Results, r.toSysResults.Allowed w ∧
      r.memory = memory ∧ (dispatch event r).run w = .ok () w') → Tends w event w' := by
    rintro w event w' hi ⟨r, ha, -, hrun⟩
    exact tends_of_dispatch hi ha hrun
  obtain ⟨hi, hr⟩ := interested_of_run hserve h.run
  refine ⟨fun fd c hc => hi.interest_iff hc.2, ?_⟩
  rintro event rest rfl hne hin
  obtain ⟨c, hc, hempty⟩ := hi.read_finds_empty hr hne hin
  refine ⟨c, hc, hempty, ?_⟩
  have howed := (explained_of_firstRun h).2.outgoing event.fd c hc
  rwa [hempty, List.append_nil] at howed

/-! ## The two servers -/

/-- The responses to a socket, each with the memory its call of `make_response` finds. -/
def repliesTo (memory : ℕ → Adjacent) (s : ℕ) (log : List Execution) :
    List (Adjacent × Response) :=
  (log.zipIdx.filter fun p => p.1.socket = s).map fun p => (memory p.2, p.1.resp)

theorem map_snd_repliesTo (memory : ℕ → Adjacent) (s : ℕ) (log : List Execution) :
    (repliesTo memory s log).map Prod.snd = (callsOf s log).map Execution.resp := by
  rw [repliesTo, callsOf, List.map_map]
  conv_rhs => rw [← List.zipIdx_map_fst 0 log, List.filter_map, List.map_map]
  rfl

/-- The answers of the service, from the calls. -/
theorem answers_firstService {gData : Store} {log : List Execution}
    (h : log.map Execution.resp = (runCommands gData (log.map Execution.cmd)).2) (n : ℕ) :
    (firstService memory).answers (gData, n) (log.map fun e => (e.socket, e.request)) =
      (log.zipIdx n).map fun p => (p.1.socket, makeResponse (memory p.2) p.1.resp []) := by
  induction log generalizing gData n with
  | nil => rfl
  | cons e log ih =>
    rw [List.map_cons, List.map_cons, runCommands_cons] at h
    obtain ⟨hresp, hrest⟩ := List.cons.inj h
    rw [List.map_cons, Service.answers, List.zipIdx_cons, List.map_cons, hresp, ← ih hrest]
    rfl

/-- What the service owes a socket, from the calls. -/
theorem owed_firstService {log : List Execution} (h : Sequential log)
    (hlog : log.map (fun e => (e.socket, e.request)) = ((firstService memory).after arr).log)
    (s : ℕ) : ((firstService memory).after arr).owed s =
      makeResponses (repliesTo memory s log) [] := by
  have hanswers : (firstService memory).answers (Store.empty, 0)
      (log.map fun e => (e.socket, e.request)) = _ := answers_firstService h 0
  rw [hlog] at hanswers
  rw [Service.after_owed, show (firstService memory).start = (Store.empty, 0) from rfl, hanswers,
    ofPeer_map, makeResponses_eq, repliesTo, List.map_map, List.nil_append]
  rfl

/-- Where the memory agrees with the lengths, the streams of the two servers are the same. -/
theorem makeResponses_eq_answersTo {s : ℕ} (h : Consistent w)
    (hagree : ∀ p ∈ repliesTo memory s w.executed, Agrees p) :
    makeResponses (repliesTo memory s w.executed) [] = answersTo s w.executed := by
  have hmax := maxMsgFieldSize_eq
  have hfits : ∀ resp ∈ (callsOf s w.executed).map Execution.resp,
      1 + resp.data.length < 2 ^ 32 := by
    intro resp hr
    obtain ⟨e, he, rfl⟩ := List.mem_map.mp hr
    have hlen := length_resp_of_consistent h e (List.mem_of_mem_filter he)
    omega
  rw [← map_snd_repliesTo memory] at hfits
  rw [answersTo, ← map_snd_repliesTo memory, responseBytes, List.map_map, makeResponses_eq,
    List.nil_append]
  refine congrArg List.flatten (List.map_congr_left fun p hp => ?_)
  have hlen := hfits p.2 (List.mem_map_of_mem hp)
  rw [(makeResponse_eq_replyFrame_iff hlen).mpr (hagree p hp), replyFrame_eq_record]
  exact (p.2.frame_eq_record hlen).symm

/-- **The two servers agree.** Run on the same bytes in the same order, whatever else differs, they
end with the same map. To every socket both send the same responses in the same order, up to how far
they have got; the first server puts each into bytes with the memory it finds, and where this agrees
with the length, the bytes are the same too. -/
theorem servers_agree (h : FirstServesArrivals memory Wait serverFd w events arr)
    (h' : ServesArrivals Wait' serverFd' w' events' arr) :
    w.gData = w'.gData ∧ w.executed.length = w'.executed.length ∧
      ∀ s, (repliesTo memory s w'.executed).map Prod.snd =
          (callsOf s w'.executed).map Execution.resp ∧
        w.kernel.written s <+: makeResponses (repliesTo memory s w'.executed) [] ∧
        w'.kernel.written s <+: answersTo s w'.executed ∧
        ((∀ p ∈ repliesTo memory s w'.executed, Agrees p) →
          w.kernel.written s <+: w'.kernel.written s ∨
            w'.kernel.written s <+: w.kernel.written s) := by
  obtain ⟨-, he⟩ := explained_of_firstRun h
  obtain ⟨hc', he'⟩ := explainedLog_of_run h'
  -- both services take the same requests
  have hlog : logOf w' = ((firstService memory).after arr).log :=
    he'.log.trans (keyValueService.after_log_congr (firstService memory) rfl arr).2.symm
  have hstore : ((firstService memory).after arr).store = (w'.gData, w'.executed.length) := by
    have hcmds : ((logOf w').map Prod.snd).map Record.value = w'.executed.map Execution.cmd := by
      simp only [logOf, List.map_map]
      rfl
    rw [Service.after_store, ← hlog, show (firstService memory).start = (Store.empty, 0) from rfl,
      execAll_firstService, hcmds, ← hc'.store]
    simp [logOf]
  obtain ⟨hdata, hcount⟩ := Prod.mk.inj (he.store_eq.trans hstore)
  refine ⟨hdata, hcount, fun s => ?_⟩
  have hsent : w.kernel.written s <+: makeResponses (repliesTo memory s w'.executed) [] :=
    owed_firstService hc'.sequential hlog s ▸ he.written s
  refine ⟨map_snd_repliesTo memory s w'.executed, hsent, hc'.prefix_written s, fun hagree => ?_⟩
  rw [makeResponses_eq_answersTo hc' hagree] at hsent
  exact List.prefix_or_prefix_of_prefix hsent (hc'.prefix_written s)

end

/-- The two frames of the client arrive in one piece; nothing is written. -/
def framesRead : Results :=
  ⟨⟨{ SysResults.again with read := .bytes pipelinedFrames }, .error .EAGAIN, ⟨0, [], []⟩⟩,
    fun _ => zeros⟩

/-- The world after this read. -/
def firstServed : World :=
  match (dispatch ⟨7, EPOLLIN⟩ framesRead).run accepted with
  | .ok _ w => w
  | .error _ w => w

theorem run_framesRead :
    (dispatch ⟨7, EPOLLIN⟩ framesRead).run accepted = .ok () firstServed := by
  have hok : (match (dispatch ⟨7, EPOLLIN⟩ framesRead).run accepted with
      | .ok _ _ => true | .error _ _ => false) = true := by decide +kernel
  unfold firstServed
  cases h : (dispatch ⟨7, EPOLLIN⟩ framesRead).run accepted with
  | ok _ w => rfl
  | error fault w => simp [h] at hok

theorem firstServesArrivals_frames :
    FirstServesArrivals (fun _ => zeros) EpollReports 3 firstServed []
      (pipelinedFrames.map (0, ·)) := by
  have hinit : FirstServesArrivals (fun _ => zeros) EpollReports 3 (World.init 3)
      [⟨3, EPOLLIN⟩] [] := .wait .start (.single (m := EPOLLIN) rfl id id)
  have haccept : FirstServesArrivals (fun _ => zeros) EpollReports 3 accepted
      [⟨7, EPOLLIN⟩] [] :=
    .wait (hinit.serve ⟨acceptSeven, .of_accept (by decide), rfl, rfl⟩ rfl)
      (.single (m := EPOLLIN) (by decide) id id)
  exact haccept.serve
    ⟨framesRead, .of_read accepted (by decide) (by decide), rfl, run_framesRead⟩
    (by decide +kernel)

theorem first_service_of_frames_run :
    firstServed.gData =
      ((firstService fun _ => zeros).after (pipelinedFrames.map (0, ·))).store.1 :=
  (first_service_of_run firstServesArrivals_frames).2.1

/-- Both responses wait to be sent. -/
theorem interest_of_frames_run : firstServed.kernel.interest 7 = some EPOLLOUT := by
  have hany : (firstServed.connections 7).any (fun c => !c.outgoing.isEmpty) = true := by
    decide +kernel
  have hserver : firstServed.serverFd = 3 := by decide +kernel
  cases hc : firstServed.connections 7 with
  | none => simp [hc] at hany
  | some c =>
    have hclient : IsClient firstServed 7 c := ⟨by rw [hserver]; decide, hc⟩
    exact ((interest_of_firstRun firstServesArrivals_frames).1 7 c hclient).1.mpr
      (by simpa [hc] using hany)

theorem servers_agree_on_frames :
    firstServed.gData = pipelinedSecond.gData ∧
      firstServed.kernel.written 0 <+:
        makeResponses (repliesTo (fun _ => zeros) 0 pipelinedSecond.executed) [] := by
  obtain ⟨hdata, -, hsent⟩ := servers_agree firstServesArrivals_frames servesArrivals_pipelined
  exact ⟨hdata, (hsent 0).2.1⟩

end Byor.KeyValue
