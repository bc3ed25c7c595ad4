import Byor.Optimized.Explained
import Byor.Optimized.Interest
import Byor.Optimized.TryRequest

/-!
# One turn of the loop

Between two calls of `epoll_wait` the server serves the events of one batch. An event reads from one
connection at most, once, and what it carries out are requests of that connection, no more than one
read can complete (`maxBacklog`). So a turn reads from every client it was told of exactly once, and
a client that pipelines without end gets no more of it than that.

* `afterEvent_received`, `afterEvent_executed`: what one event reads and carries out.
* `turn_of_run`: what a turn does.
-/

namespace Byor.Optimized

open Wire

variable {w w' : World} {conn fd : Fd} {c : Connection} {event : Event} {events : List Event}
  {r : SysResults} {s : ℕ} {b : Bytes} {batch : List (Event × SysResults)} {serverFd : Fd}

/-! ## The requests of one read -/

/-- The requests that one read can complete: one that began in the incoming buffer, and those that
lie in the bytes that were read. -/
def maxBacklog : ℕ := 1 + readBufferSize / 8

/-- A request that was not complete before ends in the bytes that have come. -/
theorem length_rest_le {incoming rest : Bytes} {f : Request}
    (hnone : requestDecoder.next incoming = none)
    (hn : requestDecoder.next (incoming ++ b) = some (f, rest)) : rest.length ≤ b.length := by
  obtain ⟨hacc, hsplit⟩ := next_eq_some_iff.mp hn
  by_contra hlong
  -- the whole frame was there already
  have hlen := congrArg List.length hsplit
  rw [List.length_append, List.length_append] at hlen
  have hframe : f.frame <+: incoming :=
    List.prefix_of_prefix_length_le ⟨rest, hsplit.symm⟩ (List.prefix_append _ b) (by omega)
  obtain ⟨rest', rfl⟩ := hframe
  rw [next_eq_some_iff.mpr ⟨hacc, rfl⟩] at hnone
  cases hnone

/-- **One read completes few requests.** -/
theorem length_drain_incoming_le (hnone : requestDecoder.next c.incoming = none)
    (hb : b.length ≤ readBufferSize) :
    (requestDecoder.drain (c.incoming ++ b)).1.length ≤ maxBacklog := by
  have hfew := requestDecoder.length_drain_append_le (by decide) length_add_eight_le
    length_rest_le hnone b
  have hdiv : b.length / 8 ≤ readBufferSize / 8 := Nat.div_le_div_right hb
  rw [maxBacklog]
  omega

/-! ## One event -/

/-- Serving the event reads from the socket. -/
def ReadsFrom (w : World) (s : ℕ) (event : Event) : Prop :=
  event.fd ≠ w.serverFd ∧ event.events.epollin = true ∧ w.kernel.socketOf event.fd = s

instance (w : World) (s : ℕ) (event : Event) : Decidable (ReadsFrom w s event) :=
  inferInstanceAs (Decidable (_ ∧ _ ∧ _))

/-- The bytes that a read brings. -/
def ReadResult.taken : ReadResult → Bytes
  | .bytes b => b
  | .eof => []
  | .error _ => []

theorem Kernel.received_read (k : Kernel) (fd : Fd) (r : ReadResult) (s : ℕ) :
    (k.read fd r).received s = k.received s ++ if k.socketOf fd = s then r.taken else [] := by
  have hnil : k.received s = k.received s ++ if k.socketOf fd = s then [] else [] := by
    simp
  cases r with
  | eof => exact hnil
  | error errno => exact hnil
  | bytes b =>
    change Function.update k.received (k.socketOf fd) (k.received (k.socketOf fd) ++ b) s = _
    by_cases hs : k.socketOf fd = s
    · rw [if_pos hs, hs, Function.update_self]
      rfl
    · rw [if_neg hs, Function.update_of_ne (Ne.symm hs), List.append_nil]

theorem readEffect_streams (hfd : c.fd = conn) (r : ReadResult) :
    (w.readEffect conn c r).kernel.socketOf = w.kernel.socketOf ∧
      (w.readEffect conn c r).kernel.received = (w.kernel.read conn r).received := by
  subst hfd
  cases r with
  | eof =>
    obtain ⟨hsock, -, hreceived, -⟩ := close_streams (w.kernel.epollDel c.fd) c.fd
    exact ⟨hsock, hreceived⟩
  | error errno => exact ⟨rfl, rfl⟩
  | bytes b =>
    unfold World.readEffect World.afterRead
    simp only
    split
    · obtain ⟨hsock, -, hreceived, -⟩ :=
        close_streams ((w.drained c.fd c b).kernel.epollDel c.fd) c.fd
      exact ⟨hsock, hreceived⟩
    · split <;> exact ⟨rfl, rfl⟩

theorem readEffect_executed (b : Bytes) : (w.readEffect conn c (.bytes b)).executed =
    w.executed ++ calls (w.kernel.socketOf c.fd) w.gData
      (requestDecoder.drain (c.incoming ++ b)).1 := by
  unfold World.readEffect World.afterRead
  simp only
  split
  · rfl
  · split <;> rfl

/-! ### After the read -/

/-- Nothing was read and nothing carried out. -/
structure Quiet (w w' : World) : Prop where
  serverFd : w'.serverFd = w.serverFd
  socketOf : w'.kernel.socketOf = w.kernel.socketOf
  received : w'.kernel.received = w.kernel.received
  executed : w'.executed = w.executed

theorem Quiet.refl (w : World) : Quiet w w := ⟨rfl, rfl, rfl, rfl⟩

theorem Quiet.modified (h : Quiet w w') (conn : Fd) (m : EventMask) :
    Quiet w (w'.modified conn m) := ⟨h.serverFd, h.socketOf, h.received, h.executed⟩

theorem Quiet.closed (h : Quiet w w') (conn : Fd) : Quiet w (w'.closed conn) := by
  obtain ⟨hsock, -, hreceived, -⟩ := close_streams (w'.kernel.epollDel conn) conn
  exact ⟨h.serverFd, hsock.trans h.socketOf, hreceived.trans h.received, h.executed⟩

theorem Quiet.writeEffect (h : Quiet w w') (conn : Fd) (c : Connection) (r : WriteResult) :
    Quiet w (w'.writeEffect conn c r) :=
  writeEffect_steps h (fun _ => ⟨h.serverFd, h.socketOf, h.received, h.executed⟩)
    (fun _ m h' => h'.modified conn m) (h.closed conn) r

/-- **An event of a client that is not for reading.** -/
theorem quiet_afterEvent (ht : TableOk w) (hne : event.fd ≠ w.serverFd)
    (hin : event.events.epollin = false) : Quiet w (afterEvent event r w) := by
  refine (afterEvent_rule (P := fun w' => TableOk w' ∧ Quiet w w') ⟨ht, .refl w⟩
    (fun _ h' => h'.1.entry) ?_ ?_ ?_ ?_).2
  · exact fun he => absurd he hne
  · intro _ he
    rw [hin] at he
    cases he
  · rintro - - w' c ⟨ht', hq⟩ hc
    have hclient : IsClient w' event.fd c := ⟨hq.serverFd ▸ hne, hc⟩
    refine ⟨?_, hq.writeEffect event.fd c r.write⟩
    exact writeEffect_steps ht' (fun n => ht'.wrote hc n) (fun _ m h' => h'.modified _ m)
      (ht'.closed hclient) r.write
  · rintro - w' c ⟨ht', hq⟩ hc
    exact ⟨ht'.closed ⟨hq.serverFd ▸ hne, hc⟩, hq.closed event.fd⟩

/-- The event without its flag for reading. -/
def Event.withoutRead (event : Event) : Event :=
  { event with events := { event.events with epollin := false } }

/-- The branches after the read stop at once if the connection is gone. -/
theorem worldOf_branches_none (hc : w.connections event.fd = none) :
    worldOf ((writeBranch event r >>= fun _ => closeBranch event).run w) = w := by
  rw [EStateM.run_bind, writeBranch, closeBranch]
  cases event.events.epollout with
  | true =>
    rw [if_pos rfl, run_handleWriteEvent_none hc]
    rfl
  | false =>
    rw [if_neg Bool.false_ne_true, EStateM.run_pure]
    simp only
    split
    · rw [run_handleCloseEvent_none hc]
      rfl
    · rfl

/-- **A read comes first**: what follows it is what the event does without it. -/
theorem afterEvent_split (hc : IsClient w event.fd c) (hfd : c.fd = event.fd)
    (hin : event.events.epollin = true) :
    afterEvent event r w = afterEvent event.withoutRead r (w.readEffect event.fd c r.read) := by
  obtain ⟨w₁, hw₁⟩ : ∃ w₁, w₁ = w.readEffect event.fd c r.read := ⟨_, rfl⟩
  have hserver : event.withoutRead.fd ≠ w₁.serverFd := by
    rw [hw₁, serverFd_readEffect]
    exact hc.1
  have hrun : (readBranch event r).run w = (handleReadEvent r.read event.fd).run w := by
    rw [readBranch, if_pos hin]
  rw [← hw₁, afterEvent, run_dispatch_client hc.1 hc.2, EStateM.run_bind, hrun]
  have hread := run_handleReadEvent hc.2 hfd r.read
  rw [← hw₁] at hread
  cases hc₁ : w₁.connections event.fd with
  | none =>
    have hnone : w₁.connections event.withoutRead.fd = none := hc₁
    have hafter : afterEvent event.withoutRead r w₁ = w₁ := by
      rw [afterEvent, run_dispatch_unknown hserver hnone]
      rfl
    rw [hafter]
    rcases hread with h | ⟨h, -⟩
    · rw [h]
      exact worldOf_branches_none hc₁
    · rw [h]
      rfl
  | some c₁ =>
    have hsome : w₁.connections event.withoutRead.fd = some c₁ := hc₁
    rcases hread with h | ⟨-, hnone⟩
    · rw [h, afterEvent, run_dispatch_client hserver hsome]
      rfl
    · rw [hc₁] at hnone
      cases hnone

/-! ### What an event does -/

/-- What serving an event does: it reads from one connection at most, carries out few requests, all
of them of that connection, and changes the socket behind no connection. -/
structure EventEffect (w : World) (event : Event) (r : SysResults) (w' : World) : Prop where
  serverFd : w'.serverFd = w.serverFd
  socketOf : ∀ fd c, IsClient w fd c → w'.kernel.socketOf fd = w.kernel.socketOf fd
  received : ∀ s, w'.kernel.received s =
    w.kernel.received s ++ if ReadsFrom w s event then r.read.taken else []
  executed : ∃ new, w'.executed = w.executed ++ new ∧ new.length ≤ maxBacklog ∧
    ∀ e ∈ new, ReadsFrom w e.socket event

/-- Nothing is read where the event is not for reading. -/
theorem EventEffect.of_unread (hs : w'.serverFd = w.serverFd)
    (hsock : ∀ fd c, IsClient w fd c → w'.kernel.socketOf fd = w.kernel.socketOf fd)
    (hreceived : w'.kernel.received = w.kernel.received) (hlog : w'.executed = w.executed)
    (hnot : ∀ s, ¬ ReadsFrom w s event) : EventEffect w event r w' := by
  refine ⟨hs, hsock, fun s => ?_, [], ?_, Nat.zero_le _, fun e he => absurd he List.not_mem_nil⟩
  · rw [if_neg (hnot s), hreceived, List.append_nil]
  · rw [hlog, List.append_nil]

theorem eventEffect_new (ht : TableOk w) (ha : r.Allowed w) (hfd : event.fd = w.serverFd) :
    EventEffect w event r (w.newEffect r) := by
  have hnot : ∀ s, ¬ ReadsFrom w s event := fun s h => h.1 hfd
  have hsame : EventEffect w event r w := .of_unread rfl (fun _ _ _ => rfl) rfl rfl hnot
  refine ht.newEffect_cases ha hsame (fun ho => ?_) fun ho => ?_
  · have hk : (w.refused r.accept).kernel = _ := accept_close_eq w.kernel r.accept
    refine .of_unread rfl (fun fd d hd => ?_) (refused_received w r.accept) rfl hnot
    rw [hk]
    exact Function.update_of_ne (ht.ne_of_closed ho hd.2) ..
  · refine .of_unread rfl (fun fd d hd => ?_) rfl rfl hnot
    exact accepted_socketOf_ne (ht.ne_of_closed ho hd.2)

/-- A read from a connection. -/
theorem eventEffect_read (hd : Drained w) (ha : r.Allowed w) (hc : IsClient w event.fd c)
    (hin : event.events.epollin = true) :
    EventEffect w event r (w.readEffect event.fd c r.read) := by
  have hfd := hd.entry event.fd c hc.2
  obtain ⟨hsock, hreceived⟩ := readEffect_streams (w := w) hfd r.read
  refine ⟨serverFd_readEffect .., fun fd _ _ => congrFun hsock fd, fun s => ?_, ?_⟩
  · have hiff : ReadsFrom w s event ↔ w.kernel.socketOf event.fd = s :=
      ⟨fun h => h.2.2, fun h => ⟨hc.1, hin, h⟩⟩
    simp only [hiff, hreceived, Kernel.received_read]
  · cases hr : r.read with
    | eof => exact ⟨[], (List.append_nil _).symm, Nat.zero_le _, fun _ he => by cases he⟩
    | error errno => exact ⟨[], (List.append_nil _).symm, Nat.zero_le _, fun _ he => by cases he⟩
    | bytes b =>
      refine ⟨calls (w.kernel.socketOf event.fd) w.gData
        (requestDecoder.drain (c.incoming ++ b)).1, ?_, ?_, fun e he => ⟨hc.1, hin, ?_⟩⟩
      · rw [readEffect_executed, hfd]
      · rw [length_calls]
        exact length_drain_incoming_le (hd.next event.fd c hc) (ha.read b hr).2
      · exact (socket_of_mem_calls he).symm

/-- **What every event does.** -/
theorem eventEffect_afterEvent (hi : InterestOk w) (hd : Drained w)
    (hr : EpollReports w (event :: events)) (ha : r.Allowed w) :
    EventEffect w event r (afterEvent event r w) := by
  by_cases hs : event.fd = w.serverFd
  · have hnew : afterEvent event r w = w.newEffect r := by
      rw [afterEvent, run_dispatch_server hs]
      rfl
    rw [hnew]
    exact eventEffect_new hi.toTableOk ha hs
  obtain ⟨c, hc, -⟩ := hr.client hi hs
  cases hin : event.events.epollin with
  | false =>
    obtain ⟨hserver, hsock, hreceived, hlog⟩ := quiet_afterEvent (r := r) hi.toTableOk hs hin
    refine .of_unread hserver (fun fd _ _ => congrFun hsock fd) hreceived hlog fun s h => ?_
    have hflag := h.2.1
    rw [hin] at hflag
    cases hflag
  | true =>
    obtain ⟨hserver, hsock, hreceived, hlog⟩ := eventEffect_read hd ha hc hin
    have hne : event.withoutRead.fd ≠ (w.readEffect event.fd c r.read).serverFd := hserver ▸ hs
    have hquiet : Quiet (w.readEffect event.fd c r.read)
        (afterEvent event.withoutRead r (w.readEffect event.fd c r.read)) :=
      quiet_afterEvent (hi.readEffect hc r.read).toTableOk hne rfl
    rw [afterEvent_split hc (hi.entry event.fd c hc.2) hin]
    refine ⟨hquiet.serverFd.trans hserver, fun fd d hd' => ?_, fun s => ?_, ?_⟩
    · rw [hquiet.socketOf]
      exact hsock fd d hd'
    · rw [hquiet.received]
      exact hreceived s
    · rw [hquiet.executed]
      exact hlog

/-- **What is read has been sent**, if that is so for the client the event reads from. -/
theorem received_afterEvent_sent {sent : ℕ → Bytes}
    (h : Reachable EpollReports anyResults serverFd w (event :: events)) (ha : r.Allowed w)
    (hw : ∀ s, w.kernel.received s <+: sent s)
    (hb : ∀ s, ReadsFrom w s event → w.kernel.received s ++ r.read.taken <+: sent s) (s : ℕ) :
    (afterEvent event r w).kernel.received s <+: sent s := by
  have he : EventEffect w event r (afterEvent event r w) :=
    eventEffect_afterEvent (interestOk_of_reachable h) (drained_of_reachable h)
      (epollReports_of_reachable h) ha
  rw [he.received]
  by_cases hs : ReadsFrom w s event
  · rw [if_pos hs]
    exact hb s hs
  · rw [if_neg hs, List.append_nil]
    exact hw s

/-! ## One turn -/

/-- The events of a batch are served, one after another. -/
inductive ServesBatch : World → List (Event × SysResults) → World → Prop
  | nil (w : World) : ServesBatch w [] w
  | cons {w : World} {event : Event} {r : SysResults} {batch : List (Event × SysResults)}
      {w' : World} (ha : r.Allowed w) (h : ServesBatch (afterEvent event r w) batch w') :
      ServesBatch w ((event, r) :: batch) w'

/-- Whatever the worlds in between are, if they allow the results. -/
theorem servesBatch_foldl (hall : ∀ p ∈ batch, ∀ w, p.2.Allowed w) (w : World) :
    ServesBatch w batch (batch.foldl (fun w p => afterEvent p.1 p.2 w) w) := by
  induction batch generalizing w with
  | nil => exact .nil w
  | cons p batch ih =>
    have hlater := ih (fun q hq => hall q (List.mem_cons_of_mem p hq)) (afterEvent p.1 p.2 w)
    exact .cons (hall p List.mem_cons_self w) hlater

/-- A batch has one event at most that reads from a socket. -/
theorem length_readsFrom_le (hi : InterestOk w) (hr : EpollReports w (batch.map Prod.fst)) (s : ℕ) :
    (batch.filter fun p => ReadsFrom w s p.1).length ≤ 1 := by
  have hclient : ∀ p ∈ batch, ReadsFrom w s p.1 → ∃ c, IsClient w p.1.fd c := by
    intro p hp hreads
    obtain ⟨m, hm, -⟩ := hr.registered p.1 (List.mem_map_of_mem hp)
    obtain ⟨c, hc, -⟩ := hi.exists_of_interest hm
    exact ⟨c, hreads.1, hc⟩
  have hnodup : ((batch.filter fun p => ReadsFrom w s p.1).map fun p => p.1.fd).Nodup := by
    have hfds := hr.nodup
    rw [List.map_map] at hfds
    exact hfds.sublist (List.filter_sublist.map _)
  have hmem : ∀ p ∈ batch.filter fun p => ReadsFrom w s p.1, p ∈ batch ∧ ReadsFrom w s p.1 :=
    fun p hp => ⟨List.mem_of_mem_filter hp, of_decide_eq_true (List.mem_filter.mp hp).2⟩
  generalize (batch.filter fun p => ReadsFrom w s p.1) = reads at hnodup hmem
  match reads with
  | [] => exact Nat.zero_le _
  | [_] => exact Nat.le_refl _
  | p :: q :: _ =>
    -- two events for one socket would be for one descriptor
    obtain ⟨hp, hps⟩ := hmem p List.mem_cons_self
    obtain ⟨hq, hqs⟩ := hmem q (List.mem_cons_of_mem _ List.mem_cons_self)
    obtain ⟨c, hc⟩ := hclient p hp hps
    obtain ⟨d, hd⟩ := hclient q hq hqs
    have hfd := hi.distinct _ _ _ _ hc hd (hps.2.2.trans hqs.2.2.symm)
    rw [List.map_cons, List.map_cons, List.nodup_cons] at hnodup
    exact absurd (hfd ▸ List.mem_cons_self) hnodup.1

/-- Which sockets the later events read from is decided when the batch is delivered. -/
theorem readsFrom_afterEvent (hi : InterestOk w)
    (hr : EpollReports w (event :: batch.map Prod.fst))
    (he : EventEffect w event r w') {p : Event × SysResults} (hp : p ∈ batch) :
    ReadsFrom w' s p.1 ↔ ReadsFrom w s p.1 := by
  rw [ReadsFrom, ReadsFrom, he.serverFd]
  refine and_congr_right fun hne => ?_
  obtain ⟨m, hm, -⟩ := hr.registered p.1 (List.mem_cons_of_mem _ (List.mem_map_of_mem hp))
  obtain ⟨c, hc, -⟩ := hi.exists_of_interest hm
  rw [he.socketOf p.1.fd c ⟨hne, hc⟩]

/-- What a turn does. -/
theorem turn_of_batch (hi : InterestOk w) (hd : Drained w)
    (hr : EpollReports w (batch.map Prod.fst)) (hb : ServesBatch w batch w') :
    (∀ s, w'.kernel.received s = w.kernel.received s ++
        (batch.filter fun p => ReadsFrom w s p.1).flatMap fun p => p.2.read.taken) ∧
      ∃ new, w'.executed = w.executed ++ new ∧ new.length ≤ batch.length * maxBacklog ∧
        ∀ s, (callsOf s new).length ≤
          (batch.filter fun p => ReadsFrom w s p.1).length * maxBacklog := by
  induction hb with
  | nil => exact ⟨fun s => (List.append_nil _).symm, [], (List.append_nil _).symm, Nat.zero_le _,
      fun s => Nat.zero_le _⟩
  | @cons w event r batch w' ha _ ih =>
    have he := eventEffect_afterEvent hi hd hr ha
    obtain ⟨hreceived, later, hlater, hlen, hcalls⟩ :=
      ih (hi.afterEvent ha) (hd.afterEvent ha) (hr.afterEvent hi ha)
    have hfilter : ∀ s, (batch.filter fun p => ReadsFrom (afterEvent event r w) s p.1) =
        batch.filter fun p => ReadsFrom w s p.1 := by
      intro s
      refine List.filter_congr fun p hp => ?_
      rw [decide_eq_decide]
      exact readsFrom_afterEvent hi hr he hp
    obtain ⟨new, hnew, hfew, hsocket⟩ := he.executed
    refine ⟨fun s => ?_, new ++ later, ?_, ?_, fun s => ?_⟩
    · rw [hreceived, he.received, hfilter, List.append_assoc, List.filter_cons]
      by_cases hs : ReadsFrom w s event
      · simp only [hs, if_true, decide_true, List.flatMap_cons]
      · simp [hs]
    · rw [hlater, hnew, List.append_assoc]
    · rw [List.length_append, List.length_cons, Nat.succ_mul]
      omega
    · have hrest := hcalls s
      rw [hfilter] at hrest
      rw [callsOf_append, List.length_append, List.filter_cons]
      have hle : (callsOf s new).length ≤ new.length := List.length_filter_le ..
      by_cases hs : ReadsFrom w s event
      · simp only [hs, decide_true, if_true, List.length_cons, Nat.succ_mul]
        omega
      · have hnone : callsOf s new = [] := by
          refine List.filter_eq_nil_iff.mpr fun e hmem hsock => hs ?_
          exact of_decide_eq_true hsock ▸ hsocket e hmem
        simp only [hs, decide_false, Bool.false_eq_true, if_false, hnone, List.length_nil]
        omega

/-- **A turn is fair.** In every run, between two calls of `epoll_wait`, the server reads from every
client whose event says so once, and from no other; it carries out no more requests of a client than
one read can complete, and none of a client it did not read from. -/
theorem turn_of_run (h : Reachable EpollReports anyResults serverFd w (batch.map Prod.fst))
    (hb : ServesBatch w batch w') :
    (∀ s, (batch.filter fun p => ReadsFrom w s p.1).length ≤ 1 ∧ w'.kernel.received s =
        w.kernel.received s ++
          (batch.filter fun p => ReadsFrom w s p.1).flatMap fun p => p.2.read.taken) ∧
      ∃ new, w'.executed = w.executed ++ new ∧ new.length ≤ batch.length * maxBacklog ∧
        ∀ s, (callsOf s new).length ≤ maxBacklog ∧
          ((∀ p ∈ batch, ¬ ReadsFrom w s p.1) → callsOf s new = []) := by
  have hi := interestOk_of_reachable h
  have hr := epollReports_of_reachable h
  have honce := length_readsFrom_le hi hr
  obtain ⟨hreceived, new, hnew, hlen, hcalls⟩ := turn_of_batch hi (drained_of_reachable h) hr hb
  refine ⟨fun s => ⟨honce s, hreceived s⟩, new, hnew, hlen, fun s => ⟨?_, fun hnot => ?_⟩⟩
  · exact (hcalls s).trans ((Nat.mul_le_mul_right _ (honce s)).trans_eq (Nat.one_mul _))
  · have hnil : (batch.filter fun p => ReadsFrom w s p.1) = [] :=
      List.filter_eq_nil_iff.mpr fun p hp hs => hnot p hp (of_decide_eq_true hs)
    have hzero := hcalls s
    rw [hnil, List.length_nil, Nat.zero_mul] at hzero
    exact List.length_eq_zero_iff.mp (Nat.le_zero.mp hzero)

/-- A second client is accepted. -/
def turnStart : World :=
  afterEvent ⟨3, EPOLLIN⟩ { SysResults.again with accept := 8 } pipelinedAccept

/-- One turn: a part of a frame of the second client, and both frames of the first, which
pipelines. -/
def turnBatch : List (Event × SysResults) :=
  [(⟨8, EPOLLIN⟩, { SysResults.again with read := .bytes (pipelinedFrames.take 27) }),
    (⟨7, EPOLLIN⟩, { SysResults.again with read := .bytes pipelinedFrames })]

/-- The turn is over. -/
def turnEnd : World := turnBatch.foldl (fun w p => afterEvent p.1 p.2 w) turnStart

theorem turn_of_both_run :
    turnEnd.kernel.received 0 = pipelinedFrames ∧
      turnEnd.kernel.received 1 = pipelinedFrames.take 27 ∧
      ∃ new, turnEnd.executed = turnStart.executed ++ new ∧ new.length ≤ 2 * maxBacklog ∧
        (callsOf 0 new).length ≤ maxBacklog ∧ (callsOf 1 new).length ≤ maxBacklog ∧
          callsOf 2 new = [] := by
  have hstart : Reachable EpollReports anyResults 3 turnStart [] :=
    (reachable_pipelinedAccept (.single (m := EPOLLIN) rfl id id) trivial).single
      (.single (m := EPOLLIN) rfl id id) (.of_accept (by decide)) trivial
  have hwait : Reachable EpollReports anyResults 3 turnStart (turnBatch.map Prod.fst) :=
    .wait hstart (.cons (.single (m := EPOLLIN) (by decide) id id) (m := EPOLLIN) (by decide) id id
      (by decide))
  have hb : ServesBatch turnStart turnBatch turnEnd := by
    refine servesBatch_foldl (fun p hp w => ?_) turnStart
    rcases List.mem_pair.mp hp with rfl | rfl <;> exact .of_read w (by decide) (by decide)
  obtain ⟨hreceived, new, hnew, hlen, hcalls⟩ := turn_of_run hwait hb
  refine ⟨(hreceived 0).2, (hreceived 1).2, new, hnew, hlen, (hcalls 0).1, (hcalls 1).1,
    (hcalls 2).2 fun p hp hs => ?_⟩
  rcases List.mem_pair.mp hp with rfl | rfl
  · have hsock : turnStart.kernel.socketOf 8 = 2 := hs.2.2
    exact absurd hsock (by decide)
  · have hsock : turnStart.kernel.socketOf 7 = 2 := hs.2.2
    exact absurd hsock (by decide)

end Byor.Optimized
