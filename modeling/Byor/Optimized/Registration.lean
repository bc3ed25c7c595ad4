import Byor.Foundations.Batch
import Byor.Optimized.Interest

/-!
# The table, the kernel and epoll

The table `connections_`, the open descriptors and the descriptors registered with epoll are changed
by different calls on every path. Between events they agree.

* `Registered`: the keys of the table are the open descriptors and the registered ones, and each
  entry holds its key.
* `Kept`: nothing about descriptors has changed; `Registered.of_kept`, `Registered.closed`,
  `Registered.refused` and `Registered.accepted` are the ways in which a handler changes the world.
* `isSome_of_serverRun`: while a batch is served, its events keep their entries.
* `table_of_run`: the agreement in every run, whatever flags events carry; the event that comes next
  finds its entry, and a client starts with empty buffers.
-/

namespace Byor.Optimized

open Wire

variable {w w' w'' : World} {conn fd : Fd} {c : Connection} {event : Event} {r : SysResults}

/-- **The table, the open descriptors and the registered ones agree.** -/
structure Registered (w : World) : Prop where
  entry : ∀ fd c, w.connections fd = some c → c.fd = fd
  isOpen : ∀ fd, (w.connections fd).isSome = w.kernel.isOpen fd
  interest : ∀ fd, (w.kernel.interest fd).isSome = w.kernel.isOpen fd
  server : w.kernel.isOpen w.serverFd = true

/-! ## Worlds with the same descriptors -/

/-- Descriptors are as before: only buffers, the map, and interests may have changed. -/
structure Kept (w w' : World) : Prop where
  serverFd : w'.serverFd = w.serverFd
  entries : ∀ fd, (w'.connections fd).map Connection.fd = (w.connections fd).map Connection.fd
  isOpen : w'.kernel.isOpen = w.kernel.isOpen
  interest : ∀ fd, (w'.kernel.interest fd).isSome = (w.kernel.interest fd).isSome

theorem Kept.refl (w : World) : Kept w w := ⟨rfl, fun _ => rfl, rfl, fun _ => rfl⟩

theorem Kept.trans (h : Kept w w') (h' : Kept w' w'') : Kept w w'' :=
  ⟨h'.serverFd.trans h.serverFd, fun fd => (h'.entries fd).trans (h.entries fd),
    h'.isOpen.trans h.isOpen, fun fd => (h'.interest fd).trans (h.interest fd)⟩

theorem Kept.isSome (h : Kept w w') (fd : Fd) :
    (w'.connections fd).isSome = (w.connections fd).isSome := by
  have he := congrArg Option.isSome (h.entries fd)
  rwa [Option.isSome_map, Option.isSome_map] at he

theorem Registered.of_kept (h : Registered w) (hk : Kept w w') : Registered w' := by
  refine ⟨fun fd c' hc' => ?_, fun fd => ?_, fun fd => ?_, ?_⟩
  · have he := hk.entries fd
    rw [hc', Option.map_some, eq_comm, Option.map_eq_some_iff] at he
    obtain ⟨c, hc, hfd⟩ := he
    rw [← hfd]
    exact h.entry fd c hc
  · rw [hk.isSome, hk.isOpen]
    exact h.isOpen fd
  · rw [hk.interest, hk.isOpen]
    exact h.interest fd
  · rw [hk.serverFd, hk.isOpen]
    exact h.server

/-- Changing the buffers of an entry. -/
theorem Kept.of_update (hc : w.connections conn = some c) (c' : Connection) (hfd : c'.fd = c.fd)
    (hs : w'.serverFd = w.serverFd)
    (ht : w'.connections = Function.update w.connections conn (some c'))
    (hopen : w'.kernel.isOpen = w.kernel.isOpen)
    (hinterest : w'.kernel.interest = w.kernel.interest) : Kept w w' := by
  refine ⟨hs, fun fd => ?_, hopen, fun fd => by rw [hinterest]⟩
  rw [ht, Function.update_apply]
  split
  · rename_i he
    rw [he, hc, Option.map_some, Option.map_some, hfd]
  · rfl

theorem kept_drained (hc : w.connections conn = some c) (b : Bytes) :
    Kept w (w.drained conn c b) :=
  .of_update hc (c.drained w.gData b) rfl rfl (drained_connections_eq b) rfl rfl

theorem kept_wrote (hc : w.connections conn = some c) (n : ℕ) : Kept w (w.wrote conn c n) :=
  .of_update hc (c.wrote n) rfl rfl rfl rfl rfl

theorem kept_modified (w : World) (fd : Fd) (m : EventMask) : Kept w (w.modified fd m) := by
  refine ⟨rfl, fun _ => rfl, rfl, fun fd' => ?_⟩
  change (Function.update w.kernel.interest fd
    ((w.kernel.interest fd).map fun _ => m) fd').isSome = _
  rw [Function.update_apply]
  split
  · rename_i he
    rw [he, Option.isSome_map]
  · rfl

/-! ## Closing and accepting -/

/-- What `handle_close_event` leaves of a descriptor. -/
theorem closed_isOpen (w : World) (fd : Fd) :
    (w.closed fd).kernel.isOpen = Function.update w.kernel.isOpen fd false := by
  change ((w.kernel.epollDel fd).close fd).isOpen = _
  unfold Kernel.close
  split
  · rfl
  · rename_i ho
    have hopen : w.kernel.isOpen fd = false := Bool.eq_false_iff.mpr ho
    rw [← hopen, Function.update_eq_self]
    rfl

theorem closed_interest (w : World) (fd : Fd) :
    (w.closed fd).kernel.interest = Function.update w.kernel.interest fd none := by
  change ((w.kernel.epollDel fd).close fd).interest = _
  unfold Kernel.close
  split
  · exact Function.update_idem ..
  · rfl

theorem Registered.closed (h : Registered w) (hne : conn ≠ w.serverFd) :
    Registered (w.closed conn) := by
  refine ⟨fun fd c hc => ?_, fun fd => ?_, fun fd => ?_, ?_⟩
  · exact h.entry fd c (connections_of_closed hc).2
  · rw [closed_isOpen, Function.update_apply]
    split
    · rename_i he
      rw [he, closed_connections]
      rfl
    · rename_i he
      rw [closed_connections_ne he]
      exact h.isOpen fd
  · rw [closed_isOpen, closed_interest, Function.update_apply, Function.update_apply]
    split
    · rfl
    · exact h.interest fd
  · rw [closed_isOpen]
    exact (Function.update_of_ne hne.symm ..).trans h.server

theorem Registered.eq_none_of_closed (h : Registered w) (ho : w.kernel.isOpen fd = false) :
    w.connections fd = none := by
  rw [← Option.isSome_eq_false_iff.trans Option.isNone_iff_eq_none, h.isOpen, ho]

theorem Registered.refused (h : Registered w) (ho : w.kernel.isOpen fd = false) :
    Registered (w.refused fd) := by
  have hk := accept_close_eq w.kernel fd
  have hopen : (w.refused fd).kernel.isOpen = w.kernel.isOpen := by
    change ((w.kernel.accept fd).close fd).isOpen = _
    rw [hk, ← ho, Function.update_eq_self]
  refine ⟨h.entry, fun fd' => ?_, fun fd' => ?_, ?_⟩
  · rw [hopen]
    exact h.isOpen fd'
  · rw [hopen]
    change (((w.kernel.accept fd).close fd).interest fd').isSome = _
    rw [hk]
    change (Function.update w.kernel.interest fd none fd').isSome = _
    rw [Function.update_apply]
    split
    · rename_i he
      rw [he, ho]
      rfl
    · exact h.interest fd'
  · rw [hopen]
    exact h.server

theorem Registered.accepted (h : Registered w) (fd : Fd) : Registered (w.accepted fd) := by
  refine ⟨fun fd' c hc => ?_, fun fd' => ?_, fun fd' => ?_, ?_⟩
  · rcases connections_of_accepted hc with ⟨rfl, rfl⟩ | ⟨-, hc⟩
    · rfl
    · exact h.entry fd' c hc
  · change _ = Function.update w.kernel.isOpen fd true fd'
    rw [Function.update_apply]
    split
    · rename_i he
      rw [he, accepted_connections]
      rfl
    · rename_i he
      rw [accepted_connections_ne he]
      exact h.isOpen fd'
  · change (Function.update w.kernel.interest fd (some EPOLLIN) fd').isSome =
      Function.update w.kernel.isOpen fd true fd'
    rw [Function.update_apply, Function.update_apply]
    split
    · rfl
    · exact h.interest fd'
  · change Function.update w.kernel.isOpen fd true w.serverFd = true
    rw [Function.update_apply]
    split
    · rfl
    · exact h.server

/-! ## Every event -/

theorem Registered.modified (h : Registered w) (fd : Fd) (m : EventMask) :
    Registered (w.modified fd m) := h.of_kept (kept_modified w fd m)

theorem Registered.readEffect (h : Registered w) (hc : IsClient w conn c) (r : ReadResult) :
    Registered (w.readEffect conn c r) :=
  readEffect_steps h hc (fun b => h.of_kept (kept_drained hc.2 b))
    (fun _ m h' => h'.modified conn m) (fun _ _ h' hc' => h'.closed hc'.1) r

theorem Registered.writeEffect (h : Registered w) (hc : IsClient w conn c) (r : WriteResult) :
    Registered (w.writeEffect conn c r) :=
  writeEffect_steps h (fun n => h.of_kept (kept_wrote hc.2 n)) (fun _ m h' => h'.modified conn m)
    (h.closed hc.1) r

theorem registered_afterEvent (ht : TableOk w) (h : Registered w) (ha : r.Allowed w) :
    Registered (afterEvent event r w) :=
  (afterEvent_steps (P := fun w => TableOk w ∧ Registered w) ⟨ht, h⟩ ha (fun _ h => h.1)
    (fun _ ho => ⟨ht.refused ho, h.refused ho⟩)
    (fun fd ho => ⟨ht.accepted ho, h.accepted fd⟩)
    (fun _ b hc => ⟨ht.drained hc.2 b, h.of_kept (kept_drained hc.2 b)⟩)
    (fun _ _ n h hc => ⟨h.1.wrote hc.2 n, h.2.of_kept (kept_wrote hc.2 n)⟩)
    (fun _ m h => ⟨h.1.modified _ m, h.2.modified _ m⟩)
    fun _ _ h hc => ⟨h.1.closed hc, h.2.closed hc.1⟩).1.2

/-! ## Lookups -/

/-- The program does not end with the exception of `get_connection`. -/
def FindsEntries {α : Type} (x : Handler α) (w : World) : Prop :=
  ∀ w', x.run w ≠ .error .outOfRange w'

theorem findsEntries_of_ok {α : Type} {x : Handler α} {a : α} (h : x.run w = .ok a w') :
    FindsEntries x w := by
  intro w'' he
  cases h.symm.trans he

theorem findsEntries_of_removed {α : Type} {x : Handler α}
    (h : x.run w = .error .removedConnection w') : FindsEntries x w := by
  intro w'' he
  cases h.symm.trans he

theorem FindsEntries.bind {α β : Type} {x : Handler α} {f : α → Handler β} (hx : FindsEntries x w)
    (hf : ∀ a w', x.run w = .ok a w' → FindsEntries (f a) w') : FindsEntries (x >>= f) w := by
  intro w'' he
  rw [EStateM.run_bind] at he
  cases h : x.run w with
  | ok a w' =>
    rw [h] at he
    exact hf a w' h w'' he
  | error e w' =>
    rw [h] at he
    cases he
    exact hx _ h

theorem findsEntries_writeBranch (h : ∀ c, w.connections event.fd = some c → c.fd = event.fd) :
    FindsEntries (writeBranch event r) w := by
  unfold writeBranch
  split
  · cases hc : w.connections event.fd with
    | none => exact findsEntries_of_removed (run_handleWriteEvent_none hc r.write)
    | some c => exact findsEntries_of_ok (run_handleWriteEvent hc (h c hc) r.write)
  · exact findsEntries_of_ok (EStateM.run_pure ..)

theorem findsEntries_closeBranch (h : ∀ c, w.connections event.fd = some c → c.fd = event.fd) :
    FindsEntries (closeBranch event) w := by
  unfold closeBranch
  split
  · cases hc : w.connections event.fd with
    | none => exact findsEntries_of_removed (run_handleCloseEvent_none hc)
    | some c => exact findsEntries_of_ok (run_handleCloseEvent hc (h c hc))
  · exact findsEntries_of_ok (EStateM.run_pure ..)

theorem Registered.readBranch (h : Registered w) (hc : IsClient w event.fd c)
    (hrun : (readBranch event r).run w = .ok () w') :
    Registered w' ∧ w'.serverFd = w.serverFd := by
  unfold Optimized.readBranch at hrun
  split at hrun
  · have hw' : w' = w.readEffect event.fd c r.read := by
      rcases run_handleReadEvent hc.2 (h.entry _ _ hc.2) r.read with he | ⟨he, -⟩ <;>
        cases he.symm.trans hrun
      rfl
    subst hw'
    exact ⟨h.readEffect hc r.read, serverFd_readEffect ..⟩
  · cases hrun
    exact ⟨h, rfl⟩

theorem Registered.writeBranch (h : Registered w) (hne : event.fd ≠ w.serverFd)
    (hrun : (writeBranch event r).run w = .ok () w') : Registered w' := by
  unfold Optimized.writeBranch at hrun
  split at hrun
  · cases hc : w.connections event.fd with
    | none => cases (run_handleWriteEvent_none hc r.write).symm.trans hrun
    | some c =>
      cases (run_handleWriteEvent hc (h.entry _ _ hc) r.write).symm.trans hrun
      exact h.writeEffect ⟨hne, hc⟩ r.write
  · cases hrun
    exact h

/-- An event whose descriptor is in the table is served without a failing lookup. -/
theorem Registered.findsEntries_dispatch (h : Registered w)
    (hsome : (w.connections event.fd).isSome) : FindsEntries (dispatch event r) w := by
  by_cases hs : event.fd = w.serverFd
  · exact findsEntries_of_ok (run_dispatch_server hs r)
  obtain ⟨c, hc⟩ := Option.isSome_iff_exists.mp hsome
  have hread : FindsEntries (Optimized.readBranch event r) w := by
    unfold Optimized.readBranch
    split
    · rcases run_handleReadEvent hc (h.entry _ _ hc) r.read with he | ⟨he, -⟩
      · exact findsEntries_of_ok he
      · exact findsEntries_of_removed he
    · exact findsEntries_of_ok (EStateM.run_pure ..)
  intro w' he
  rw [run_dispatch_client hs hc] at he
  refine hread.bind (fun _ w1 h1 => ?_) w' he
  obtain ⟨hreg1, hs1⟩ := h.readBranch ⟨hs, hc⟩ h1
  refine (findsEntries_writeBranch (hreg1.entry _)).bind fun _ w2 h2 => ?_
  exact findsEntries_closeBranch ((hreg1.writeBranch (hs1 ▸ hs) h2).entry _)

theorem registered_init (serverFd : Fd) : Registered (World.init serverFd) := by
  have hconn : (World.init serverFd).connections =
      Function.update (fun _ => none) serverFd (some ⟨serverFd, [], []⟩) := rfl
  have hinterest : (World.init serverFd).kernel.interest =
      Function.update (fun _ => none) serverFd (some EPOLLIN) := rfl
  have hopen : ∀ fd, (World.init serverFd).kernel.isOpen fd = decide (fd = serverFd) := fun _ => rfl
  have ht := tableOk_init serverFd
  refine ⟨ht.entry, fun fd => ?_, fun fd => ?_, ht.serverOpen⟩
  · rw [hconn, hopen, Function.update_apply]
    split <;> simp [*]
  · rw [hinterest, hopen, Function.update_apply]
    split <;> simp [*]

/-- Only the server's own event enters descriptors into the table. -/
theorem Registered.afterEvent_none (h : Registered w) (hne : event.fd ≠ w.serverFd)
    (hnone : w.connections fd = none) : (afterEvent event r w).connections fd = none := by
  cases hc : w.connections event.fd with
  | none =>
    rw [Optimized.afterEvent, run_dispatch_unknown hne hc]
    exact hnone
  | some c =>
    have hfd : fd ≠ event.fd := by
      rintro rfl
      rw [hc] at hnone
      cases hnone
    refine (afterEvent_rule (P := fun w' => Registered w' ∧ w'.serverFd = w.serverFd ∧
      w'.connections fd = none) ⟨h, rfl, hnone⟩ (fun w' h' => h'.1.entry)
        (fun hs => absurd hs hne) ?_ ?_ ?_).2.2
    · intro _ _ c hc
      exact ⟨h.readEffect ⟨hne, hc⟩ r.read, serverFd_readEffect ..,
        (readEffect_connections_ne hfd r.read).trans hnone⟩
    · rintro _ _ w' c ⟨h', hs, hnone'⟩ hc
      exact ⟨h'.writeEffect ⟨hs ▸ hne, hc⟩ r.write, (serverFd_writeEffect ..).trans hs,
        (writeEffect_connections_ne hfd r.write).trans hnone'⟩
    · rintro _ w' c ⟨h', hs, hnone'⟩ -
      exact ⟨h'.closed (hs ▸ hne), hs, (closed_connections_ne hfd).trans hnone'⟩

/-- A client enters the table with empty buffers, whatever its descriptor stood for before. -/
theorem Registered.afterEvent_accept (h : Registered w) (hs : event.fd = w.serverFd)
    (ha : r.Allowed w) (hr : r.accept ≠ -1) (hn : setNonblocking r.getfl r.setfl = true) :
    (afterEvent event r w).connections r.accept = some ⟨r.accept, [], []⟩ := by
  have hnone := h.eq_none_of_closed (ha.accept hr)
  rw [afterEvent, run_dispatch_server hs, World.newEffect, if_neg hr, hn, hnone]
  exact accepted_connections

/-- Serving an event adds no entry but that of the client it accepts. -/
theorem Registered.afterEvent_new (h : Registered w) (hnone : w.connections fd = none)
    (hc : (afterEvent event r w).connections fd = some c) :
    event.fd = w.serverFd ∧ fd = r.accept ∧ c = ⟨fd, [], []⟩ := by
  by_cases hs : event.fd = w.serverFd
  · rw [afterEvent, run_dispatch_server hs, worldOf, World.newEffect] at hc
    split at hc
    · cases hnone.symm.trans hc
    split at hc
    · cases hnone.symm.trans hc
    split at hc
    · cases hnone.symm.trans hc
    rcases connections_of_accepted hc with ⟨rfl, rfl⟩ | ⟨-, hc⟩
    · exact ⟨hs, rfl, rfl⟩
    · cases hnone.symm.trans hc
  · rw [h.afterEvent_none hs hnone] at hc
    cases hc

/-! ## Batches -/

/-- `epoll_wait` returns each registered descriptor once at most, with any flags. -/
structure RegisteredOnce (w : World) (batch : List Event) : Prop where
  nodup : (batch.map Event.fd).Nodup
  registered : ∀ event ∈ batch, (w.kernel.interest event.fd).isSome

section

variable {Wait : World → List Event → Prop} {serverFd : Fd} {events : List Event}

/-- A run over batches, with any results of the system calls the kernel allows. -/
abbrev ServerRun (Wait : World → List Event → Prop) (serverFd : Fd) (w : World)
    (events : List Event) : Prop :=
  BatchRun Wait (fun w event w' => ∃ r : SysResults, r.Allowed w ∧ w' = afterEvent event r w)
    (World.init serverFd) w events

theorem Reachable.serverRun {Serve : World → Event → SysResults → Prop}
    (h : Reachable Wait Serve serverFd w events) : ServerRun Wait serverFd w events := by
  induction h with
  | start => exact .start
  | wait _ hb ih => exact .wait ih hb
  | serve _ ha _ ih => exact .serve ih ⟨_, ha, rfl⟩

theorem registered_of_serverRun (h : ServerRun Wait serverFd w events) :
    TableOk w ∧ Registered w ∧ w.serverFd = serverFd := by
  refine h.invariant (P := fun w => TableOk w ∧ Registered w ∧ w.serverFd = serverFd)
    ⟨tableOk_init serverFd, registered_init serverFd, rfl⟩ ?_
  rintro w event _ ⟨ht, hr, hs⟩ ⟨r, ha, rfl⟩
  have hafter : TableOk (afterEvent event r w) ∧ (afterEvent event r w).serverFd = w.serverFd :=
    tableOk_afterEvent ht ha
  exact ⟨hafter.1, registered_afterEvent ht hr ha, hafter.2.trans hs⟩

/-- Every event of the batch that is being served still has its entry. -/
theorem isSome_of_serverRun (h : ServerRun RegisteredOnce serverFd w events) :
    ∀ event ∈ events, (w.connections event.fd).isSome := by
  refine (BatchRun.pending Event.fd (fun w fd => (w.connections fd).isSome) h ?_ ?_).2
  · intro w batch hr hb
    obtain ⟨-, hreg, -⟩ := registered_of_serverRun hr
    refine ⟨hb.nodup, fun event he => ?_⟩
    rw [hreg.isOpen, ← hreg.interest]
    exact hb.registered event he
  · rintro w event es _ fd hr ⟨r, ha, rfl⟩ hne hq
    obtain ⟨c, hc⟩ := Option.isSome_iff_exists.mp hq
    rw [afterEvent_connections (registered_of_serverRun hr).1 ha hc hne]
    rfl

/-- **The table, the kernel and epoll agree in every state of every run**: the keys of the table are
the open descriptors, these are the server's and those of the clients accepted and not yet closed,
and they are the registered ones. The event that comes next finds its entry, and clients start with
empty buffers. -/
theorem table_of_run (h : Reachable RegisteredOnce anyResults serverFd w events) :
    (∀ fd, ((w.connections fd).isSome ↔ w.kernel.isOpen fd = true) ∧
      ((w.connections fd).isSome ↔ (w.kernel.interest fd).isSome) ∧
        ∀ c, w.connections fd = some c → c.fd = fd) ∧
      w.serverFd = serverFd ∧ (w.connections serverFd).isSome ∧
      ∀ event rest, events = event :: rest → ∀ r : SysResults, r.Allowed w →
        (∀ w', (dispatch event r).run w ≠ .error .outOfRange w') ∧
        (event.fd = serverFd → r.accept ≠ -1 → setNonblocking r.getfl r.setfl = true →
          (afterEvent event r w).connections r.accept = some ⟨r.accept, [], []⟩) ∧
        ∀ fd c, w.connections fd = none → (afterEvent event r w).connections fd = some c →
          event.fd = serverFd ∧ fd = r.accept ∧ c = ⟨fd, [], []⟩ := by
  obtain ⟨ht, hreg, hs⟩ := registered_of_serverRun h.serverRun
  refine ⟨fun fd => ⟨?_, ?_, hreg.entry fd⟩, hs, ?_, ?_⟩
  · rw [hreg.isOpen]
  · rw [hreg.isOpen, hreg.interest]
  · rw [hreg.isOpen, ← hs]
    exact hreg.server
  rintro event rest rfl r ha
  have hsome := isSome_of_serverRun h.serverRun event List.mem_cons_self
  subst hs
  exact ⟨hreg.findsEntries_dispatch hsome, fun hs => hreg.afterEvent_accept hs ha,
    fun fd c hnone hc => hreg.afterEvent_new hnone hc⟩

end

theorem RegisteredOnce.single (h : (w.kernel.interest event.fd).isSome) :
    RegisteredOnce w [event] := by
  refine ⟨List.nodup_singleton _, fun e he => ?_⟩
  obtain rfl := List.mem_singleton.mp he
  exact h

/-- A client that has sent part of a frame is gone; its descriptor can be handed out again before
the batch is done. -/
def reusedClosed : World :=
  afterEvent ⟨7, EPOLLIN⟩ { SysResults.again with read := .eof } pipelinedFirst

theorem table_of_reused_run :
    (pipelinedFirst.connections 7).map Connection.incoming =
        some ((pipelinedFrames.take 27).drop 25) ∧
      (afterEvent ⟨3, EPOLLIN⟩ { SysResults.again with accept := 7 } reusedClosed).connections 7 =
        some ⟨7, [], []⟩ := by
  have haccept : Reachable RegisteredOnce anyResults 3 pipelinedAccept [] :=
    reachable_pipelinedAccept (.single (by decide)) trivial
  have hfirst : Reachable RegisteredOnce anyResults 3 pipelinedFirst [] :=
    haccept.single (.single (by decide)) (.of_read _ (by decide) (by decide)) trivial
  have hbatch : RegisteredOnce pipelinedFirst [⟨7, EPOLLIN⟩, ⟨3, EPOLLIN⟩] := by
    refine ⟨by decide, fun event he => ?_⟩
    rcases List.mem_pair.mp he with rfl | rfl <;> decide
  have hclosed : Reachable RegisteredOnce anyResults 3 reusedClosed [⟨3, EPOLLIN⟩] :=
    .serve (.wait hfirst hbatch) ⟨fun h => absurd rfl h, fun b hb => by cases hb⟩ trivial
  obtain ⟨-, -, -, hserve⟩ := table_of_run hclosed
  exact ⟨by decide, (hserve _ _ rfl _ (.of_accept (by decide))).2.1 rfl (by decide) rfl⟩

end Byor.Optimized
