import Byor.KeyValue.Server

/-!
# Lookups of the first key-value server

`get_connection` throws when a descriptor is not in the table, and the exception leaves `start`. The
handlers call it with the descriptor of the event, and a read event calls it again to write.

* `LosesConnection`: a read event closes the connection and something still looks it up. This is
  decided by the event, the bytes that are read and the buffer before.
* `throws_iff`: the event can throw exactly then; for a header above the limit it depends on what
  the removed `Connection` reads as.
* `lookups_of_run`: the same in every state of a run that has not ended by an exception.
-/

namespace Byor.KeyValue

open Wire EventLoop
open Optimized hiding Handler assign handleNewConnections handleWriteEvent handleCloseEvent

variable {w w' : World} {conn : Fd} {c : Connection} {event : Event} {r : Results}

/-- No call of `read` or `write` fails, but for those that ask to be tried again. -/
structure Results.Succeeds (r : Results) : Prop where
  read : ∀ errno, r.read = .error errno → errno.isAgain = true
  writeNow : ∀ errno, r.writeNow = .error errno → errno.isAgain = true
  write : ∀ errno, r.write = .error errno → errno.isAgain = true

/-- The program ends with the exception of `get_connection`. -/
def Throws {α : Type} (x : Handler α) (w : World) : Prop :=
  ∃ w', x.run w = .error .outOfRange w'

/-- A read event closes the connection and something still looks it up: the branch for `EPOLLOUT`
after end-of-file, and after a header above the limit `handle_read_event` itself. -/
def LosesConnection (w : World) (event : Event) (r : Results) : Prop :=
  ∃ c, IsClient w event.fd c ∧ event.events.epollin = true ∧
    (r.read = .eof ∧ event.events.epollout = true ∨
      ∃ b, r.read = .bytes b ∧ MeetsOverLimit (c.incoming ++ b))

/-! ## The branches of an event -/

/-- The `EPOLLIN` branch of `start`. -/
def readBranch (event : Event) (r : Results) : Handler Unit :=
  if event.events.epollin then handleReadEvent r event.fd else pure ()

/-- The `EPOLLOUT` branch of `start`. -/
def writeBranch (event : Event) (r : Results) : Handler Unit :=
  if event.events.epollout then handleWriteEvent r.write event.fd else pure ()

/-- The `EPOLLERR`/`EPOLLHUP` branch of `start`. -/
def closeBranch (event : Event) : Handler Unit :=
  if event.events.epollerr || event.events.epollhup then handleCloseEvent event.fd
  else pure ()

theorem run_dispatch_server (h : event.fd = w.serverFd) :
    (dispatch event r).run w = .ok () (w.newEffect r.toSysResults) := by
  simp only [dispatch, EStateM.run_bind, EStateM.run_get, if_pos h,
    EventLoop.run_handleNewConnections]

theorem run_dispatch_client (h : event.fd ≠ w.serverFd) : (dispatch event r).run w =
    (readBranch event r >>= fun _ => writeBranch event r >>= fun _ => closeBranch event).run w := by
  simp only [dispatch, EStateM.run_bind, EStateM.run_get, if_neg h, readBranch, writeBranch,
    closeBranch]
  cases event.events.epollin <;> cases event.events.epollout <;> rfl

/-- The branch for `EPOLLERR` and `EPOLLHUP` looks nothing up. -/
theorem run_closeBranch : ∃ w', (closeBranch event).run w = .ok () w' := by
  unfold closeBranch
  split
  · cases hc : w.connections event.fd with
    | none => exact ⟨_, EventLoop.run_handleCloseEvent_none hc⟩
    | some c => exact ⟨_, EventLoop.run_handleCloseEvent hc⟩
  · exact ⟨w, rfl⟩

/-! ## When an event throws -/

/-- A write that does not fail keeps the entry. -/
theorem writeEffect_entry (hc : w.connections conn = some c) (hfd : c.fd = conn) {r : WriteResult}
    (hr : ∀ errno, r = .error errno → errno.isAgain = true) :
    ∃ d, (writeEffect w conn c r).connections conn = some d ∧ d.fd = conn := by
  unfold writeEffect
  split
  · exact ⟨c, hc, hfd⟩
  cases r with
  | error errno =>
    simp only [hr errno rfl, if_true]
    exact ⟨c, hc, hfd⟩
  | wrote n => exact ⟨c.wrote n, setConn_connections _, hfd⟩

/-- A read event that does not lose the connection returns, and leaves it in the table for the
`EPOLLOUT` branch. -/
theorem run_readBranch (hc : IsClient w event.fd c) (hfd : c.fd = event.fd) (hr : r.Succeeds)
    (hl : ¬ LosesConnection w event r) : ∃ w', (readBranch event r).run w = .ok () w' ∧
      (event.events.epollout = true → ∃ d, w'.connections event.fd = some d ∧ d.fd = event.fd) := by
  unfold readBranch
  split
  swap
  · exact ⟨w, rfl, fun _ => ⟨c, hc.2, hfd⟩⟩
  rename_i hin
  cases hread : r.read with
  | eof =>
    refine ⟨_, run_readEvent_eof hc.2 hread, fun hout => ?_⟩
    exact absurd ⟨c, hc, hin, .inl ⟨hread, hout⟩⟩ hl
  | error errno =>
    exact ⟨w, run_readEvent_again hc.2 hread (hr.read errno hread), fun _ => ⟨c, hc.2, hfd⟩⟩
  | bytes b =>
    have ho : ¬ MeetsOverLimit (c.incoming ++ b) :=
      fun ho => hl ⟨c, hc, hin, .inr ⟨b, hread, ho⟩⟩
    obtain ⟨w', ⟨_, _, d, hd, hfd', -⟩, hrun⟩ := run_handleReadEvent_bytes hc.2 hfd hread
    rw [if_neg ho, run_afterLoop hd hfd'] at hrun
    refine ⟨_, hrun, fun _ => ?_⟩
    split
    · exact ⟨d, hd, hfd'⟩
    · exact writeEffect_entry (w := w'.modified event.fd EPOLLOUT) hd hfd' hr.writeNow

theorem run_writeBranch
    (h : event.events.epollout = true → ∃ d, w.connections event.fd = some d ∧ d.fd = event.fd) :
    ∃ w', (writeBranch event r).run w = .ok () w' := by
  unfold writeBranch
  split
  · rename_i hout
    obtain ⟨d, hd, hfd⟩ := h hout
    exact ⟨_, EventLoop.run_handleWriteEvent hd hfd r.write⟩
  · exact ⟨w, rfl⟩

/-- An event that does not lose its connection returns. -/
theorem run_dispatch_ok (hreg : Registered w) (hsome : (w.connections event.fd).isSome)
    (hr : r.Succeeds) (hl : ¬ LosesConnection w event r) :
    ∃ w', (dispatch event r).run w = .ok () w' := by
  by_cases hs : event.fd = w.serverFd
  · exact ⟨_, run_dispatch_server hs⟩
  obtain ⟨c, hc⟩ := Option.isSome_iff_exists.mp hsome
  obtain ⟨w₁, h₁, hentry⟩ := run_readBranch ⟨hs, hc⟩ (hreg.entry _ _ hc) hr hl
  obtain ⟨w₂, h₂⟩ := run_writeBranch (r := r) hentry
  obtain ⟨w₃, h₃⟩ : ∃ w₃, (closeBranch event).run w₂ = .ok () w₃ := run_closeBranch
  refine ⟨w₃, ?_⟩
  rw [run_dispatch_client hs, EStateM.run_bind, h₁]
  simp only [EStateM.run_bind, h₂, h₃]

/-- An event that loses its connection throws, if the removed `Connection` reads as one with
something to send. -/
theorem throws_of_loses (hreg : Registered w) (hl : LosesConnection w event r) {stale : Connection}
    (hstale : stale.outgoing ≠ []) : Throws (dispatch event { r with stale := stale }) w := by
  obtain ⟨c, hc, hin, hloses⟩ := hl
  have hread : (readBranch event { r with stale := stale }).run w =
      (handleReadEvent { r with stale := stale } event.fd).run w := by rw [readBranch, if_pos hin]
  unfold Throws
  rw [run_dispatch_client hc.1, EStateM.run_bind, hread]
  rcases hloses with ⟨heof, hout⟩ | ⟨b, hb, ho⟩
  · have hnone : (w.closed event.fd).connections event.fd = none := closed_connections _
    have hclosed : (handleReadEvent { r with stale := stale } event.fd).run w =
        .ok () (w.closed event.fd) := run_readEvent_eof hc.2 heof
    rw [hclosed]
    simp only [EStateM.run_bind, writeBranch, hout, if_true,
      EventLoop.run_handleWriteEvent_none hnone]
    exact ⟨_, rfl⟩
  · obtain ⟨w', -, hrun⟩ := run_handleReadEvent_bytes (r := { r with stale := stale }) hc.2
      (hreg.entry _ _ hc.2) hb
    rw [hrun, if_pos ho, run_afterLoop_none (closed_connections _), if_neg hstale]
    exact ⟨_, rfl⟩

/-- **When an event throws**: for some content of the removed `Connection`, exactly if it loses its
connection. -/
theorem throws_iff (hreg : Registered w) (hsome : (w.connections event.fd).isSome)
    (hr : r.Succeeds) :
    (∃ stale, Throws (dispatch event { r with stale := stale }) w) ↔ LosesConnection w event r := by
  constructor
  · rintro ⟨stale, w', he⟩
    by_contra hl
    obtain ⟨w'', hok⟩ := run_dispatch_ok (r := { r with stale := stale }) hreg hsome
      ⟨hr.read, hr.writeNow, hr.write⟩ hl
    cases hok.symm.trans he
  · intro hl
    exact ⟨⟨0, [], [0]⟩, throws_of_loses hreg hl (List.cons_ne_nil _ _)⟩

/-! ## Runs -/

/-- A handler that returns leaves the descriptors in order. -/
def Serves (conn : Fd) (x : Handler Unit) (w : World) : Prop :=
  ∀ w', x.run w = .ok () w' → Served conn w w'

theorem Serves.bind {x y : Handler Unit} (hx : Serves conn x w)
    (hy : ∀ w₁, Registered w₁ → w₁.serverFd = w.serverFd → Serves conn y w₁) :
    Serves conn (x >>= fun _ => y) w := by
  intro w' hrun
  rw [EStateM.run_bind] at hrun
  cases h : x.run w with
  | ok _ w₁ =>
    have h₁ := hx w₁ h
    rw [h] at hrun
    exact h₁.trans (hy w₁ h₁.registered h₁.serverFd w' hrun)
  | error e w₁ =>
    rw [h] at hrun
    cases hrun

theorem serves_pure (h : Registered w) : Serves conn (pure ()) w := by
  intro w' hrun
  cases hrun
  exact served_refl h

theorem serves_afterLoop (h : Registered w) (hne : conn ≠ w.serverFd) {r : EventLoop.Results} :
    Serves conn (afterLoop r conn) w := by
  intro w' hrun
  cases hc : w.connections conn with
  | none =>
    rw [run_afterLoop_none hc] at hrun
    split at hrun
    · cases hrun
      exact served_refl h
    · cases hrun
  | some c =>
    cases (run_afterLoop hc (h.entry _ _ hc)).symm.trans hrun
    split
    · exact served_refl h
    · have hm : Served conn w (w.modified conn EPOLLOUT) :=
        served_of_kept h (kept_modified w conn EPOLLOUT)
      exact hm.trans (served_writeEffect hm.registered ⟨hne, hc⟩ r.writeNow)

theorem serves_handleReadEvent (h : Registered w) (hne : conn ≠ w.serverFd) :
    Serves conn (handleReadEvent r conn) w := by
  intro w' hrun
  cases hc : w.connections conn with
  | none => cases (run_readEvent_none hc).symm.trans hrun
  | some c =>
    cases hread : r.read with
    | eof =>
      cases (run_readEvent_eof hc hread).symm.trans hrun
      exact served_closed h hne
    | error errno =>
      cases he : errno.isAgain with
      | true =>
        cases (run_readEvent_again hc hread he).symm.trans hrun
        exact served_refl h
      | false => cases (run_readEvent_error hc hread he).symm.trans hrun
    | bytes b =>
      obtain ⟨w₁, ⟨_, hk, -⟩, hbytes⟩ := run_handleReadEvent_bytes hc (h.entry _ _ hc) hread
      have h₁ : Served conn w w₁ := served_of_kept h hk
      have hne₁ : conn ≠ w₁.serverFd := h₁.serverFd ▸ hne
      rw [hbytes] at hrun
      split at hrun
      · -- a header above the limit: the connection is gone
        have h₂ : Served conn w (w₁.closed conn) := h₁.trans (served_closed h₁.registered hne₁)
        exact h₂.trans (serves_afterLoop h₂.registered hne₁ w' hrun)
      · exact h₁.trans (serves_afterLoop h₁.registered hne₁ w' hrun)

theorem serves_handleWriteEvent (h : Registered w) (hne : conn ≠ w.serverFd) (r : WriteResult) :
    Serves conn (handleWriteEvent r conn) w := by
  intro w' hrun
  cases hc : w.connections conn with
  | none => cases (EventLoop.run_handleWriteEvent_none hc r).symm.trans hrun
  | some c =>
    cases (EventLoop.run_handleWriteEvent hc (h.entry _ _ hc) r).symm.trans hrun
    exact served_writeEffect h ⟨hne, hc⟩ r

theorem serves_handleCloseEvent (h : Registered w) (hne : conn ≠ w.serverFd) :
    Serves conn (handleCloseEvent conn) w := by
  intro w' hrun
  cases hc : w.connections conn with
  | none =>
    cases (EventLoop.run_handleCloseEvent_none hc).symm.trans hrun
    exact served_of_kept h (kept_close h hc)
  | some c =>
    cases (EventLoop.run_handleCloseEvent hc).symm.trans hrun
    exact served_closed h hne

/-- **Every event that is served leaves the descriptors in order.** -/
theorem serves_dispatch (h : Registered w) (ha : r.toSysResults.Allowed w) :
    Serves event.fd (dispatch event r) w := by
  by_cases hs : event.fd = w.serverFd
  · intro w' hrun
    cases (run_dispatch_server hs).symm.trans hrun
    exact served_newEffect h ha
  have hread : Serves event.fd (readBranch event r) w := by
    unfold readBranch
    split
    · exact serves_handleReadEvent h hs
    · exact serves_pure h
  have hrest : Serves event.fd (readBranch event r >>= fun _ =>
      writeBranch event r >>= fun _ => closeBranch event) w := by
    refine hread.bind fun w₁ h₁ hs₁ => ?_
    have hwrite : Serves event.fd (writeBranch event r) w₁ := by
      unfold writeBranch
      split
      · exact serves_handleWriteEvent h₁ (hs₁ ▸ hs) r.write
      · exact serves_pure h₁
    refine hwrite.bind fun w₂ h₂ hs₂ => ?_
    unfold closeBranch
    split
    · exact serves_handleCloseEvent h₂ (hs₂ ▸ hs₁ ▸ hs)
    · exact serves_pure h₂
  intro w' hrun
  rw [run_dispatch_client hs] at hrun
  exact hrest w' hrun

/-- The runs of `start` that have not ended by an exception. -/
abbrev ServerRun (serverFd : Fd) (w : World) (events : List Event) : Prop :=
  BatchRun RegisteredOnce (fun w event w' =>
    ∃ r : Results, r.toSysResults.Allowed w ∧ (dispatch event r).run w = .ok () w')
    (World.init serverFd) w events

section

variable {serverFd : Fd} {events : List Event}

theorem registered_of_serverRun (h : ServerRun serverFd w events) : Registered w := by
  refine h.invariant (registered_init serverFd) ?_
  rintro w event w' hreg ⟨r, ha, hrun⟩
  exact (serves_dispatch hreg ha w' hrun).registered

/-- Every event of the batch that is being served still has its entry. -/
theorem isSome_of_serverRun (h : ServerRun serverFd w events) :
    ∀ event ∈ events, (w.connections event.fd).isSome := by
  refine (BatchRun.pending Event.fd (fun w fd => (w.connections fd).isSome) h ?_ ?_).2
  · intro w batch hr hb
    have hreg := registered_of_serverRun hr
    refine ⟨hb.nodup, fun event he => ?_⟩
    rw [hreg.isOpen, ← hreg.interest]
    exact hb.registered event he
  · rintro w event es w' fd hr ⟨r, ha, hrun⟩ hne hq
    exact (serves_dispatch (registered_of_serverRun hr) ha w' hrun).others fd hne hq

/-- **When the lookups succeed**, in every run: an event throws, for some content of the removed
`Connection`, exactly if it loses its connection; an event that does not is served. -/
theorem lookups_of_run (h : ServerRun serverFd w events) :
    ∀ event rest, events = event :: rest → ∀ r : Results, r.Succeeds →
      ((∀ stale, ¬ Throws (dispatch event { r with stale := stale }) w) ↔
        ¬ LosesConnection w event r) ∧
      (¬ LosesConnection w event r → ∃ w', (dispatch event r).run w = .ok () w' ∧
        (r.toSysResults.Allowed w → ServerRun serverFd w' rest)) := by
  rintro event rest rfl r hr
  have hreg := registered_of_serverRun h
  have hsome := isSome_of_serverRun h event List.mem_cons_self
  refine ⟨?_, fun hl => ?_⟩
  · rw [← throws_iff hreg hsome hr, not_exists]
  · obtain ⟨w', hrun⟩ := run_dispatch_ok hreg hsome hr hl
    exact ⟨w', hrun, fun ha => .serve h ⟨r, ha, hrun⟩⟩

end

/-! ## Examples of runs -/

/-- A client is accepted as descriptor 7. -/
def acceptSeven : Results :=
  ⟨⟨{ SysResults.again with accept := 7 }, .error .EAGAIN, ⟨0, [], []⟩⟩, fun _ => zeros⟩

/-- The client has sent a `get`, and a header above the limit behind it. -/
def overLimitRead : Bytes :=
  record lenFieldSize (encodePayload [ascii "get", ascii "k"]) ++ [255, 255, 255, 255]

/-- The read event that brings these bytes; the removed `Connection` still reads as one with the
response to send. -/
def overLimitResults : Results :=
  ⟨⟨{ SysResults.again with read := .bytes overLimitRead }, .error .EAGAIN,
    ⟨7, [], makeResponse zeros ⟨.RES_NX, []⟩ []⟩⟩, fun _ => zeros⟩

/-- The world after the accept. -/
def accepted : World := (World.init 3).accepted 7

theorem serverRun_accepted (event : Event) (h : event.fd = 7) :
    ServerRun 3 accepted [event] := by
  have hinit : ServerRun 3 (World.init 3) [⟨3, EPOLLIN⟩] :=
    .wait .start (.single (by decide))
  have haccept : ServerRun 3 accepted [] :=
    .serve hinit ⟨acceptSeven, .of_accept (by decide), rfl⟩
  refine .wait haccept (.single ?_)
  rw [h]
  decide

theorem succeeds_overLimitResults : overLimitResults.Succeeds := by
  refine ⟨fun errno he => ?_, fun errno he => ?_, fun errno he => ?_⟩
  · cases he
  · cases he
    rfl
  · cases he
    rfl

/-- The read event that brings a `get` alone. -/
def getResults : Results :=
  ⟨⟨{ SysResults.again with read := .bytes (record lenFieldSize
    (encodePayload [ascii "get", ascii "k"])) }, .error .EAGAIN, ⟨7, [], []⟩⟩, fun _ => zeros⟩

theorem succeeds_getResults : getResults.Succeeds := by
  refine ⟨fun errno he => ?_, fun errno he => ?_, fun errno he => ?_⟩
  · cases he
  · cases he
    rfl
  · cases he
    rfl

/-- A `get` is served. -/
theorem lookups_of_get_run :
    (∀ stale, ¬ Throws (dispatch ⟨7, EPOLLIN⟩ { getResults with stale := stale }) accepted) ∧
      ∃ w', (dispatch ⟨7, EPOLLIN⟩ getResults).run accepted = .ok () w' ∧ ServerRun 3 w' [] := by
  obtain ⟨hiff, hserve⟩ := lookups_of_run (serverRun_accepted _ rfl) ⟨7, EPOLLIN⟩ [] rfl getResults
    succeeds_getResults
  have hkeeps : ¬ LosesConnection accepted ⟨7, EPOLLIN⟩ getResults := by
    rintro ⟨c, hc, -, ⟨he, -⟩ | ⟨b, hb, hover⟩⟩
    · cases he
    · obtain rfl : c = ⟨7, [], []⟩ := Option.some.inj (hc.2.symm.trans rfl)
      obtain rfl := ReadResult.bytes.inj hb
      rw [meetsOverLimit_iff] at hover
      exact absurd hover (by decide)
  obtain ⟨w', hrun, hnext⟩ := hserve hkeeps
  exact ⟨hiff.mpr hkeeps, w', hrun, hnext (.of_read _ (by decide) (by decide))⟩

/-- A header above the limit behind a served request: the exception leaves `start`. -/
theorem throws_after_over_limit :
    ¬ ∀ (serverFd : Fd) (w : World) (event : Event) (rest : List Event) (r : Results),
      ServerRun serverFd w (event :: rest) → r.toSysResults.Allowed w → r.Succeeds →
        ¬ Throws (dispatch event r) w := by
  intro h
  have hrun := serverRun_accepted ⟨7, EPOLLIN⟩ rfl
  have hloses : LosesConnection accepted ⟨7, EPOLLIN⟩ overLimitResults :=
    ⟨⟨7, [], []⟩, ⟨by decide, rfl⟩, rfl,
      .inr ⟨overLimitRead, rfl, (meetsOverLimit_iff _).mpr (by decide)⟩⟩
  have hthrows : Throws (dispatch ⟨7, EPOLLIN⟩ overLimitResults) accepted :=
    throws_of_loses (registered_of_serverRun hrun) hloses
      (show overLimitResults.stale.outgoing ≠ [] by decide)
  exact h _ _ _ _ _ hrun (.of_read _ (by decide) (by decide)) succeeds_overLimitResults hthrows

end Byor.KeyValue
