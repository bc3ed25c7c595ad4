import Byor.Optimized.Interest

/-!
# The lifetime of a connection

`start` obtains a `Connection&` once and hands it to up to three handlers, any of which may close
the connection and erase the entry behind the reference. Here is exactly when that goes wrong.

* `CloseThenUse`: a handler closes the connection and a later step of the same event uses it. This
  is decided by the event, the results of the system calls and the buffers before the event.
* `usesRemoved_iff`: the event uses a removed connection exactly then.
* `closes_of_run`: in a run without such events every descriptor that is closed is open.
-/

namespace Byor.Optimized

open Wire

variable {w w' : World} {c : Connection} {event : Event} {r : SysResults}

/-- A handler of the event closes the connection, and the connection is used after that: at
end-of-file or after a failed write by the branch for `EPOLLERR` and `EPOLLHUP`, after a header
above the limit by `handle_read_event` itself. -/
def CloseThenUse (w : World) (event : Event) (r : SysResults) : Prop :=
  ∃ c, IsClient w event.fd c ∧
    (event.events.epollin = true ∧ r.read = .eof ∧
        (event.events.epollerr || event.events.epollhup) = true ∨
      event.events.epollin = true ∧
        (∃ b, r.read = .bytes b ∧ MeetsOverLimit (c.incoming ++ b)) ∨
      event.events.epollout = true ∧ (∃ errno, r.write = .error errno ∧ errno.isAgain = false) ∧
        (event.events.epollerr || event.events.epollhup) = true)

/-- The event does not use a connection after closing it. -/
def StaysAlive (w : World) (event : Event) (r : SysResults) : Prop := ¬ CloseThenUse w event r

/-! ## Faults -/

/-- The program uses a removed connection. -/
def UsesRemovedIn {α : Type} (x : Handler α) (w : World) : Prop :=
  ∃ w', x.run w = .error .removedConnection w'

theorem usesRemovedIn_bind_ok {α β : Type} {x : Handler α} {f : α → Handler β} {a : α}
    (h : x.run w = .ok a w') : UsesRemovedIn (x >>= f) w ↔ UsesRemovedIn (f a) w' := by
  rw [UsesRemovedIn, EStateM.run_bind, h]
  rfl

theorem usesRemovedIn_bind_error {α β : Type} {x : Handler α} (f : α → Handler β)
    (h : x.run w = .error .removedConnection w') : UsesRemovedIn (x >>= f) w := by
  refine ⟨w', ?_⟩
  rw [EStateM.run_bind, h]

theorem not_usesRemovedIn_of_ok {α : Type} {x : Handler α} {a : α} (h : x.run w = .ok a w') :
    ¬ UsesRemovedIn x w := by
  rintro ⟨w'', he⟩
  rw [h] at he
  cases he

/-- The branch for `EPOLLERR` and `EPOLLHUP` needs the connection. -/
theorem usesRemovedIn_closeBranch (ht : ∀ c, w.connections event.fd = some c → c.fd = event.fd) :
    UsesRemovedIn (closeBranch event) w ↔
      (event.events.epollerr || event.events.epollhup) = true ∧ w.connections event.fd = none := by
  unfold closeBranch
  split
  · rename_i hflag
    cases hc : w.connections event.fd with
    | none => exact ⟨fun _ => ⟨hflag, rfl⟩, fun _ => ⟨w, run_handleCloseEvent_none hc⟩⟩
    | some c =>
      refine ⟨fun he => absurd he ?_, fun he => by cases he.2⟩
      exact not_usesRemovedIn_of_ok (run_handleCloseEvent hc (ht c hc))
  · rename_i hflag
    exact ⟨fun he => absurd he (not_usesRemovedIn_of_ok (a := ()) rfl), fun he => absurd he.1 hflag⟩

/-! ## Which handlers close -/

/-- A read event that returns has closed the connection only at end-of-file. -/
theorem readEffect_connections_eq_none_iff {conn : Fd} (hc : w.connections conn = some c)
    (ho : ∀ b, r.read = .bytes b → ¬ MeetsOverLimit (c.incoming ++ b)) :
    (w.readEffect conn c r.read).connections conn = none ↔ r.read = .eof := by
  cases hr : r.read with
  | eof => exact ⟨fun _ => rfl, fun _ => closed_connections conn⟩
  | error errno =>
    refine ⟨fun hn => ?_, fun he => ReadResult.noConfusion he⟩
    rw [World.readEffect, hc] at hn
    cases hn
  | bytes b =>
    refine ⟨fun hn => ?_, fun he => ReadResult.noConfusion he⟩
    have hlim := mt (meetsOverLimit_iff _).mpr (ho b hr)
    rw [World.readEffect, if_neg hlim, afterRead_connections, drained_connections] at hn
    cases hn

/-- A write event with bytes to send closes the connection exactly at a hard error. -/
theorem writeEffect_connections_eq_none_iff {conn : Fd} (hc : w.connections conn = some c)
    (hout : c.outgoing ≠ []) :
    (w.writeEffect conn c r.write).connections conn = none ↔
      ∃ errno, r.write = .error errno ∧ errno.isAgain = false := by
  unfold World.writeEffect
  rw [if_neg hout]
  cases hr : r.write with
  | error errno =>
    simp only
    cases he : errno.isAgain with
    | true =>
      rw [if_pos rfl, hc]
      refine ⟨fun hn => (Option.some_ne_none c hn).elim, ?_⟩
      rintro ⟨errno', h, hagain⟩
      obtain rfl := WriteResult.error.inj h
      rw [he] at hagain
      cases hagain
    | false =>
      rw [if_neg Bool.false_ne_true]
      exact ⟨fun _ => ⟨errno, rfl, he⟩, fun _ => closed_connections conn⟩
  | wrote n =>
    simp only [afterWrite_connections]
    refine ⟨fun hn => ?_, ?_⟩
    · have hsome : (w.wrote conn c n).connections conn = some (c.wrote n) := setConn_connections _
      rw [hsome] at hn
      cases hn
    · rintro ⟨errno, h, -⟩
      cases h

/-! ## Which events use a removed connection -/

theorem usesRemoved_client (hc : IsClient w event.fd c) : UsesRemoved event r w ↔
    UsesRemovedIn (readBranch event r >>= fun _ => writeBranch event r >>= fun _ =>
      closeBranch event) w := by
  unfold UsesRemoved UsesRemovedIn
  rw [run_dispatch_client hc.1 hc.2]

/-- Without `EPOLLOUT`, the last branch decides what a read event has left. -/
theorem usesRemoved_read (hi : InterestOk w) (hc : IsClient w event.fd c)
    (hin : event.events.epollin = true) (hout : event.events.epollout = false) :
    UsesRemoved event r w ↔
      (r.read = .eof ∧ (event.events.epollerr || event.events.epollhup) = true) ∨
        ∃ b, r.read = .bytes b ∧ MeetsOverLimit (c.incoming ++ b) := by
  rw [usesRemoved_client hc]
  have hfd : c.fd = event.fd := hi.entry event.fd c hc.2
  have hread : (readBranch event r).run w = (handleReadEvent r.read event.fd).run w := by
    rw [readBranch, if_pos hin]
  by_cases ho : ∃ b, r.read = .bytes b ∧ MeetsOverLimit (c.incoming ++ b)
  · obtain ⟨b, hb, hm⟩ := ho
    rw [hb, run_handleReadEvent_overLimit hc.2 hfd b ((meetsOverLimit_iff _).mp hm)] at hread
    exact ⟨fun _ => .inr ⟨b, hb, hm⟩, fun _ => usesRemovedIn_bind_error _ hread⟩
  have ho' : ∀ b, r.read = .bytes b → ¬ MeetsOverLimit (c.incoming ++ b) :=
    fun b hb hm => ho ⟨b, hb, hm⟩
  have hok : (readBranch event r).run w = .ok () (w.readEffect event.fd c r.read) := by
    rw [hread]
    cases hr : r.read with
    | eof => exact run_handleReadEvent_eof hc.2 hfd
    | error errno => exact run_handleReadEvent_error hc.2 errno
    | bytes b =>
      have hlim := mt (meetsOverLimit_iff _).mpr (ho' b hr)
      rw [World.readEffect, if_neg hlim]
      exact run_handleReadEvent_bytes hc.2 hfd b hlim
  have hskip : (writeBranch event r).run (w.readEffect event.fd c r.read) =
      .ok () (w.readEffect event.fd c r.read) := by
    rw [writeBranch, hout]
    rfl
  rw [usesRemovedIn_bind_ok hok, usesRemovedIn_bind_ok hskip,
    usesRemovedIn_closeBranch ((hi.readEffect hc r.read).entry event.fd),
    readEffect_connections_eq_none_iff hc.2 ho']
  constructor
  · rintro ⟨hflag, he⟩
    exact .inl ⟨he, hflag⟩
  · rintro (⟨he, hflag⟩ | h)
    · exact ⟨hflag, he⟩
    · exact absurd h ho

/-- Without `EPOLLIN`, the last branch decides what a write event has left. -/
theorem usesRemoved_write (hi : InterestOk w) (hc : IsClient w event.fd c)
    (hin : event.events.epollin = false) (hout : event.events.epollout = true)
    (hbytes : c.outgoing ≠ []) :
    UsesRemoved event r w ↔ (∃ errno, r.write = .error errno ∧ errno.isAgain = false) ∧
      (event.events.epollerr || event.events.epollhup) = true := by
  have hfd : c.fd = event.fd := hi.entry event.fd c hc.2
  have hskip : (readBranch event r).run w = .ok () w := by
    rw [readBranch, hin]
    rfl
  have hwrite : (writeBranch event r).run w = .ok () (w.writeEffect event.fd c r.write) := by
    rw [writeBranch, if_pos hout]
    exact run_handleWriteEvent hc.2 hfd r.write
  rw [usesRemoved_client hc, usesRemovedIn_bind_ok hskip, usesRemovedIn_bind_ok hwrite,
    usesRemovedIn_closeBranch ((hi.writeEffect hc r.write).entry event.fd),
    writeEffect_connections_eq_none_iff hc.2 hbytes]
  exact and_comm

/-- An event with neither `EPOLLIN` nor `EPOLLOUT` closes once at most. -/
theorem not_usesRemoved_of_neither (hi : InterestOk w) (hc : IsClient w event.fd c)
    (hin : event.events.epollin = false) (hout : event.events.epollout = false) :
    ¬ UsesRemoved event r w := by
  have hread : (readBranch event r).run w = .ok () w := by
    rw [readBranch, hin]
    rfl
  have hwrite : (writeBranch event r).run w = .ok () w := by
    rw [writeBranch, hout]
    rfl
  rw [usesRemoved_client hc, usesRemovedIn_bind_ok hread, usesRemovedIn_bind_ok hwrite,
    usesRemovedIn_closeBranch (hi.entry event.fd)]
  rintro ⟨-, hnone⟩
  rw [hc.2] at hnone
  cases hnone

/-- The connection of an event is the one in the table. -/
theorem closeThenUse_iff (hc : IsClient w event.fd c) : CloseThenUse w event r ↔
    event.events.epollin = true ∧ r.read = .eof ∧
        (event.events.epollerr || event.events.epollhup) = true ∨
      event.events.epollin = true ∧
        (∃ b, r.read = .bytes b ∧ MeetsOverLimit (c.incoming ++ b)) ∨
      event.events.epollout = true ∧ (∃ errno, r.write = .error errno ∧ errno.isAgain = false) ∧
        (event.events.epollerr || event.events.epollhup) = true := by
  constructor
  · rintro ⟨c', hc', h⟩
    obtain rfl : c' = c := Option.some.inj (hc'.2.symm.trans hc.2)
    exact h
  · exact fun h => ⟨c, hc, h⟩

/-- **When an event uses a removed connection**: exactly when it closes one first. -/
theorem usesRemoved_iff {events : List Event} (hi : InterestOk w)
    (hb : EpollReports w (event :: events)) : UsesRemoved event r w ↔ CloseThenUse w event r := by
  by_cases hs : event.fd = w.serverFd
  · constructor
    · rintro ⟨w', he⟩
      rw [run_dispatch_server hs] at he
      cases he
    · rintro ⟨c, hc, -⟩
      exact absurd hs hc.1
  obtain ⟨c, hc, hempty, hbytes⟩ := hb.client hi hs
  rw [closeThenUse_iff hc]
  cases hin : event.events.epollin with
  | true =>
    -- the interest rules out both flags at once
    have hout : event.events.epollout = false :=
      Bool.eq_false_iff.mpr fun he => hbytes he (hempty hin)
    rw [usesRemoved_read hi hc hin hout]
    simp [hout]
  | false =>
    cases hout : event.events.epollout with
    | true =>
      rw [usesRemoved_write hi hc hin hout (hbytes hout)]
      simp
    | false => simpa using not_usesRemoved_of_neither hi hc hin hout

/-! ## Runs -/

/-- **In a run whose events do not close and then use a connection**, every descriptor that was
closed was open, so none was closed twice; and in every state reached the next event uses a
removed connection exactly if it closes one first. For the first half alone the events may do
anything: a second close of a connection would use the removed one before it reaches the kernel. -/
theorem closes_of_run {serverFd : Fd} {events : List Event}
    (h : Reachable EpollReports StaysAlive serverFd w events) :
    w.kernel.badCloses = 0 ∧ ∀ event rest, events = event :: rest → ∀ r : SysResults,
      (UsesRemoved event r w ↔ CloseThenUse w event r) := by
  have hi := interestOk_of_reachable h
  refine ⟨hi.badCloses, ?_⟩
  rintro event rest rfl r
  exact usesRemoved_iff hi (epollReports_of_reachable h)

/-- A client that was accepted, and a header above the limit. -/
theorem closes_of_accepting_run :
    pipelinedAccept.kernel.badCloses = 0 ∧
      ∀ b, (UsesRemoved ⟨7, EPOLLIN⟩ { SysResults.again with read := .bytes b } pipelinedAccept ↔
        CloseThenUse pipelinedAccept ⟨7, EPOLLIN⟩ { SysResults.again with read := .bytes b }) := by
  have hserve : StaysAlive (World.init 3) ⟨3, EPOLLIN⟩ { SysResults.again with accept := 7 } := by
    rintro ⟨c, hc, -⟩
    exact hc.1 rfl
  have haccept : Reachable EpollReports StaysAlive 3 pipelinedAccept [⟨7, EPOLLIN⟩] :=
    .wait (reachable_pipelinedAccept (.single (m := EPOLLIN) rfl id id) hserve)
      (.single (m := EPOLLIN) (by decide) id id)
  obtain ⟨hbad, hiff⟩ := closes_of_run haccept
  exact ⟨hbad, fun b => hiff _ _ rfl _⟩

/-- The first header a client sends announces more than the limit: `handle_read_event` closes the
connection and then asks for its outgoing buffer. -/
theorem uses_removed_after_overLimit :
    ¬ ∀ (serverFd : Fd) (w : World) (event : Event) (rest : List Event) (r : SysResults),
      Reachable EpollReports anyResults serverFd w (event :: rest) → r.Allowed w →
        ¬ UsesRemoved event r w := by
  intro h
  have haccept : Reachable EpollReports anyResults 3 pipelinedAccept [⟨7, EPOLLIN⟩] :=
    .wait (reachable_pipelinedAccept (.single (m := EPOLLIN) rfl id id) trivial)
      (.single (m := EPOLLIN) (by decide) id id)
  exact h 3 pipelinedAccept ⟨7, EPOLLIN⟩ []
    { SysResults.again with read := .bytes [255, 255, 255, 255] } haccept
    (.of_read _ (by decide) (by decide)) ⟨_, rfl⟩

end Byor.Optimized
