import Byor.EventLoop.Handlers
import Byor.Optimized.Explained

/-!
# Services behind the earlier servers

What the echo server and the first key-value server share of the proof that they are a service.

* `Follows`: the worlds an event passes through, explained by the service with what the event has
  read so far. Writing and closing keep it (`Follows.writeEffect`, `Follows.closed`).
* `leaves_readEvent`, `leaves_branches`: the rules for a read event, given what its parse loop does,
  and for the branches of an event.
* `run_whileTryFrame`: the parse loop, for any `try_request` built on `tryFrame`.
-/

namespace Byor.EventLoop

open Wire Optimized

variable {β σ : Type} {S : Service UInt8 β UInt8 σ} {store : Store → List Execution → σ}
  {w₀ w w' : World} {arr : List (ℕ × UInt8)} {conn : Fd} {c : Connection}

/-- **A world on the way of an event** that was served from `w₀`. -/
structure Follows (S : Service UInt8 β UInt8 σ) (store : Store → List Execution → σ) (w₀ : World)
    (arr : List (ℕ × UInt8)) (w : World) : Prop where
  registered : Registered w
  serverFd : w.serverFd = w₀.serverFd
  explained : Explained S store w (arr ++ arrivals w₀ w)

theorem Follows.start (hr : Registered w) (he : Explained S store w arr) :
    Follows S store w arr w := by
  refine ⟨hr, rfl, ?_⟩
  rwa [arrivals_self, List.append_nil]

/-- What reads nothing keeps the relation if it keeps its parts. -/
theorem Follows.of_received (h : Follows S store w₀ arr w) (hr : Registered w')
    (hs : w'.serverFd = w.serverFd) (hrecv : w'.kernel.received = w.kernel.received)
    (he : Explained S store w' (arr ++ arrivals w₀ w)) : Follows S store w₀ arr w' := by
  refine ⟨hr, hs.trans h.serverFd, ?_⟩
  rwa [arrivals_congr w₀ w w' hrecv]

theorem Follows.modified (h : Follows S store w₀ arr w) (fd : Fd) (m : EventMask) :
    Follows S store w₀ arr (w.modified fd m) :=
  h.of_received (h.registered.modified fd m) rfl rfl (h.explained.modified fd m)

theorem Follows.closed (h : Follows S store w₀ arr w) (hne : conn ≠ w₀.serverFd) :
    Follows S store w₀ arr (w.closed conn) :=
  h.of_received (h.registered.closed (h.serverFd ▸ hne)) rfl (closed_received w conn)
    (h.explained.closed conn)

theorem Follows.close (h : Follows S store w₀ arr w) (hnone : w.connections conn = none) :
    Follows S store w₀ arr { w with kernel := w.kernel.close conn } :=
  h.of_received (h.registered.of_kept (kept_close h.registered hnone)) rfl
    (close_streams w.kernel conn).2.2.1 (h.explained.close conn)

theorem Follows.wrote (h : Follows S store w₀ arr w) (hc : IsClient w conn c) (n : ℕ) :
    Follows S store w₀ arr (w.wrote conn c n) :=
  h.of_received (h.registered.of_kept (kept_wrote hc.2 n)) rfl rfl
    (h.explained.wrote hc (h.registered.entry conn c hc.2) n)

theorem Follows.writeEffect (h : Follows S store w₀ arr w) (hc : IsClient w conn c)
    (r : WriteResult) : Follows S store w₀ arr (writeEffect w conn c r) := by
  unfold EventLoop.writeEffect
  split
  · exact h.modified conn EPOLLIN
  cases r with
  | error errno =>
    simp only
    split
    · exact h
    · exact h.closed (h.serverFd ▸ hc.1)
  | wrote n => exact (h.wrote hc n).modified conn _

theorem Follows.newEffect (h : Follows S store w₀ arr w) {r : SysResults} (ha : r.Allowed w) :
    Follows S store w₀ arr (w.newEffect r) := by
  refine newEffect_cases ha h.registered.eq_none_of_closed h (fun ho => ?_) fun ho => ?_
  · exact h.of_received (h.registered.refused ho) rfl (refused_received w r.accept)
      (h.explained.refused (h.registered.eq_none_of_closed ho))
  · exact h.of_received (h.registered.accepted r.accept) rfl rfl h.explained.accepted

/-! ## Handlers that return -/

/-- Where the handler returns, the world satisfies `P`. -/
def Leaves (P : World → Prop) (x : Handler Unit) (w : World) : Prop :=
  ∀ w', x.run w = .ok () w' → P w'

section

variable {P Q : World → Prop} {x y : Handler Unit}

theorem Leaves.bind (hx : Leaves Q x w) (hy : ∀ w', Q w' → Leaves P y w') :
    Leaves P (x >>= fun _ => y) w := by
  intro w' hrun
  rw [EStateM.run_bind] at hrun
  cases h : x.run w with
  | ok _ w₁ =>
    rw [h] at hrun
    exact hy w₁ (hx w₁ h) w' hrun
  | error e w₁ =>
    rw [h] at hrun
    cases hrun

theorem leaves_pure (h : P w) : Leaves P (pure ()) w := by
  intro w' hrun
  cases hrun
  exact h

theorem leaves_of_run (h : x.run w = .ok () w') (hP : P w') : Leaves P x w := by
  intro w'' hrun
  cases h.symm.trans hrun
  exact hP

theorem leaves_of_throw {e : Fault} (h : x.run w = .error e w') : Leaves P x w := by
  intro w'' hrun
  cases h.symm.trans hrun

/-- **The rule for an event of a client**: its branches, one after another. -/
theorem leaves_branches {onRead onWrite onClose : Handler Unit} {a b c : Bool} (h : P w)
    (hread : Leaves P onRead w) (hwrite : ∀ w', P w' → Leaves P onWrite w')
    (hclose : ∀ w', P w' → Leaves P onClose w') :
    Leaves P ((if a then onRead else pure ()) >>= fun _ =>
      (if b then onWrite else pure ()) >>= fun _ => if c then onClose else pure ()) w := by
  refine Leaves.bind (Q := P) ?_ fun w₁ h₁ => Leaves.bind (Q := P) ?_ fun w₂ h₂ => ?_
  · split
    · exact hread
    · exact leaves_pure h
  · split
    · exact hwrite w₁ h₁
    · exact leaves_pure h₁
  · split
    · exact hclose w₂ h₂
    · exact leaves_pure h₂

/-- **The rule for a read event**, given the world its parse loop ends in. -/
theorem leaves_readEvent {tryRequest : Fd → Handler Bool} {onError : Handler Unit} {r : Results}
    (hentry : ∀ c, w.connections conn = some c → c.fd = conn) (h : P w)
    (hclosed : P (w.closed conn)) (herror : Leaves P onError w)
    (hloop : ∀ c b, w.connections conn = some c → r.read = .bytes b → ∃ w₁,
      (whileTrue ((c.incoming ++ b).length + 1) (tryRequest conn)).run (w.buffered conn c b) =
        .ok () w₁ ∧ Leaves P (afterLoop r conn) w₁) :
    Leaves P (readEvent tryRequest onError r conn) w := by
  cases hc : w.connections conn with
  | none => exact leaves_of_throw (run_readEvent_none hc)
  | some c =>
    cases hread : r.read with
    | eof => exact leaves_of_run (run_readEvent_eof hc hread) hclosed
    | error errno =>
      cases he : errno.isAgain with
      | true => exact leaves_of_run (run_readEvent_again hc hread he) h
      | false =>
        intro w' hrun
        rw [run_readEvent_error hc hread he] at hrun
        exact herror w' hrun
    | bytes b =>
      obtain ⟨w₁, hrun₁, h₁⟩ := hloop c b hc hread
      intro w' hrun
      rw [run_readEvent_bytes hc (hentry c hc) hread hrun₁] at hrun
      exact h₁ w' hrun

end

theorem Follows.handleWriteEvent (h : Follows S store w₀ arr w) (hne : conn ≠ w₀.serverFd)
    (r : WriteResult) : Leaves (Follows S store w₀ arr) (handleWriteEvent r conn) w := by
  cases hc : w.connections conn with
  | none => exact leaves_of_throw (run_handleWriteEvent_none hc r)
  | some c =>
    have hfd : c.fd = conn := h.registered.entry conn c hc
    exact leaves_of_run (run_handleWriteEvent hc hfd r) (h.writeEffect ⟨h.serverFd ▸ hne, hc⟩ r)

theorem Follows.handleCloseEvent (h : Follows S store w₀ arr w) (hne : conn ≠ w₀.serverFd) :
    Leaves (Follows S store w₀ arr) (handleCloseEvent conn) w := by
  cases hc : w.connections conn with
  | none => exact leaves_of_run (run_handleCloseEvent_none hc) (h.close hc)
  | some c => exact leaves_of_run (run_handleCloseEvent hc) (h.closed hne)

theorem Follows.afterLoop (h : Follows S store w₀ arr w) (hne : conn ≠ w₀.serverFd) (r : Results) :
    Leaves (Follows S store w₀ arr) (afterLoop r conn) w := by
  cases hc : w.connections conn with
  | none =>
    intro w' hrun
    rw [run_afterLoop_none hc] at hrun
    split at hrun
    · cases hrun
      exact h
    · cases hrun
  | some c =>
    have hclient : IsClient w conn c := ⟨h.serverFd ▸ hne, hc⟩
    refine leaves_of_run (run_afterLoop hc (h.registered.entry conn c hc)) ?_
    split
    · exact h
    · exact (h.modified conn EPOLLOUT).writeEffect hclient r.writeNow

/-! ## Reading -/

/-- **The parse loop.** `state bs xs` is the world in which the requests `bs` have been carried out
and `xs` is left in the buffer. -/
theorem run_whileTryFrame (serve : Connection → ℕ → Handler Bool) (stale : Connection)
    (D : Decoder UInt8 β) (state : List β → Bytes → World)
    (hconn : ∀ bs xs, ∃ d, (state bs xs).connections conn = some d ∧ d.fd = conn ∧ d.incoming = xs)
    (hsome : ∀ bs xs b rest, D.next xs = some (b, rest) →
      (tryFrame serve stale conn).run (state bs xs) = .ok true (state (bs ++ [b]) rest))
    (hnone : ∀ bs xs, D.next xs = none → ¬ OverLimit xs →
      (tryFrame serve stale conn).run (state bs xs) = .ok false (state bs xs))
    {n : ℕ} {xs : Bytes} (hn : xs.length < n) :
    (whileTrue n (tryFrame serve stale conn)).run (state [] xs) = .ok ()
      (if OverLimit (D.drain xs).2 then (state (D.drain xs).1 (D.drain xs).2).closed conn
        else state (D.drain xs).1 (D.drain xs).2) := by
  have hlen := D.length_drain_le (d := 1) D.length_lt xs
  have hturns : ∀ w', (tryFrame serve stale conn).run
      (state (D.drain xs).1 (D.drain xs).2) = .ok false w' →
        Turns (tryFrame serve stale conn) (state [] xs) (D.drain xs).1.length w' :=
    fun _ hstop => D.turns_of_takes state hsome (D.takes_drain xs) [] hstop
  obtain ⟨d, hd, hfd, hin⟩ := hconn (D.drain xs).1 (D.drain xs).2
  by_cases ho : OverLimit (D.drain xs).2
  · rw [if_pos ho]
    exact (hturns _ (run_tryFrame_overLimit hd hfd (hin.symm ▸ ho))).run_whileTrue (by omega)
  · rw [if_neg ho]
    exact (hturns _ (hnone _ _ (D.next_drain xs) ho)).run_whileTrue (by omega)

/-- **A read event**, if the parse loop leaves the world as the service would. -/
theorem Follows.readEvent (h : Follows S store w₀ arr w) (hne : conn ≠ w₀.serverFd)
    {tryRequest : Fd → Handler Bool} {onError : Handler Unit} {r : Results}
    (herror : Leaves (Follows S store w₀ arr) onError w)
    (hloop : ∀ c b, w.connections conn = some c → r.read = .bytes b → ∃ w₁,
      (whileTrue ((c.incoming ++ b).length + 1) (tryRequest conn)).run (w.buffered conn c b) =
        .ok () w₁ ∧ Follows S store w₀ arr w₁) :
    Leaves (Follows S store w₀ arr) (readEvent tryRequest onError r conn) w := by
  refine leaves_readEvent (h.registered.entry conn) h (h.closed hne) herror fun c b hc hread => ?_
  obtain ⟨w₁, hrun₁, h₁⟩ := hloop c b hc hread
  exact ⟨w₁, hrun₁, h₁.afterLoop hne r⟩

/-- **An event of a client.** -/
theorem Follows.branches (h : Follows S store w₀ arr w) {event : Event} {r : WriteResult}
    {onRead : Handler Unit} (hne : event.fd ≠ w₀.serverFd)
    (hread : Leaves (Follows S store w₀ arr) onRead w) :
    Leaves (Follows S store w₀ arr)
      ((if event.events.epollin then onRead else pure ()) >>= fun _ =>
        (if event.events.epollout then EventLoop.handleWriteEvent r event.fd else pure ()) >>=
          fun _ => if event.events.epollerr || event.events.epollhup then
            EventLoop.handleCloseEvent event.fd else pure ()) w :=
  leaves_branches h hread (fun _ h' => h'.handleWriteEvent hne r)
    fun _ h' => h'.handleCloseEvent hne

end Byor.EventLoop
