import Byor.Foundations.Service
import Byor.Optimized.Table

/-!
# Servers that simulate a service

A server takes bytes off its sockets in pieces, keeps what is not a complete request yet and what it
could not send yet in the buffers of a `Connection`, and loses both when it closes one. `Explained`
relates its world to the state of a `Service` after the bytes the kernel has handed it
(`Kernel.arrivals`): the map, the buffers and the streams of every socket are what the service says.

Each operation the handlers are made of keeps the relation. Reading is the only one with which
something arrives (`Explained.receive`).
-/

namespace Byor.Optimized

open Wire

variable {w w' : World} {conn fd : Fd} {c : Connection}

/-! ## What arrives -/

/-- The bytes the server has read between two states of the kernel, with their sockets. -/
def Kernel.arrivals (k k' : Kernel) : List (ℕ × UInt8) :=
  (List.range k.accepted).flatMap fun s =>
    ((k'.received s).drop (k.received s).length).map (s, ·)

/-- What arrives between two worlds. -/
def arrivals (w w' : World) : List (ℕ × UInt8) := w.kernel.arrivals w'.kernel

@[simp] theorem arrivals_self (w : World) : arrivals w w = [] := by
  simp [arrivals, Kernel.arrivals]

/-- Only a read brings anything in. -/
theorem arrivals_congr (w w' w'' : World)
    (h : w''.kernel.received = w'.kernel.received) : arrivals w w'' = arrivals w w' := by
  simp only [arrivals, Kernel.arrivals, h]

theorem flatMap_range_single {α : Type*} {n s : ℕ} (hs : s < n) (f : ℕ → List α)
    (h : ∀ t, t ≠ s → f t = []) : (List.range n).flatMap f = f s := by
  induction n with
  | zero => exact absurd hs (Nat.not_lt_zero s)
  | succ n ih =>
    rw [List.range_succ, List.flatMap_append, List.flatMap_singleton]
    by_cases he : s = n
    · have hnil : (List.range n).flatMap f = [] := by
        refine List.flatMap_eq_nil_iff.mpr fun t ht => h t ?_
        rw [List.mem_range] at ht
        omega
      rw [hnil, he, List.nil_append]
    · rw [ih (by omega), h n (Ne.symm he), List.append_nil]

/-- A read that the kernel serves. -/
theorem Kernel.arrivals_read {k : Kernel} (h : k.socketOf fd < k.accepted) (b : Bytes) :
    k.arrivals (k.read fd (.bytes b)) = b.map (k.socketOf fd, ·) := by
  have hreceived : (k.read fd (.bytes b)).received =
      Function.update k.received (k.socketOf fd) (k.received (k.socketOf fd) ++ b) := rfl
  rw [Kernel.arrivals, hreceived, flatMap_range_single h]
  · simp
  · intro t ht
    simp [Function.update_of_ne ht]

/-! ## The relation -/

variable {β σ : Type} {S : Service UInt8 β UInt8 σ} {store : Store → List Execution → σ}
  {arr : List (ℕ × UInt8)}

/-- **The world is explained by the service**: after the bytes that have arrived, the map is its
store, what is left in the buffers of a connection is what it has pending and owes, and nothing else
was ever sent. -/
structure Explained (S : Service UInt8 β UInt8 σ) (store : Store → List Execution → σ)
    (w : World) (arr : List (ℕ × UInt8)) : Prop where
  bounded : ∀ fd c, IsClient w fd c → w.kernel.socketOf fd < w.kernel.accepted
  distinct : ∀ fd c fd' c', IsClient w fd c → IsClient w fd' c' →
    w.kernel.socketOf fd = w.kernel.socketOf fd' → fd = fd'
  /-- Nothing has happened on a socket that is still to be accepted. -/
  fresh : ∀ s, w.kernel.accepted ≤ s → (S.after arr).pending s = [] ∧
    (S.after arr).owed s = [] ∧ w.kernel.written s = []
  received : ∀ s, w.kernel.received s = ofPeer s arr
  store_eq : store w.gData w.executed = (S.after arr).store
  incoming : ∀ fd c, IsClient w fd c → c.incoming = (S.after arr).pending (w.kernel.socketOf fd)
  outgoing : ∀ fd c, IsClient w fd c →
    w.kernel.written (w.kernel.socketOf fd) ++ c.outgoing =
      (S.after arr).owed (w.kernel.socketOf fd)
  written : ∀ s, w.kernel.written s <+: (S.after arr).owed s

/-- What leaves the streams and the map alone, and brings in no client. -/
theorem Explained.of_streams (h : Explained S store w arr)
    (hclient : ∀ fd d, IsClient w' fd d →
      IsClient w fd d ∧ w'.kernel.socketOf fd = w.kernel.socketOf fd)
    (hdata : w'.gData = w.gData) (hlog : w'.executed = w.executed)
    (hacc : w.kernel.accepted ≤ w'.kernel.accepted)
    (hreceived : w'.kernel.received = w.kernel.received)
    (hwritten : w'.kernel.written = w.kernel.written) : Explained S store w' arr where
  bounded fd d hd := by
    obtain ⟨hd, hsock⟩ := hclient fd d hd
    rw [hsock]
    exact (h.bounded fd d hd).trans_le hacc
  distinct fd d fd' d' hd hd' he := by
    obtain ⟨hd, hsock⟩ := hclient fd d hd
    obtain ⟨hd', hsock'⟩ := hclient fd' d' hd'
    rw [hsock, hsock'] at he
    exact h.distinct fd d fd' d' hd hd' he
  fresh s hs := by
    rw [hwritten]
    exact h.fresh s (hacc.trans hs)
  received s := by rw [hreceived, h.received]
  store_eq := by rw [hdata, hlog, h.store_eq]
  incoming fd d hd := by
    obtain ⟨hd, hsock⟩ := hclient fd d hd
    rw [hsock, h.incoming fd d hd]
  outgoing fd d hd := by
    obtain ⟨hd, hsock⟩ := hclient fd d hd
    rw [hsock, hwritten, h.outgoing fd d hd]
  written s := by
    rw [hwritten]
    exact h.written s

theorem Explained.modified (h : Explained S store w arr) (fd : Fd) (m : EventMask) :
    Explained S store (w.modified fd m) arr :=
  h.of_streams (fun _ _ hd => ⟨hd, rfl⟩) rfl rfl (Nat.le_refl _) rfl rfl

theorem close_streams (k : Kernel) (fd : Fd) : (k.close fd).socketOf = k.socketOf ∧
    (k.close fd).accepted = k.accepted ∧ (k.close fd).received = k.received ∧
      (k.close fd).written = k.written := by
  unfold Kernel.close
  split <;> exact ⟨rfl, rfl, rfl, rfl⟩

theorem closed_received (w : World) (fd : Fd) :
    (w.closed fd).kernel.received = w.kernel.received :=
  (close_streams (w.kernel.epollDel fd) fd).2.2.1

theorem refused_received (w : World) (fd : Fd) :
    (w.refused fd).kernel.received = w.kernel.received :=
  (close_streams (w.kernel.accept fd) fd).2.2.1

theorem Explained.close (h : Explained S store w arr) (fd : Fd) :
    Explained S store { w with kernel := w.kernel.close fd } arr := by
  obtain ⟨hsock, hacc, hreceived, hwritten⟩ := close_streams w.kernel fd
  exact h.of_streams (fun fd' d hd => ⟨hd, congrFun hsock fd'⟩) rfl rfl hacc.ge hreceived hwritten

theorem Explained.closed (h : Explained S store w arr) (fd : Fd) :
    Explained S store (w.closed fd) arr := by
  obtain ⟨hsock, hacc, hreceived, hwritten⟩ := close_streams (w.kernel.epollDel fd) fd
  refine h.of_streams (fun fd' d hd => ⟨?_, congrFun hsock fd'⟩) rfl rfl hacc.ge hreceived hwritten
  exact (IsClient.of_erased w (w.closed fd) rfl rfl hd).2

/-- The kernel accepts a connection on a descriptor that is not in the table. -/
theorem Explained.accept (h : Explained S store w arr) (hnone : w.connections fd = none) :
    Explained S store { w with kernel := w.kernel.accept fd } arr := by
  refine h.of_streams (fun fd' d hd => ⟨hd, ?_⟩) rfl rfl (Nat.le_succ _) rfl rfl
  refine Function.update_of_ne ?_ ..
  rintro rfl
  cases hnone.symm.trans hd.2

theorem Explained.refused (h : Explained S store w arr) (hnone : w.connections fd = none) :
    Explained S store (w.refused fd) arr := (h.accept hnone).close fd

/-- A new client starts with a socket nothing has happened on. -/
theorem Explained.accepted (h : Explained S store w arr) :
    Explained S store (w.accepted fd) arr where
  bounded fd' d hd := by
    change _ < w.kernel.accepted + 1
    rcases hd.of_accepted with ⟨rfl, -⟩ | ⟨hne, hd⟩
    · rw [accepted_socketOf]
      exact Nat.lt_succ_self _
    · rw [accepted_socketOf_ne hne]
      exact Nat.lt_succ_of_lt (h.bounded fd' d hd)
  distinct fd1 d1 fd2 d2 h1 h2 he := by
    rcases h1.of_accepted with ⟨rfl, -⟩ | ⟨hne1, hc1⟩ <;>
      rcases h2.of_accepted with ⟨rfl, -⟩ | ⟨hne2, hc2⟩
    · rfl
    · rw [accepted_socketOf, accepted_socketOf_ne hne2] at he
      exact absurd he (h.bounded fd2 d2 hc2).ne'
    · rw [accepted_socketOf, accepted_socketOf_ne hne1] at he
      exact absurd he (h.bounded fd1 d1 hc1).ne
    · rw [accepted_socketOf_ne hne1, accepted_socketOf_ne hne2] at he
      exact h.distinct fd1 d1 fd2 d2 hc1 hc2 he
  fresh s hs := h.fresh s (Nat.le_of_succ_le hs)
  received := h.received
  store_eq := h.store_eq
  incoming fd' d hd := by
    rcases hd.of_accepted with ⟨rfl, rfl⟩ | ⟨hne, hd⟩
    · rw [accepted_socketOf, (h.fresh _ (Nat.le_refl _)).1]
    · rw [accepted_socketOf_ne hne, h.incoming fd' d hd]
  outgoing fd' d hd := by
    change w.kernel.written _ ++ _ = _
    rcases hd.of_accepted with ⟨rfl, rfl⟩ | ⟨hne, hd⟩
    · obtain ⟨-, howed, hwritten⟩ := h.fresh _ (Nat.le_refl _)
      rw [accepted_socketOf, howed, hwritten, List.nil_append]
    · rw [accepted_socketOf_ne hne, h.outgoing fd' d hd]
  written := h.written

/-- What one client reads or is sent leaves the streams of the others alone. -/
theorem Explained.of_socket (h : Explained S store w arr) (hc : IsClient w conn c)
    {c' : Connection} {arr' : List (ℕ × UInt8)} (hs : w'.serverFd = w.serverFd)
    (ht : w'.connections = Function.update w.connections conn (some c'))
    (hsock : w'.kernel.socketOf = w.kernel.socketOf) (hacc : w'.kernel.accepted = w.kernel.accepted)
    (hother : ∀ s, s ≠ w.kernel.socketOf conn → w'.kernel.received s = w.kernel.received s ∧
      w'.kernel.written s = w.kernel.written s ∧ ofPeer s arr' = ofPeer s arr ∧
        (S.after arr').pending s = (S.after arr).pending s ∧
          (S.after arr').owed s = (S.after arr).owed s)
    (hreceived : w'.kernel.received (w.kernel.socketOf conn) =
      ofPeer (w.kernel.socketOf conn) arr')
    (hstore : store w'.gData w'.executed = (S.after arr').store)
    (hin : c'.incoming = (S.after arr').pending (w.kernel.socketOf conn))
    (hout : w'.kernel.written (w.kernel.socketOf conn) ++ c'.outgoing =
      (S.after arr').owed (w.kernel.socketOf conn)) : Explained S store w' arr' := by
  have hlt := h.bounded conn c hc
  have hclient : ∀ fd d, IsClient w' fd d → fd = conn ∧ d = c' ∨
      IsClient w fd d ∧ w.kernel.socketOf fd ≠ w.kernel.socketOf conn := by
    intro fd d hd
    rcases hd.of_update w w' hs ht with hd | ⟨hne, hd⟩
    · exact .inl hd
    · exact .inr ⟨hd, fun he => hne (h.distinct fd d conn c hd hc he)⟩
  have hsome : ∀ fd d, IsClient w' fd d → ∃ d', IsClient w fd d' := by
    intro fd d hd
    rcases hclient fd d hd with ⟨rfl, rfl⟩ | ⟨hd, -⟩
    · exact ⟨c, hc⟩
    · exact ⟨d, hd⟩
  constructor
  · intro fd d hd
    obtain ⟨d', hd'⟩ := hsome fd d hd
    rw [hsock, hacc]
    exact h.bounded fd d' hd'
  · intro fd1 d1 fd2 d2 h1 h2 he
    obtain ⟨d1', h1'⟩ := hsome fd1 d1 h1
    obtain ⟨d2', h2'⟩ := hsome fd2 d2 h2
    rw [hsock] at he
    exact h.distinct fd1 d1' fd2 d2' h1' h2' he
  · intro s hle
    rw [hacc] at hle
    obtain ⟨-, hwritten, -, hpending, howed⟩ := hother s (by omega)
    rw [hwritten, hpending, howed]
    exact h.fresh s hle
  · intro s
    by_cases he : s = w.kernel.socketOf conn
    · rw [he, hreceived]
    · obtain ⟨hrecv, -, hpeer, -⟩ := hother s he
      rw [hrecv, hpeer, h.received]
  · exact hstore
  · intro fd d hd
    rw [hsock]
    rcases hclient fd d hd with ⟨rfl, rfl⟩ | ⟨hd, hne⟩
    · exact hin
    · obtain ⟨-, -, -, hpending, -⟩ := hother _ hne
      rw [hpending, h.incoming fd d hd]
  · intro fd d hd
    rw [hsock]
    rcases hclient fd d hd with ⟨rfl, rfl⟩ | ⟨hd, hne⟩
    · exact hout
    · obtain ⟨-, hwritten, -, -, howed⟩ := hother _ hne
      rw [hwritten, howed, h.outgoing fd d hd]
  · intro s
    by_cases he : s = w.kernel.socketOf conn
    · rw [he]
      exact ⟨_, hout⟩
    · obtain ⟨-, hwritten, -, -, howed⟩ := hother s he
      rw [hwritten, howed]
      exact h.written s

/-- **Bytes are read and the requests that are complete now are carried out.** -/
theorem Explained.receive (h : Explained S store w arr) (hc : IsClient w conn c) (b : Bytes)
    (w' : World) (c' : Connection) (hs : w'.serverFd = w.serverFd)
    (ht : w'.connections = Function.update w.connections conn (some c'))
    (hk : w'.kernel = w.kernel.read conn (.bytes b))
    (hin : c'.incoming = (S.decoder.drain (c.incoming ++ b)).2)
    (hout : c'.outgoing = c.outgoing ++
      (S.execAll (store w.gData w.executed) (S.decoder.drain (c.incoming ++ b)).1).2)
    (hstore : store w'.gData w'.executed =
      (S.execAll (store w.gData w.executed) (S.decoder.drain (c.incoming ++ b)).1).1) :
    Explained S store w' (arr ++ w.kernel.arrivals w'.kernel) := by
  -- the service receives the same piece
  have hafter := S.after_piece arr (w.kernel.socketOf conn) b
  rw [hk, Kernel.arrivals_read (h.bounded conn c hc)]
  rw [h.incoming conn c hc, h.store_eq] at hout hstore
  rw [h.incoming conn c hc] at hin
  refine h.of_socket hc hs ht (by rw [hk]; rfl) (by rw [hk]; rfl) (fun s hne => ?_) ?_ ?_ ?_ ?_
  · rw [hk, hafter, ofPeer_append, ofPeer_map_ne (Ne.symm hne), List.append_nil]
    exact ⟨Function.update_of_ne hne .., rfl, rfl, S.receive_pending_ne hne ..,
      S.receive_owed_ne hne ..⟩
  · rw [hk, ofPeer_append, ofPeer_map_self, ← h.received]
    exact Function.update_self ..
  · rw [hafter, hstore]
    rfl
  · rw [hafter, hin, S.receive_pending_self]
  · rw [hk, hafter, hout, S.receive_owed_self, ← h.outgoing conn c hc, List.append_assoc]
    rfl

/-- The kernel takes bytes from the front of the outgoing buffer. -/
theorem Explained.send (h : Explained S store w arr) (hc : IsClient w conn c) (b : Bytes)
    (w' : World) (c' : Connection) (hs : w'.serverFd = w.serverFd)
    (ht : w'.connections = Function.update w.connections conn (some c'))
    (hk : w'.kernel = w.kernel.write conn b) (hdata : w'.gData = w.gData)
    (hlog : w'.executed = w.executed) (hin : c'.incoming = c.incoming)
    (hout : c.outgoing = b ++ c'.outgoing) : Explained S store w' arr := by
  have hwritten : w'.kernel.written = Function.update w.kernel.written (w.kernel.socketOf conn)
      (w.kernel.written (w.kernel.socketOf conn) ++ b) := by rw [hk]; rfl
  refine h.of_socket hc hs ht (by rw [hk]; rfl) (by rw [hk]; rfl) (fun s hne => ?_)
    (by rw [hk]; exact h.received _) ?_ (hin.trans (h.incoming conn c hc)) ?_
  · rw [hwritten, Function.update_of_ne hne, hk]
    exact ⟨rfl, rfl, rfl, rfl, rfl⟩
  · rw [hdata, hlog, h.store_eq]
  · rw [hwritten, Function.update_self, List.append_assoc, ← hout]
    exact h.outgoing conn c hc

theorem Explained.wrote (h : Explained S store w arr) (hc : IsClient w conn c) (hfd : c.fd = conn)
    (n : ℕ) : Explained S store (w.wrote conn c n) arr := by
  subst hfd
  exact h.send hc (c.outgoing.take (min n c.outgoing.length)) (w.wrote c.fd c n) (c.wrote n) rfl rfl
    rfl rfl rfl rfl (List.take_append_drop ..).symm

/-- No client is connected and nothing has arrived. -/
theorem explained_init (S : Service UInt8 β UInt8 σ) (hstore : store Store.empty [] = S.start)
    (serverFd : Fd) : Explained S store (World.init serverFd) [] where
  bounded fd c hc := absurd hc (not_isClient_init serverFd fd c)
  distinct fd c _ _ hc := absurd hc (not_isClient_init serverFd fd c)
  fresh _ _ := ⟨rfl, rfl, rfl⟩
  received _ := rfl
  store_eq := hstore
  incoming fd c hc := absurd hc (not_isClient_init serverFd fd c)
  outgoing fd c hc := absurd hc (not_isClient_init serverFd fd c)
  written _ := List.nil_prefix

end Byor.Optimized
