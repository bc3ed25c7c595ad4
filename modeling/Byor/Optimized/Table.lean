import Byor.Optimized.Handlers

/-!
# The table of connections

What holds of the table `connections_` and the descriptors behind it, whatever the clients send and
whatever the system calls return.

* `TableOk`: an entry holds its own descriptor, which is open, and each client has a socket of its
  own.
* It is kept by closing (`TableOk.closed`), accepting (`TableOk.accepted`) and by whatever leaves
  the descriptors alone (`TableOk.of_entries`), so by every event.
* `TableOk.close_eq`: the descriptor of a connection in the table is open when it is closed.
-/

namespace Byor.Optimized

open Wire

variable {w w' : World} {conn fd : Fd} {c : Connection}

/-- A connection of a client in the table. -/
def IsClient (w : World) (fd : Fd) (c : Connection) : Prop :=
  fd ≠ w.serverFd ∧ w.connections fd = some c

/-- **The table and the descriptors** fit together. -/
structure TableOk (w : World) : Prop where
  entry : ∀ fd c, w.connections fd = some c → c.fd = fd
  isOpen : ∀ fd c, w.connections fd = some c → w.kernel.isOpen fd = true
  serverOpen : w.kernel.isOpen w.serverFd = true
  /-- Each client has a socket of its own. -/
  distinct : ∀ fd c fd' c', IsClient w fd c → IsClient w fd' c' →
    w.kernel.socketOf fd = w.kernel.socketOf fd' → fd = fd'
  bounded : ∀ fd c, IsClient w fd c → w.kernel.socketOf fd < w.kernel.accepted
  badCloses : w.kernel.badCloses = 0

/-! ## Entries that change -/

theorem IsClient.of_update (w w' : World) (hs : w'.serverFd = w.serverFd)
    (ht : w'.connections = Function.update w.connections conn (some c)) {d : Connection}
    (h : IsClient w' fd d) : fd = conn ∧ d = c ∨ fd ≠ conn ∧ IsClient w fd d := by
  obtain ⟨hfd, hd⟩ := h
  rw [ht] at hd
  by_cases hc : fd = conn
  · subst hc
    rw [Function.update_self] at hd
    exact .inl ⟨rfl, (Option.some.inj hd).symm⟩
  · rw [Function.update_of_ne hc] at hd
    exact .inr ⟨hc, hs ▸ hfd, hd⟩

theorem IsClient.of_erased (w w' : World) (hs : w'.serverFd = w.serverFd)
    (ht : w'.connections = Function.update w.connections conn none) {d : Connection}
    (h : IsClient w' fd d) : fd ≠ conn ∧ IsClient w fd d := by
  obtain ⟨hfd, hd⟩ := h
  rw [ht] at hd
  by_cases hc : fd = conn
  · rw [hc, Function.update_self] at hd
    cases hd
  · rw [Function.update_of_ne hc] at hd
    exact ⟨hc, hs ▸ hfd, hd⟩

theorem connections_of_closed {d : Connection} (hd : (w.closed conn).connections fd = some d) :
    fd ≠ conn ∧ w.connections fd = some d := by
  by_cases he : fd = conn
  · rw [he, closed_connections] at hd
    cases hd
  · exact ⟨he, closed_connections_ne he ▸ hd⟩

/-- Two clients with the same socket are one. -/
theorem TableOk.client_inj (h : TableOk w) {fd' : Fd} {c' : Connection} (hc : IsClient w fd c)
    (hc' : IsClient w fd' c') (hne : fd ≠ fd') :
    w.kernel.socketOf fd ≠ w.kernel.socketOf fd' := fun he => hne (h.distinct _ _ _ _ hc hc' he)

/-- What changes only the buffers of connections keeps the table. -/
theorem TableOk.of_entries (h : TableOk w) (hs : w'.serverFd = w.serverFd)
    (ht : ∀ fd c', w'.connections fd = some c' → c'.fd = fd ∧ ∃ c, w.connections fd = some c)
    (hopen : w'.kernel.isOpen = w.kernel.isOpen) (hsock : w'.kernel.socketOf = w.kernel.socketOf)
    (hacc : w'.kernel.accepted = w.kernel.accepted)
    (hbad : w'.kernel.badCloses = w.kernel.badCloses) : TableOk w' := by
  have hclient : ∀ fd c', IsClient w' fd c' → ∃ c, IsClient w fd c := by
    rintro fd c' ⟨hne, hc'⟩
    obtain ⟨-, c, hc⟩ := ht fd c' hc'
    exact ⟨c, hs ▸ hne, hc⟩
  refine ⟨fun fd c' hc' => (ht fd c' hc').1, ?_, ?_, ?_, ?_, hbad ▸ h.badCloses⟩
  · intro fd c' hc'
    obtain ⟨-, c, hc⟩ := ht fd c' hc'
    rw [hopen]
    exact h.isOpen fd c hc
  · rw [hs, hopen]
    exact h.serverOpen
  · intro fd c fd' c' hc hc' he
    obtain ⟨d, hd⟩ := hclient fd c hc
    obtain ⟨d', hd'⟩ := hclient fd' c' hc'
    rw [hsock] at he
    exact h.distinct fd d fd' d' hd hd' he
  · intro fd c' hc'
    obtain ⟨c, hc⟩ := hclient fd c' hc'
    rw [hsock, hacc]
    exact h.bounded fd c hc

theorem TableOk.setConn (h : TableOk w) (hc : w.connections conn = some c) {c' : Connection}
    (hfd : c'.fd = conn) (hs : w'.serverFd = w.serverFd)
    (ht : w'.connections = Function.update w.connections conn (some c'))
    (hopen : w'.kernel.isOpen = w.kernel.isOpen) (hsock : w'.kernel.socketOf = w.kernel.socketOf)
    (hacc : w'.kernel.accepted = w.kernel.accepted)
    (hbad : w'.kernel.badCloses = w.kernel.badCloses) : TableOk w' := by
  refine h.of_entries hs (fun fd d hd => ?_) hopen hsock hacc hbad
  rw [ht] at hd
  by_cases he : fd = conn
  · subst he
    rw [Function.update_self] at hd
    cases hd
    exact ⟨hfd, c, hc⟩
  · rw [Function.update_of_ne he] at hd
    exact ⟨h.entry fd d hd, d, hd⟩

/-! ## Operations -/

theorem TableOk.served (h : TableOk w) (hc : w.connections conn = some c) (fs : List Request)
    (rest : Bytes) : TableOk (w.served conn c fs rest) := by
  have hfd : c.fd = conn := h.entry conn c hc
  have hfd' : (c.served w.gData fs rest).fd = conn := hfd
  exact h.setConn hc hfd' rfl rfl rfl rfl rfl rfl

theorem TableOk.buffered (h : TableOk w) (hc : w.connections conn = some c) (b : Bytes) :
    TableOk (w.buffered conn c b) := by
  have hfd : c.fd = conn := h.entry conn c hc
  have hfd' : ({ c with incoming := c.incoming ++ b } : Connection).fd = conn := hfd
  exact h.setConn hc hfd' rfl rfl rfl rfl rfl rfl

theorem TableOk.wrote (h : TableOk w) (hc : w.connections conn = some c) (n : ℕ) :
    TableOk (w.wrote conn c n) := by
  have hfd : c.fd = conn := h.entry conn c hc
  have hfd' : (c.wrote n).fd = conn := hfd
  exact h.setConn hc hfd' rfl rfl rfl rfl rfl rfl

theorem TableOk.modified (h : TableOk w) (fd : Fd) (m : EventMask) : TableOk (w.modified fd m) :=
  h.of_entries rfl (fun fd c hc => ⟨h.entry fd c hc, c, hc⟩) rfl rfl rfl rfl

/-- The kernel after a connection of the table was removed and closed. -/
theorem TableOk.close_eq (h : TableOk w) (hc : w.connections conn = some c) :
    (w.closed conn).kernel = { w.kernel with
      isOpen := Function.update w.kernel.isOpen conn false
      interest := Function.update w.kernel.interest conn none } := by
  change (w.kernel.epollDel conn).close conn = _
  rw [Kernel.close, if_pos (show (w.kernel.epollDel conn).isOpen conn = true from
    h.isOpen conn c hc)]
  simp only [Kernel.epollDel, Function.update_idem]

theorem TableOk.closed (h : TableOk w) (hc : IsClient w conn c) : TableOk (w.closed conn) := by
  have hk := h.close_eq hc.2
  have hclient : ∀ fd d, IsClient (w.closed conn) fd d → fd ≠ conn ∧ IsClient w fd d :=
    fun fd d hd => IsClient.of_erased w (w.closed conn) rfl rfl hd
  refine ⟨fun fd d hd => h.entry fd d (connections_of_closed hd).2, ?_, ?_, ?_, ?_, ?_⟩
  · intro fd d hd
    obtain ⟨hne, hd⟩ := connections_of_closed hd
    rw [hk]
    exact (Function.update_of_ne hne ..).trans (h.isOpen fd d hd)
  · rw [hk]
    exact (Function.update_of_ne hc.1.symm ..).trans h.serverOpen
  · intro fd d fd' d' hd hd' he
    rw [hk] at he
    exact h.distinct fd d fd' d' (hclient fd d hd).2 (hclient fd' d' hd').2 he
  · intro fd d hd
    rw [hk]
    exact h.bounded fd d (hclient fd d hd).2
  · rw [hk]
    exact h.badCloses

/-! ## New connections -/

/-- A descriptor that is not open has no entry. -/
theorem TableOk.ne_of_closed (h : TableOk w) (ho : w.kernel.isOpen fd = false)
    (hc : w.connections conn = some c) : conn ≠ fd := by
  rintro rfl
  rw [h.isOpen conn c hc] at ho
  cases ho

theorem TableOk.none_of_closed (h : TableOk w) (ho : w.kernel.isOpen fd = false) :
    w.connections fd = none := by
  cases hc : w.connections fd with
  | none => rfl
  | some c => exact absurd rfl (h.ne_of_closed ho hc)

theorem TableOk.server_ne_of_closed (h : TableOk w) (ho : w.kernel.isOpen fd = false) :
    fd ≠ w.serverFd := by
  rintro rfl
  rw [h.serverOpen] at ho
  cases ho

/-- The kernel after a descriptor was accepted and closed at once. -/
theorem accept_close_eq (k : Kernel) (fd : Fd) : (k.accept fd).close fd = { k with
    isOpen := Function.update k.isOpen fd false
    socketOf := Function.update k.socketOf fd k.accepted
    accepted := k.accepted + 1
    interest := Function.update k.interest fd none } := by
  rw [Kernel.close, if_pos (show (k.accept fd).isOpen fd = true from Function.update_self ..)]
  simp only [Kernel.accept, Function.update_idem]

/-- The world after `accept`, when the descriptor was closed again. -/
def World.refused (w : World) (fd : Fd) : World :=
  { w with kernel := (w.kernel.accept fd).close fd }

theorem TableOk.refused (h : TableOk w) (ho : w.kernel.isOpen fd = false) :
    TableOk (w.refused fd) := by
  have hk := accept_close_eq w.kernel fd
  have hsock : ∀ fd' d, IsClient (w.refused fd) fd' d →
      (w.refused fd).kernel.socketOf fd' = w.kernel.socketOf fd' := by
    rintro fd' d ⟨-, hd⟩
    change ((w.kernel.accept fd).close fd).socketOf fd' = _
    rw [hk]
    exact Function.update_of_ne (h.ne_of_closed ho hd) ..
  refine ⟨h.entry, ?_, ?_, ?_, ?_, ?_⟩
  · intro fd' d hd
    change ((w.kernel.accept fd).close fd).isOpen fd' = true
    rw [hk]
    exact (Function.update_of_ne (h.ne_of_closed ho hd) ..).trans (h.isOpen fd' d hd)
  · change ((w.kernel.accept fd).close fd).isOpen w.serverFd = true
    rw [hk]
    exact (Function.update_of_ne (h.server_ne_of_closed ho).symm ..).trans h.serverOpen
  · intro fd1 d1 fd2 d2 h1 h2 he
    rw [hsock fd1 d1 h1, hsock fd2 d2 h2] at he
    exact h.distinct fd1 d1 fd2 d2 h1 h2 he
  · intro fd' d hd
    rw [hsock fd' d hd]
    change _ < ((w.kernel.accept fd).close fd).accepted
    rw [hk]
    exact Nat.lt_succ_of_lt (h.bounded fd' d hd)
  · change ((w.kernel.accept fd).close fd).badCloses = 0
    rw [hk]
    exact h.badCloses

theorem IsClient.of_accepted {d : Connection} {fd' : Fd} (h : IsClient (w.accepted fd) fd' d) :
    fd' = fd ∧ d = ⟨fd, [], []⟩ ∨ fd' ≠ fd ∧ IsClient w fd' d :=
  IsClient.of_update w (w.accepted fd) rfl rfl h

@[simp] theorem accepted_connections :
    (w.accepted fd).connections fd = some ⟨fd, [], []⟩ := Function.update_self ..

theorem accepted_connections_ne {fd' : Fd} (h : fd' ≠ fd) :
    (w.accepted fd).connections fd' = w.connections fd' := Function.update_of_ne h ..

@[simp] theorem accepted_socketOf : (w.accepted fd).kernel.socketOf fd = w.kernel.accepted :=
  Function.update_self ..

theorem accepted_socketOf_ne {fd' : Fd} (h : fd' ≠ fd) :
    (w.accepted fd).kernel.socketOf fd' = w.kernel.socketOf fd' := Function.update_of_ne h ..

theorem connections_of_accepted {fd' : Fd} {d : Connection}
    (hd : (w.accepted fd).connections fd' = some d) :
    fd' = fd ∧ d = ⟨fd, [], []⟩ ∨ fd' ≠ fd ∧ w.connections fd' = some d := by
  by_cases he : fd' = fd
  · rw [he, accepted_connections] at hd
    exact .inl ⟨he, (Option.some.inj hd).symm⟩
  · rw [accepted_connections_ne he] at hd
    exact .inr ⟨he, hd⟩

theorem TableOk.accepted (h : TableOk w) (ho : w.kernel.isOpen fd = false) :
    TableOk (w.accepted fd) := by
  refine ⟨?_, ?_, ?_, ?_, ?_, h.badCloses⟩
  · intro fd' d hd
    rcases connections_of_accepted hd with ⟨rfl, rfl⟩ | ⟨-, hd⟩
    · rfl
    · exact h.entry fd' d hd
  · intro fd' d hd
    rcases connections_of_accepted hd with ⟨rfl, -⟩ | ⟨hne, hd⟩
    · exact Function.update_self ..
    · exact (Function.update_of_ne hne ..).trans (h.isOpen fd' d hd)
  · exact (Function.update_of_ne (h.server_ne_of_closed ho).symm ..).trans h.serverOpen
  · intro fd1 d1 fd2 d2 h1 h2 he
    -- the new socket has a number no client has
    rcases IsClient.of_accepted h1 with ⟨rfl, -⟩ | ⟨hne1, hc1⟩ <;>
      rcases IsClient.of_accepted h2 with ⟨rfl, -⟩ | ⟨hne2, hc2⟩
    · rfl
    · rw [accepted_socketOf, accepted_socketOf_ne hne2] at he
      exact absurd he (h.bounded fd2 d2 hc2).ne'
    · rw [accepted_socketOf, accepted_socketOf_ne hne1] at he
      exact absurd he (h.bounded fd1 d1 hc1).ne
    · rw [accepted_socketOf_ne hne1, accepted_socketOf_ne hne2] at he
      exact h.distinct fd1 d1 fd2 d2 hc1 hc2 he
  · intro fd' d hd
    change _ < w.kernel.accepted + 1
    rcases IsClient.of_accepted hd with ⟨rfl, -⟩ | ⟨hne, hd⟩
    · rw [accepted_socketOf]
      exact Nat.lt_succ_self _
    · rw [accepted_socketOf_ne hne]
      exact Nat.lt_succ_of_lt (h.bounded fd' d hd)

/-- What holds of the worlds a new connection can lead to, if the table has no entry for a
descriptor that is not open. -/
theorem newEffect_cases {r : SysResults} (ha : r.Allowed w)
    (hnone : w.kernel.isOpen r.accept = false → w.connections r.accept = none)
    {P : World → Prop} (hw : P w)
    (hrefused : w.kernel.isOpen r.accept = false → P (w.refused r.accept))
    (haccepted : w.kernel.isOpen r.accept = false → P (w.accepted r.accept)) :
    P (w.newEffect r) := by
  rw [World.newEffect]
  by_cases hm : r.accept = -1
  · rwa [if_pos hm]
  have ho := ha.accept hm
  rw [if_neg hm]
  by_cases hn : setNonblocking r.getfl r.setfl = false
  · rw [if_pos hn]
    exact hrefused ho
  · have hfree : ¬ (w.connections r.accept).isSome = true := by rw [hnone ho]; decide
    rw [if_neg hn, if_neg hfree]
    exact haccepted ho

theorem TableOk.newEffect_cases (h : TableOk w) {r : SysResults} (ha : r.Allowed w)
    {P : World → Prop} (hw : P w)
    (hrefused : w.kernel.isOpen r.accept = false → P (w.refused r.accept))
    (haccepted : w.kernel.isOpen r.accept = false → P (w.accepted r.accept)) :
    P (w.newEffect r) :=
  Optimized.newEffect_cases ha h.none_of_closed hw hrefused haccepted

/-! ## Every event -/

@[simp] theorem serverFd_afterRead (w : World) (conn : Fd) (c : Connection) :
    (w.afterRead conn c).serverFd = w.serverFd := by
  unfold World.afterRead
  split <;> rfl

@[simp] theorem serverFd_afterWrite (w : World) (conn : Fd) (c : Connection) :
    (w.afterWrite conn c).serverFd = w.serverFd := by
  unfold World.afterWrite
  split <;> rfl

@[simp] theorem serverFd_readEffect (w : World) (conn : Fd) (c : Connection) (r : ReadResult) :
    (w.readEffect conn c r).serverFd = w.serverFd := by
  cases r with
  | eof => rfl
  | error errno => rfl
  | bytes b =>
    unfold World.readEffect
    simp only
    split
    · rfl
    · exact serverFd_afterRead ..

@[simp] theorem serverFd_writeEffect (w : World) (conn : Fd) (c : Connection) (r : WriteResult) :
    (w.writeEffect conn c r).serverFd = w.serverFd := by
  unfold World.writeEffect
  split
  · rfl
  cases r with
  | error errno =>
    simp only
    split <;> rfl
  | wrote n => exact serverFd_afterWrite ..

@[simp] theorem serverFd_newEffect (w : World) (r : SysResults) :
    (w.newEffect r).serverFd = w.serverFd := by
  unfold World.newEffect
  split
  · rfl
  split
  · rfl
  split <;> rfl

/-- What serving requests, modifying and closing keep is kept by a read event. -/
theorem readEffect_steps {P : World → Prop} (hw : P w) (hc : IsClient w conn c)
    (hdrained : ∀ b, P (w.drained conn c b)) (hmodified : ∀ w' m, P w' → P (w'.modified conn m))
    (hclosed : ∀ w' c, P w' → IsClient w' conn c → P (w'.closed conn)) (r : ReadResult) :
    P (w.readEffect conn c r) := by
  cases r with
  | eof => exact hclosed w c hw hc
  | error errno => exact hw
  | bytes b =>
    have hd := hdrained b
    unfold World.readEffect World.afterRead
    simp only
    split
    · exact hclosed _ _ hd ⟨hc.1, drained_connections b⟩
    split
    · exact hd
    · exact hmodified _ _ hd

/-- What writing, modifying and closing keep is kept by a write event. -/
theorem writeEffect_steps {P : World → Prop} (hw : P w)
    (hwrote : ∀ n, P (w.wrote conn c n)) (hmodified : ∀ w' m, P w' → P (w'.modified conn m))
    (hclosed : P (w.closed conn)) (r : WriteResult) : P (w.writeEffect conn c r) := by
  unfold World.writeEffect World.afterWrite
  split
  · exact hmodified _ _ hw
  cases r with
  | error errno =>
    simp only
    split
    · exact hw
    · exact hclosed
  | wrote n =>
    simp only
    split
    · exact hmodified _ _ (hwrote n)
    · exact hwrote n

/-- **The rule for invariants of the table**: they are kept by an event if they are kept by its
handlers. -/
theorem afterEvent_effects {P : World → Prop} {event : Event} {r : SysResults} (hw : P w)
    (hP : ∀ w, P w → TableOk w) (hnew : P (w.newEffect r))
    (hread : ∀ c, IsClient w event.fd c → P (w.readEffect event.fd c r.read))
    (hwrite : ∀ w' c, P w' → IsClient w' event.fd c → P (w'.writeEffect event.fd c r.write))
    (hclosed : ∀ w' c, P w' → IsClient w' event.fd c → P (w'.closed event.fd)) :
    P (afterEvent event r w) ∧ (afterEvent event r w).serverFd = w.serverFd := by
  refine afterEvent_rule (P := fun w' => P w' ∧ w'.serverFd = w.serverFd) ⟨hw, rfl⟩
    (fun w' hw' => (hP w' hw'.1).entry) ?_ ?_ ?_ ?_
  · intro _
    exact ⟨hnew, serverFd_newEffect w r⟩
  · intro hne _ c hc
    exact ⟨hread c ⟨hne, hc⟩, serverFd_readEffect ..⟩
  · rintro hne _ w' c ⟨hw', hs⟩ hc
    exact ⟨hwrite w' c hw' ⟨hs ▸ hne, hc⟩, (serverFd_writeEffect ..).trans hs⟩
  · rintro hne w' c ⟨hw', hs⟩ hc
    exact ⟨hclosed w' c hw' ⟨hs ▸ hne, hc⟩, hs⟩

/-- The same for invariants that hold inside the handlers too: each of the operations the handlers
are made of keeps them. -/
theorem afterEvent_steps {P : World → Prop} {event : Event} {r : SysResults} (hw : P w)
    (ha : r.Allowed w) (hP : ∀ w, P w → TableOk w)
    (hrefused : ∀ fd, w.kernel.isOpen fd = false → P (w.refused fd))
    (haccepted : ∀ fd, w.kernel.isOpen fd = false → P (w.accepted fd))
    (hdrained : ∀ c b, IsClient w event.fd c → P (w.drained event.fd c b))
    (hwrote : ∀ w' c n, P w' → IsClient w' event.fd c → P (w'.wrote event.fd c n))
    (hmodified : ∀ w' m, P w' → P (w'.modified event.fd m))
    (hclosed : ∀ w' c, P w' → IsClient w' event.fd c → P (w'.closed event.fd)) :
    P (afterEvent event r w) ∧ (afterEvent event r w).serverFd = w.serverFd :=
  afterEvent_effects hw hP
    ((hP w hw).newEffect_cases ha hw (hrefused _) (haccepted _))
    (fun c hc => readEffect_steps hw hc (fun b => hdrained c b hc) hmodified hclosed r.read)
    (fun w' c hw' hc => writeEffect_steps hw' (fun n => hwrote w' c n hw' hc) hmodified
      (hclosed w' c hw' hc) r.write)
    hclosed

theorem TableOk.drained (h : TableOk w) (hc : w.connections conn = some c) (b : Bytes) :
    TableOk (w.drained conn c b) :=
  (h.buffered hc b).served (buffered_connections b) _ _

theorem tableOk_afterEvent {event : Event} {r : SysResults} (h : TableOk w) (ha : r.Allowed w) :
    TableOk (afterEvent event r w) ∧ (afterEvent event r w).serverFd = w.serverFd :=
  afterEvent_steps h ha (fun _ => id) (fun _ => h.refused) (fun _ => h.accepted)
    (fun _ b hc => h.drained hc.2 b) (fun _ _ n h' hc => h'.wrote hc.2 n)
    (fun _ m h' => h'.modified _ m) fun _ _ h' hc => h'.closed hc

/-- Before the first event the server's own descriptor is the only one in the table. -/
theorem not_isClient_init (serverFd fd : Fd) (c : Connection) :
    ¬ IsClient (World.init serverFd) fd c := by
  rintro ⟨hne, hc⟩
  have hnone : (World.init serverFd).connections fd = none :=
    Function.update_of_ne (show fd ≠ serverFd from hne) ..
  rw [hnone] at hc
  cases hc

theorem tableOk_init (serverFd : Fd) : TableOk (World.init serverFd) := by
  have hentry : ∀ fd c, (World.init serverFd).connections fd = some c →
      fd = serverFd ∧ c = ⟨serverFd, [], []⟩ := by
    intro fd c hc
    have hfd : fd = serverFd := by
      by_contra hne
      exact not_isClient_init serverFd fd c ⟨hne, hc⟩
    subst hfd
    have hself : (World.init fd).connections fd = some ⟨fd, [], []⟩ := Function.update_self ..
    exact ⟨rfl, Option.some.inj (hc.symm.trans hself)⟩
  refine ⟨?_, ?_, decide_eq_true rfl, ?_, ?_, rfl⟩
  · intro fd c hc
    obtain ⟨rfl, rfl⟩ := hentry fd c hc
    rfl
  · intro fd c hc
    obtain ⟨rfl, -⟩ := hentry fd c hc
    exact decide_eq_true rfl
  · intro fd c _ _ hc
    exact absurd hc (not_isClient_init serverFd fd c)
  · intro fd c hc
    exact absurd hc (not_isClient_init serverFd fd c)

/-- **The table fits the descriptors in every run.** -/
theorem tableOk_of_reachable {Wait : World → List Event → Prop}
    {Serve : World → Event → SysResults → Prop} {serverFd : Fd} {events : List Event}
    (h : Reachable Wait Serve serverFd w events) : TableOk w :=
  h.invariant (tableOk_init serverFd) fun _ _ _ hw ha => (tableOk_afterEvent hw ha).1

end Byor.Optimized
