import Byor.Foundations.Batch
import Byor.PollServer.Handlers

/-!
# The poll-based echo server keeps to the ground the source stands on

`Sound` ties the heap, the vector of pointers and the open descriptors together: every pointer of
the vector points to a connection of that index, every connection stands in the vector once, and the
open descriptors are theirs and the server's. Between two events the flags of a connection follow
from its outgoing buffer (`Settled`).

* `run_serveListener`, `run_serveClient`: what serving an entry of `poll_args` leaves.
* `Pending`: what `poll` has reported of the descriptors that are still to be served is still so.
* `safe_of_run`: no `assert` fails in any run, and no pointer is null or dangling. The one fault is
  the address of the payload of an empty frame at the end of a buffer.
-/

namespace Byor.PollServer

open Wire
open Optimized (Fd Bytes Kernel ReadResult WriteResult Errno OverLimit readBufferSize)

/-- The pointer in the vector at an index; there is none past the end. -/
def World.lookup (w : World) (n : ℕ) : Option Addr := (w.fd2conn[n]?).join

/-- The flags between two events: the loop waits to read until there is something to send. -/
structure Settled (c : Conn) : Prop where
  wantClose : c.wantClose = false
  wantRead : c.wantRead = c.outgoing.isEmpty
  wantWrite : c.wantWrite = !c.outgoing.isEmpty

/-- **The heap, the vector and the descriptors** fit together. -/
structure Sound (w : World) : Prop where
  entry : ∀ n p, w.lookup n = some p → ∃ c, w.heap p = some c ∧ (n : ℤ) = c.fd
  owned : ∀ p c, w.heap p = some c → ∃ n : ℕ, (n : ℤ) = c.fd ∧ w.lookup n = some p
  isOpen : ∀ fd, w.kernel.isOpen fd = true ↔
    fd = w.serverFd ∨ ∃ p c, w.heap p = some c ∧ c.fd = fd
  server : ∀ p c, w.heap p = some c → c.fd ≠ w.serverFd
  settled : ∀ p c, w.heap p = some c → Settled c
  badCloses : w.kernel.badCloses = 0

/-- What the kernel and the allocator promise of their results. -/
structure Results.Allowed (r : Results) (w : World) : Prop where
  accept : r.accept ≠ -1 → 0 ≤ r.accept ∧ w.kernel.isOpen r.accept = false
  addr : w.heap r.addr = none
  read : ∀ b, r.read = .bytes b → b ≠ [] ∧ b.length ≤ readBufferSize

variable {w w' : World} {p q : Addr} {c d : Conn} {k : Kernel} {r : Results}

/-- A descriptor belongs to one connection. -/
theorem Sound.eq_of_fd (h : Sound w) (hp : w.heap p = some c) (hq : w.heap q = some d)
    (hfd : c.fd = d.fd) : p = q := by
  obtain ⟨n, hn, hlookup⟩ := h.owned p c hp
  obtain ⟨m, hm, hlookup'⟩ := h.owned q d hq
  have hnm : n = m := Int.natCast_inj.mp (hn.trans (hfd.trans hm.symm))
  subst hnm
  exact Option.some.inj (hlookup.symm.trans hlookup')

theorem Sound.lookup_fd (h : Sound w) (hp : w.heap p = some c) :
    0 ≤ c.fd ∧ w.lookup c.fd.toNat = some p := by
  obtain ⟨n, hn, hlookup⟩ := h.owned p c hp
  rw [← hn]
  exact ⟨Int.natCast_nonneg n, hlookup⟩

theorem getElem?_of_lookup {n : ℕ} (h : w.lookup n = some p) : w.fd2conn[n]? = some (some p) :=
  Option.join_eq_some_iff.mp h

theorem run_index {n : ℕ} {fd : Fd} (hfd : fd.toNat = n) (h : w.lookup n = some p) :
    (index fd).run w = .ok (some p) w := by
  simp only [index, EStateM.run_bind, EStateM.run_get, hfd, getElem?_of_lookup h, EStateM.run_pure]

/-! ## `poll_args` -/

/-- The entry of `poll_args` for a connection. -/
def Conn.pollfd (c : Conn) : Pollfd := ⟨c.fd, ⟨c.wantRead, c.wantWrite, true, false⟩⟩

theorem run_clientArgs (conns : List (Option Addr)) (base : ℕ)
    (h : ∀ i p, conns[i]? = some (some p) → ∃ c, w.heap p = some c ∧ ((base + i : ℕ) : ℤ) = c.fd) :
    ∃ args, (clientArgs conns).run w = .ok args w ∧ (args.map Pollfd.fd).Pairwise (· < ·) ∧
      (∀ a ∈ args, (base : ℤ) ≤ a.fd ∧ ∃ p c, w.heap p = some c ∧ a = c.pollfd) ∧
      ∀ (i : ℕ) p c, conns[i]? = some (some p) → w.heap p = some c → c.pollfd ∈ args := by
  induction conns generalizing base with
  | nil => exact ⟨[], rfl, .nil, by simp, by simp⟩
  | cons conn conns ih =>
    obtain ⟨args, hrun, hpair, hargs, hall⟩ := ih (base + 1) fun i p hi => by
      obtain ⟨c, hc, hfd⟩ := h (i + 1) p (by simpa using hi)
      exact ⟨c, hc, by rw [← hfd]; congr 1; omega⟩
    cases conn with
    | none =>
      refine ⟨args, hrun, hpair, fun a ha => ?_, fun i p c hi hc => ?_⟩
      · obtain ⟨hle, hsome⟩ := hargs a ha
        exact ⟨by omega, hsome⟩
      · cases i with
        | zero => simp at hi
        | succ i => exact hall i p c (by simpa using hi) hc
    | some p =>
      obtain ⟨c, hc, hfd⟩ := h 0 p (by simp)
      refine ⟨c.pollfd :: args, ?_, ?_, ?_, ?_⟩
      · simp only [clientArgs, EStateM.run_bind, run_deref hc, hrun, EStateM.run_pure]
        rfl
      · refine List.pairwise_cons.mpr ⟨fun fd hmem => ?_, hpair⟩
        obtain ⟨a, ha, rfl⟩ := List.mem_map.mp hmem
        have hle := (hargs a ha).1
        have hlt : ((base + 0 : ℕ) : ℤ) < a.fd := by omega
        rw [hfd] at hlt
        exact hlt
      · intro a ha
        rcases List.mem_cons.mp ha with rfl | ha
        · exact ⟨by change (base : ℤ) ≤ c.fd; omega, p, c, hc, rfl⟩
        · obtain ⟨hle, hsome⟩ := hargs a ha
          exact ⟨by omega, hsome⟩
      · intro i q d hi hd
        cases i with
        | zero =>
          obtain rfl : p = q := by simpa using hi
          obtain rfl := Option.some.inj (hc.symm.trans hd)
          exact List.mem_cons_self
        | succ i => exact List.mem_cons_of_mem _ (hall i q d (by simpa using hi) hd)

/-- **Every connection is polled**, once, for what its flags say; the listening socket comes
first. -/
theorem Sound.run_pollArgs (h : Sound w) : ∃ args,
    pollArgs.run w = .ok (⟨w.serverFd, ⟨true, false, false, false⟩⟩ :: args) w ∧
      (args.map Pollfd.fd).Pairwise (· < ·) ∧
      (∀ a ∈ args, ∃ p c, w.heap p = some c ∧ a = c.pollfd) ∧
      ∀ p c, w.heap p = some c → c.pollfd ∈ args := by
  obtain ⟨args, hrun, hpair, hargs, hall⟩ := run_clientArgs (w := w) w.fd2conn 0 fun i p hi => by
    obtain ⟨c, hc, hfd⟩ := h.entry i p (Option.join_eq_some_iff.mpr hi)
    exact ⟨c, hc, by rw [← hfd, Nat.zero_add]⟩
  refine ⟨args, ?_, hpair, fun a ha => (hargs a ha).2, fun p c hc => ?_⟩
  · simp only [pollArgs, EStateM.run_bind, EStateM.run_get, hrun, EStateM.run_pure]
  · obtain ⟨n, -, hlookup⟩ := h.owned p c hc
    exact hall n p c (getElem?_of_lookup hlookup) hc

/-! ## Serving the listening socket -/

/-- The vector, long enough for a descriptor. -/
def World.table (w : World) (n : ℕ) : List (Option Addr) :=
  if w.fd2conn.length ≤ n then resize w.fd2conn (n + 1) else w.fd2conn

/-- The world after a client was accepted. -/
def World.entered (w : World) (fd : Fd) (p : Addr) : World where
  serverFd := w.serverFd
  heap := Function.update w.heap p (some ⟨fd, true, false, false, [], []⟩)
  fd2conn := (w.table fd.toNat).set fd.toNat (some p)
  kernel := w.kernel.accept fd

theorem length_table (w : World) (n : ℕ) : n < (w.table n).length := by
  unfold World.table
  split
  · simp only [resize, List.length_append, List.length_replicate]
    omega
  · omega

/-- Room for more descriptors changes nothing about those there are. -/
theorem join_table (w : World) (n m : ℕ) : ((w.table n)[m]?).join = w.lookup m := by
  unfold World.table
  split
  · by_cases hm : m < w.fd2conn.length
    · rw [resize, List.getElem?_append_left hm]
      rfl
    · have hnone : w.fd2conn[m]? = none := List.getElem?_eq_none (by omega)
      rw [resize, List.getElem?_append_right (by omega), World.lookup, hnone,
        List.getElem?_replicate]
      split <;> rfl
  · rfl

theorem lookup_entered (w : World) (fd : Fd) (p : Addr) (m : ℕ) :
    (w.entered fd p).lookup m = if m = fd.toNat then some p else w.lookup m := by
  have hlen := length_table w fd.toNat
  rw [World.lookup]
  change (((w.table fd.toNat).set fd.toNat (some p))[m]?).join = _
  by_cases hm : m = fd.toNat
  · rw [hm, List.getElem?_set_self hlen, if_pos rfl]
    rfl
  · rw [List.getElem?_set_ne (Ne.symm hm), if_neg hm, join_table]

/-- No connection has a descriptor that is not open. -/
theorem Sound.lookup_of_closed (h : Sound w) {fd : Fd} (h0 : 0 ≤ fd)
    (ho : w.kernel.isOpen fd = false) : w.lookup fd.toNat = none := by
  cases hp : w.lookup fd.toNat with
  | none => rfl
  | some p =>
    obtain ⟨c, hc, hfd⟩ := h.entry _ p hp
    rw [Int.toNat_of_nonneg h0] at hfd
    rw [(h.isOpen fd).mpr (.inr ⟨p, c, hc, hfd.symm⟩)] at ho
    cases ho

theorem run_index_table (w : World) (fd : Fd) : (index fd).run { w with
    fd2conn := w.table fd.toNat } = .ok (w.lookup fd.toNat) { w with
      fd2conn := w.table fd.toNat } := by
  have hlen := length_table w fd.toNat
  have hjoin := join_table w fd.toNat fd.toNat
  rw [List.getElem?_eq_getElem hlen] at hjoin
  simp only [index, EStateM.run_bind, EStateM.run_get, List.getElem?_eq_getElem hlen,
    EStateM.run_pure]
  rw [← hjoin]
  rfl

/-- **The listening socket**: its `assert` holds, and a client that was accepted is entered. -/
theorem run_serveListener (h : Sound w) (ha : r.Allowed w) (m : PollMask) :
    (serveListener m r).run w = .ok ()
      (if m.any = true ∧ r.accept ≠ -1 then w.entered r.accept r.addr else w) := by
  cases hm : m.any with
  | false => simp [serveListener, hm]
  | true =>
    by_cases hr : r.accept = -1
    · simp [serveListener, handleAccept, hm, hr]
    obtain ⟨h0, ho⟩ := ha.accept hr
    rw [if_pos ⟨rfl, hr⟩]
    obtain ⟨w₁, hw₁⟩ : ∃ w₁ : World, w₁ = { w with
        heap := Function.update w.heap r.addr (some ⟨r.accept, true, false, false, [], []⟩)
        kernel := w.kernel.accept r.accept } := ⟨_, rfl⟩
    have haccept : (handleAccept r).run w = .ok (some r.addr) w₁ := by
      rw [hw₁]
      simp only [handleAccept, if_neg hr]
      rfl
    have hconn : w₁.heap r.addr = some ⟨r.accept, true, false, false, [], []⟩ := by
      simp [hw₁]
    have hindex := run_index_table w₁ r.accept
    have hnone : w₁.lookup r.accept.toNat = none := by
      rw [hw₁]
      exact h.lookup_of_closed h0 ho
    rw [hnone, World.table] at hindex
    simp only [serveListener, hm, Bool.not_true, Bool.false_eq_true, if_false, EStateM.run_bind,
      haccept, Option.isNone_some, run_deref hconn, EStateM.run_get, EStateM.run_set, hindex,
      Option.isSome_none, EStateM.run_modify]
    subst hw₁
    rfl

theorem heap_entered (w : World) (fd : Fd) (p q : Addr) : (w.entered fd p).heap q =
    if q = p then some ⟨fd, true, false, false, [], []⟩ else w.heap q := Function.update_apply ..

theorem settled_entered (fd : Fd) : Settled ⟨fd, true, false, false, [], []⟩ := ⟨rfl, rfl, rfl⟩

theorem Sound.entered (h : Sound w) {fd : Fd} (h0 : 0 ≤ fd) (ho : w.kernel.isOpen fd = false)
    (hp : w.heap p = none) : Sound (w.entered fd p) := by
  have hnone := h.lookup_of_closed h0 ho
  have hne : fd ≠ w.serverFd := by
    rintro rfl
    rw [(h.isOpen _).mpr (.inl rfl)] at ho
    cases ho
  -- a connection is the new one or an old one
  have hcases : ∀ q d, (w.entered fd p).heap q = some d →
      q = p ∧ d = ⟨fd, true, false, false, [], []⟩ ∨ q ≠ p ∧ w.heap q = some d := by
    intro q d hd
    rw [heap_entered] at hd
    split at hd
    · exact .inl ⟨‹_›, (Option.some.inj hd).symm⟩
    · exact .inr ⟨‹_›, hd⟩
  constructor
  · intro n q hq
    rw [lookup_entered] at hq
    split at hq
    · rename_i hn
      obtain rfl := Option.some.inj hq
      refine ⟨_, (heap_entered w fd p p).trans (if_pos rfl), ?_⟩
      rw [hn]
      exact Int.toNat_of_nonneg h0
    · obtain ⟨c, hc, hfd⟩ := h.entry n q hq
      have hqp : q ≠ p := by
        rintro rfl
        rw [hp] at hc
        cases hc
      exact ⟨c, (heap_entered w fd p q).trans ((if_neg hqp).trans hc), hfd⟩
  · intro q d hd
    rcases hcases q d hd with ⟨rfl, rfl⟩ | ⟨-, hd⟩
    · exact ⟨fd.toNat, Int.toNat_of_nonneg h0, (lookup_entered ..).trans (if_pos rfl)⟩
    · obtain ⟨n, hn, hlookup⟩ := h.owned q d hd
      refine ⟨n, hn, (lookup_entered ..).trans ((if_neg ?_).trans hlookup)⟩
      rintro rfl
      rw [hnone] at hlookup
      cases hlookup
  · intro fd'
    change Function.update w.kernel.isOpen fd true fd' = true ↔ _
    rw [Function.update_apply]
    split
    · rename_i he
      refine iff_of_true rfl (.inr ⟨p, _, (heap_entered w fd p p).trans (if_pos rfl), he.symm⟩)
    · rename_i he
      rw [h.isOpen]
      refine or_congr_right ⟨?_, ?_⟩
      · rintro ⟨q, d, hd, hfd⟩
        have hqp : q ≠ p := by
          rintro rfl
          rw [hp] at hd
          cases hd
        exact ⟨q, d, (heap_entered w fd p q).trans ((if_neg hqp).trans hd), hfd⟩
      · rintro ⟨q, d, hd, hfd⟩
        rcases hcases q d hd with ⟨-, rfl⟩ | ⟨-, hd⟩
        · exact absurd hfd.symm he
        · exact ⟨q, d, hd, hfd⟩
  · intro q d hd
    rcases hcases q d hd with ⟨-, rfl⟩ | ⟨-, hd⟩
    · exact hne
    · exact h.server q d hd
  · intro q d hd
    rcases hcases q d hd with ⟨-, rfl⟩ | ⟨-, hd⟩
    · exact settled_entered fd
    · exact h.settled q d hd
  · exact h.badCloses

/-! ## Serving a connection -/

/-- The flags that `poll` reports are among those the connection waits for. -/
structure Fits (c : Conn) (m : PollMask) : Prop where
  pollin : m.pollin = true → c.wantRead = true
  pollout : m.pollout = true → c.wantWrite = true

/-- The connection after its handlers, before it may be closed. -/
def Conn.served (c : Conn) (m : PollMask) (r : Results) : Conn :=
  if m.pollin then c.didRead r else if m.pollout then c.wrote r.write else c

/-- The kernel after the handlers of a connection. -/
def Conn.servedKernel (c : Conn) (k : Kernel) (m : PollMask) (r : Results) : Kernel :=
  if m.pollin then c.readKernel k r else if m.pollout then c.writeKernel k r.write else k

/-- The world after a connection was closed and deleted. -/
def World.closed (w : World) (p : Addr) (fd : Fd) (k : Kernel) : World :=
  { w with
    heap := Function.update w.heap p none
    fd2conn := w.fd2conn.set fd.toNat none
    kernel := k.close fd }

/-- The world when the connection is done, closed if it is to be. -/
def World.finish (w : World) (p : Addr) (m : PollMask) (c : Conn) (k : Kernel) : World :=
  if m.pollerr || c.wantClose then w.closed p c.fd k else w.put p c k

@[simp] theorem fd_wrote (c : Conn) (r : WriteResult) : (c.wrote r).fd = c.fd := by
  cases r with
  | error errno => rfl
  | wrote n =>
    rw [Conn.wrote]
    split <;> rfl

@[simp] theorem fd_stopped (c : Conn) : c.stopped.fd = c.fd := by
  rw [Conn.stopped]
  split <;> rfl

@[simp] theorem fd_turned (c : Conn) (r : WriteResult) : (c.turned r).fd = c.fd := by
  rw [Conn.turned]
  split <;> simp

@[simp] theorem fd_parsed (c : Conn) (b : Bytes) : (c.parsed b).fd = c.fd := rfl

@[simp] theorem fd_served (c : Conn) (m : PollMask) (r : Results) : (c.served m r).fd = c.fd := by
  unfold Conn.served Conn.didRead
  split
  · split
    · split <;> rfl
    · rfl
    · simp
  · split <;> simp

/-- A connection waits to read or to write, not both. -/
theorem Settled.not_both (h : Settled c) {m : PollMask} (hm : Fits c m) (hin : m.pollin = true) :
    m.pollout = false := by
  have hread := hm.pollin hin
  rw [h.wantRead] at hread
  cases hout : m.pollout with
  | false => rfl
  | true =>
    have hwrite := hm.pollout hout
    rw [h.wantWrite, hread] at hwrite
    cases hwrite

/-- The end of the loop body: the connection is closed if it is to be. -/
theorem run_finish (hlookup : w.lookup c.fd.toNat = some p) (m : PollMask) :
    (do
      let c ← deref (some p)
      if m.pollerr || c.wantClose then
        syscall fun k => k.close c.fd
        let _ ← index c.fd
        modify fun w => { w with fd2conn := w.fd2conn.set c.fd.toNat none }
        delete (some p) : Handler Unit).run (w.put p c k) = .ok () (w.finish p m c k) := by
  have hindex : (index c.fd).run (w.put p c (k.close c.fd)) =
      .ok (some p) (w.put p c (k.close c.fd)) := run_index rfl hlookup
  have hdelete := run_delete (w := { w.put p c (k.close c.fd) with
    fd2conn := w.fd2conn.set c.fd.toNat none }) (put_heap (w := w) (p := p) (c := c)
      (k := k.close c.fd))
  unfold World.finish
  by_cases hclose : (m.pollerr || c.wantClose) = true
  · rw [if_pos hclose]
    simp only [EStateM.run_bind, run_deref_put, if_pos hclose, run_syscall_put, hindex,
      EStateM.run_modify]
    refine hdelete.trans ?_
    simp only [World.put, World.closed, Function.update_idem]
  · simp only [EStateM.run_bind, run_deref_put, if_neg hclose]
    rfl

/-- **A connection that is in order** passes its `assert`s. -/
theorem run_serveClient (h : Sound w) (hc : w.heap p = some c) {m : PollMask} (hm : Fits c m)
    (he : ¬ (m.pollin = true ∧ EndsEmpty c r.read)) :
    (serveClient c.fd m r).run w = .ok ()
      (if m.any then w.finish p m (c.served m r) (c.servedKernel w.kernel m r) else w) := by
  obtain ⟨-, hlookup⟩ := h.lookup_fd hc
  have hsettled := h.settled p c hc
  have hindex := run_index (w := w) rfl hlookup
  have hfinish := run_finish (c := c.served m r) (k := c.servedKernel w.kernel m r)
    ((fd_served c m r).symm ▸ hlookup) m
  unfold Conn.served Conn.servedKernel at hfinish ⊢
  have hput := put_self hc
  have hderef := run_deref hc
  cases hany : m.any with
  | false => simp [serveClient, hany]
  | true =>
    rw [serveClient]
    simp only [hany, Bool.not_true, Bool.false_eq_true, if_false, EStateM.run_bind, hindex, if_true]
    cases hin : m.pollin with
    | true =>
      have hout := hsettled.not_both hm hin
      have hread := run_handleRead (w := w) (p := p) (k := w.kernel) fun hend => he ⟨hin, hend⟩
      rw [hput] at hread
      rw [hin, if_pos rfl, if_pos rfl] at hfinish
      simp only [hout, if_true, if_false, Bool.false_eq_true, EStateM.run_bind, hderef,
        hm.pollin hin, Bool.not_true, hread]
      exact hfinish
    | false =>
      rw [hin] at hfinish
      cases hout : m.pollout with
      | true =>
        have hne : c.outgoing ≠ [] := by
          have hwrite := hm.pollout hout
          rw [hsettled.wantWrite] at hwrite
          simpa using hwrite
        have hwrite := run_handleWrite (w := w) (p := p) (k := w.kernel) hne r.write
        rw [hput] at hwrite
        simp only [hout, Bool.false_eq_true, if_false, if_true] at hfinish
        simp only [if_true, if_false, Bool.false_eq_true, EStateM.run_bind, hderef,
          hm.pollout hout, Bool.not_true, hwrite]
        exact hfinish
      | false =>
        simp only [hout, Bool.false_eq_true, if_false] at hfinish
        rw [hput] at hfinish
        simp only [if_false, Bool.false_eq_true, EStateM.run_bind]
        exact hfinish

/-! ### What it leaves -/

theorem Settled.wrote (hclose : c.wantClose = false) (hread : c.wantRead = false)
    (hwrite : c.wantWrite = true) {r : WriteResult} (hdone : (c.wrote r).wantClose = false) :
    Settled (c.wrote r) := by
  cases r with
  | error errno => cases hdone
  | wrote n =>
    rw [Conn.wrote]
    split
    · rename_i hlen
      have hnil := List.length_eq_zero_iff.mp hlen
      exact ⟨hclose, by simp [hnil], by simp [hnil]⟩
    · rename_i hlen
      have hne : (c.outgoing.drop (min n c.outgoing.length)).isEmpty = false := by
        rw [List.isEmpty_eq_false_iff]
        exact fun hnil => hlen (List.length_eq_zero_iff.mpr hnil)
      exact ⟨hclose, hread.trans hne.symm, by simp only [hwrite, hne, Bool.not_false]⟩

theorem Settled.didRead (h : Settled c) (hread : c.wantRead = true)
    (hdone : (c.didRead r).wantClose = false) : Settled (c.didRead r) := by
  revert hdone
  unfold Conn.didRead
  split
  · split
    · exact fun _ => h
    · exact fun hdone => by cases hdone
  · exact fun hdone => by cases hdone
  rename_i b _
  have hnil : c.outgoing = [] := by
    rw [h.wantRead] at hread
    exact List.isEmpty_iff.mp hread
  have hflags : (c.parsed b).stopped.wantRead = true ∧ (c.parsed b).stopped.wantWrite = false := by
    have hwrite := h.wantWrite
    rw [hnil] at hwrite
    unfold Conn.stopped
    split <;> exact ⟨hread, hwrite⟩
  intro hdone
  unfold Conn.turned at hdone ⊢
  split
  · rename_i hout
    rw [if_pos hout] at hdone
    exact ⟨hdone, by rw [hflags.1, hout]; rfl, by rw [hflags.2, hout]; rfl⟩
  · rename_i hout
    rw [if_neg hout] at hdone
    -- a write never takes the wish to close back
    have hclose : (c.parsed b).stopped.wantClose = false := by
      cases hr : r.writeNow with
      | error errno =>
        rw [hr] at hdone
        cases hdone
      | wrote n =>
        rw [hr, Conn.wrote] at hdone
        split at hdone <;> exact hdone
    refine Settled.wrote ?_ rfl rfl hdone
    exact hclose

/-- **The flags are in order again** when the connection is not to be closed. -/
theorem Settled.served (h : Settled c) {m : PollMask} (hm : Fits c m)
    (hdone : (c.served m r).wantClose = false) : Settled (c.served m r) := by
  unfold Conn.served at hdone ⊢
  split
  · rename_i hin
    rw [if_pos hin] at hdone
    exact h.didRead (hm.pollin hin) hdone
  rename_i hin
  rw [if_neg hin] at hdone
  split
  · rename_i hout
    rw [if_pos hout] at hdone
    have hwrite := hm.pollout hout
    have hread : c.wantRead = false := by
      rw [h.wantWrite] at hwrite
      rw [h.wantRead]
      simpa using hwrite
    exact .wrote h.wantClose hread hwrite hdone
  · exact h

/-- The handlers of a connection open and close nothing. -/
theorem servedKernel_descriptors (c : Conn) (k : Kernel) (m : PollMask) (r : Results) :
    (c.servedKernel k m r).isOpen = k.isOpen ∧ (c.servedKernel k m r).badCloses = k.badCloses := by
  have hwrite : ∀ (c : Conn) (k : Kernel) r, (c.writeKernel k r).isOpen = k.isOpen ∧
      (c.writeKernel k r).badCloses = k.badCloses := by
    intro c k r
    cases r <;> exact ⟨rfl, rfl⟩
  unfold Conn.servedKernel Conn.readKernel Conn.turnedKernel
  split
  · split
    · split
      · exact ⟨rfl, rfl⟩
      · exact hwrite ..
    · exact ⟨rfl, rfl⟩
  · split
    · exact hwrite ..
    · exact ⟨rfl, rfl⟩

theorem Sound.put (h : Sound w) (hc : w.heap p = some c) (hfd : d.fd = c.fd) (hd : Settled d)
    (hopen : k.isOpen = w.kernel.isOpen) (hbad : k.badCloses = w.kernel.badCloses) :
    Sound (w.put p d k) := by
  have hcases : ∀ q e, (w.put p d k).heap q = some e →
      q = p ∧ e = d ∨ q ≠ p ∧ w.heap q = some e := by
    intro q e he
    by_cases hq : q = p
    · subst hq
      exact .inl ⟨rfl, (Option.some.inj (put_heap.symm.trans he)).symm⟩
    · exact .inr ⟨hq, (put_heap_ne hq).symm.trans he⟩
  -- the descriptors on the heap are as before
  have hfds : ∀ q e, (w.put p d k).heap q = some e → ∃ e', w.heap q = some e' ∧ e.fd = e'.fd := by
    intro q e he
    rcases hcases q e he with ⟨rfl, rfl⟩ | ⟨-, he⟩
    · exact ⟨c, hc, hfd⟩
    · exact ⟨e, he, rfl⟩
  have hfds' : ∀ q e, w.heap q = some e → ∃ e', (w.put p d k).heap q = some e' ∧ e'.fd = e.fd := by
    intro q e he
    by_cases hq : q = p
    · subst hq
      obtain rfl := Option.some.inj (hc.symm.trans he)
      exact ⟨d, put_heap, hfd⟩
    · exact ⟨e, (put_heap_ne hq).trans he, rfl⟩
  constructor
  · intro n q hq
    obtain ⟨e, he, hn⟩ := h.entry n q hq
    obtain ⟨e', he', hfd'⟩ := hfds' q e he
    exact ⟨e', he', hn.trans hfd'.symm⟩
  · intro q e he
    obtain ⟨e', he', hfd'⟩ := hfds q e he
    obtain ⟨n, hn, hlookup⟩ := h.owned q e' he'
    exact ⟨n, hn.trans hfd'.symm, hlookup⟩
  · intro fd
    change k.isOpen fd = true ↔ _
    rw [hopen, h.isOpen]
    refine or_congr_right ⟨?_, ?_⟩
    · rintro ⟨q, e, he, rfl⟩
      obtain ⟨e', he', hfd'⟩ := hfds' q e he
      exact ⟨q, e', he', hfd'⟩
    · rintro ⟨q, e, he, rfl⟩
      obtain ⟨e', he', hfd'⟩ := hfds q e he
      exact ⟨q, e', he', hfd'.symm⟩
  · intro q e he
    obtain ⟨e', he', hfd'⟩ := hfds q e he
    rw [hfd']
    exact h.server q e' he'
  · intro q e he
    rcases hcases q e he with ⟨rfl, rfl⟩ | ⟨-, he⟩
    · exact hd
    · exact h.settled q e he
  · exact hbad.trans h.badCloses

theorem lookup_closed (w : World) (p : Addr) (fd : Fd) (k : Kernel) (n : ℕ) :
    (w.closed p fd k).lookup n = if n = fd.toNat then none else w.lookup n := by
  change ((w.fd2conn.set fd.toNat none)[n]?).join = _
  by_cases hn : n = fd.toNat
  · subst hn
    rw [if_pos rfl, List.getElem?_set]
    split <;> rename_i hlen
    · split <;> rfl
    · exact absurd rfl hlen
  · rw [if_neg hn, List.getElem?_set_ne (Ne.symm hn), World.lookup]

theorem Sound.closed (h : Sound w) (hc : w.heap p = some c)
    (hopen : k.isOpen = w.kernel.isOpen) (hbad : k.badCloses = w.kernel.badCloses) :
    Sound (w.closed p c.fd k) := by
  obtain ⟨h0, hlookup⟩ := h.lookup_fd hc
  have hisOpen : w.kernel.isOpen c.fd = true := (h.isOpen c.fd).mpr (.inr ⟨p, c, hc, rfl⟩)
  have hclose : k.close c.fd = { k with
      isOpen := Function.update k.isOpen c.fd false
      interest := Function.update k.interest c.fd none } := by
    rw [Kernel.close, if_pos (by rw [hopen, hisOpen])]
  have hheap : ∀ q e, (w.closed p c.fd k).heap q = some e ↔ q ≠ p ∧ w.heap q = some e := by
    intro q e
    change Function.update w.heap p none q = some e ↔ _
    rw [Function.update_apply]
    split <;> simp [*]
  have hne : ∀ q e, q ≠ p → w.heap q = some e → e.fd ≠ c.fd :=
    fun q e hq he hfd => hq (h.eq_of_fd he hc hfd)
  constructor
  · intro n q hq
    rw [lookup_closed] at hq
    split at hq
    · cases hq
    rename_i hn
    obtain ⟨e, he, hfd⟩ := h.entry n q hq
    refine ⟨e, (hheap q e).mpr ⟨?_, he⟩, hfd⟩
    rintro rfl
    obtain rfl := Option.some.inj (hc.symm.trans he)
    exact hn (by rw [← hfd, Int.toNat_natCast])
  · intro q e he
    obtain ⟨hq, he⟩ := (hheap q e).mp he
    obtain ⟨n, hn, hlookup'⟩ := h.owned q e he
    refine ⟨n, hn, (lookup_closed ..).trans ((if_neg ?_).trans hlookup')⟩
    rintro rfl
    rw [Int.toNat_of_nonneg h0] at hn
    exact hne q e hq he hn.symm
  · intro fd
    change (k.close c.fd).isOpen fd = true ↔ fd = w.serverFd ∨ _
    rw [hclose]
    change Function.update k.isOpen c.fd false fd = true ↔ _
    rw [Function.update_apply]
    split
    · rename_i hfd
      refine iff_of_false Bool.false_ne_true ?_
      rintro (rfl | ⟨q, e, he, rfl⟩)
      · exact h.server p c hc hfd.symm
      · obtain ⟨hq, he⟩ := (hheap q e).mp he
        exact hne q e hq he hfd
    · rename_i hfd
      rw [hopen, h.isOpen]
      refine or_congr_right ⟨?_, ?_⟩
      · rintro ⟨q, e, he, rfl⟩
        refine ⟨q, e, (hheap q e).mpr ⟨?_, he⟩, rfl⟩
        rintro rfl
        exact hfd (congrArg Conn.fd (Option.some.inj (he.symm.trans hc)))
      · rintro ⟨q, e, he, rfl⟩
        exact ⟨q, e, ((hheap q e).mp he).2, rfl⟩
  · exact fun q e he => h.server q e ((hheap q e).mp he).2
  · exact fun q e he => h.settled q e ((hheap q e).mp he).2
  · change (k.close c.fd).badCloses = 0
    rw [hclose]
    exact hbad.trans h.badCloses

/-- **Serving a connection** keeps everything in order. -/
theorem Sound.finish (h : Sound w) (hc : w.heap p = some c) {m : PollMask} (hm : Fits c m)
    (r : Results) : Sound (w.finish p m (c.served m r) (c.servedKernel w.kernel m r)) := by
  obtain ⟨hopen, hbad⟩ := servedKernel_descriptors c w.kernel m r
  unfold World.finish
  split
  · rw [fd_served]
    exact h.closed hc hopen hbad
  · rename_i hclose
    have hdone : (c.served m r).wantClose = false := by
      cases hd : (c.served m r).wantClose with
      | false => rfl
      | true => simp [hd] at hclose
    exact h.put hc (fd_served c m r) ((h.settled p c hc).served hm hdone) hopen hbad

/-- The other connections are left alone. -/
theorem heap_finish_ne (hq : q ≠ p) (m : PollMask) (c : Conn) (k : Kernel) :
    (w.finish p m c k).heap q = w.heap q := by
  unfold World.finish
  split <;> exact Function.update_of_ne hq ..

/-! ## Runs -/

/-- The world before the loop. -/
def World.init (serverFd : Fd) : World where
  serverFd := serverFd
  heap := fun _ => none
  fd2conn := []
  kernel := (Optimized.World.setup serverFd).kernel

/-- What `poll` may set in the `revents` of an entry: what is asked for, and errors. -/
structure Reported (a : Pollfd) (p : Fd × PollMask) : Prop where
  fd : p.1 = a.fd
  pollin : p.2.pollin = true → a.events.pollin = true
  pollout : p.2.pollout = true → a.events.pollout = true

/-- What `poll` may report: nothing if it was interrupted, else something for every entry of
`poll_args`. -/
def PollReports (w : World) (batch : List Event) : Prop :=
  batch = [] ∨ ∃ listener args m clients, pollArgs.run w = .ok (listener :: args) w ∧
    batch = .listener m :: clients.map (fun p => .client p.1 p.2) ∧
    List.Forall₂ Reported args clients

/-- The runs of the loop that have not ended by a fault. -/
abbrev PollRun (serverFd : Fd) (w : World) (events : List Event) : Prop :=
  BatchRun PollReports (fun w event w' =>
    ∃ r : Results, r.Allowed w ∧ (serve event r).run w = .ok () w') (World.init serverFd) w events

/-- The descriptor of a connection that is served. -/
def Event.clientFd : Event → Option Fd
  | .listener _ => none
  | .client fd _ => some fd

/-- **What was reported of the descriptors still to be served**: each comes once, belongs to a
connection, and its connection still waits for what was reported. -/
structure Pending (w : World) (events : List Event) : Prop where
  distinct : (events.filterMap Event.clientFd).Nodup
  found : ∀ fd m, Event.client fd m ∈ events →
    ∃ p c, w.heap p = some c ∧ c.fd = fd ∧ Fits c m

theorem sound_init (serverFd : Fd) : Sound (World.init serverFd) where
  entry n p h := by simp [World.init, World.lookup] at h
  owned p c h := by cases h
  isOpen fd := by simp [World.init, Optimized.World.setup]
  server p c h := by cases h
  settled p c h := by cases h
  badCloses := rfl

theorem Reported.all {args : List Pollfd} {clients : List (Fd × PollMask)}
    (h : List.Forall₂ Reported args clients) : clients.map Prod.fst = args.map Pollfd.fd ∧
      ∀ p ∈ clients, ∃ a ∈ args, Reported a p := by
  induction h with
  | nil => simp
  | @cons a p args clients ha _ ih =>
    obtain ⟨hfds, hall⟩ := ih
    refine ⟨by rw [List.map_cons, List.map_cons, ha.fd, hfds], ?_⟩
    refine List.forall_mem_cons.mpr ⟨⟨a, List.mem_cons_self, ha⟩, fun q hq => ?_⟩
    obtain ⟨b, hb, hq⟩ := hall q hq
    exact ⟨b, List.mem_cons_of_mem _ hb, hq⟩

/-- What `poll` reports fits the connections. -/
theorem Sound.pending (h : Sound w) {batch : List Event} (hb : PollReports w batch) :
    Pending w batch := by
  rcases hb with rfl | ⟨listener, args, m, clients, hrun, rfl, hall⟩
  · exact ⟨by simp, by simp⟩
  obtain ⟨args', hrun', hpair, hargs, -⟩ := h.run_pollArgs
  obtain ⟨hhead, -⟩ := EStateM.Result.ok.inj (hrun.symm.trans hrun')
  obtain ⟨-, rfl⟩ := List.cons.inj hhead
  obtain ⟨hfds, hreported⟩ := Reported.all hall
  have hclients : (Event.listener m :: clients.map fun p => Event.client p.1 p.2).filterMap
      Event.clientFd = args.map Pollfd.fd := by
    rw [List.filterMap_cons_none rfl, List.filterMap_map, ← hfds]
    exact congrFun List.filterMap_eq_map clients
  refine ⟨?_, fun fd m' hmem => ?_⟩
  · rw [hclients]
    exact hpair.imp fun hlt => hlt.ne
  · have hmem' : (fd, m') ∈ clients := by simpa using hmem
    obtain ⟨a, ha, hfd, hin, hout⟩ := hreported _ hmem'
    obtain ⟨p, c, hc, rfl⟩ := hargs a ha
    exact ⟨p, c, hc, hfd.symm, hin, hout⟩

/-- Serving an event spoils what was reported for its own descriptor only. -/
theorem Pending.tail {e : Event} {es : List Event} (h : Pending w (e :: es))
    (hkeep : ∀ p c, w.heap p = some c → e.clientFd ≠ some c.fd → w'.heap p = some c) :
    Pending w' es := by
  have hsub : (es.filterMap Event.clientFd).Nodup := by
    refine h.distinct.sublist ?_
    exact (List.sublist_cons_self e es).filterMap _
  refine ⟨hsub, fun fd m hmem => ?_⟩
  obtain ⟨p, c, hc, hfd, hfits⟩ := h.found fd m (List.mem_cons_of_mem _ hmem)
  refine ⟨p, c, hkeep p c hc fun he => ?_, hfd, hfits⟩
  have hdistinct := h.distinct
  rw [List.filterMap_cons_some he, List.nodup_cons] at hdistinct
  exact hdistinct.1 (List.mem_filterMap.mpr ⟨_, hmem, by rw [hfd]; rfl⟩)

/-- The handlers of a read event meet an empty frame at the end of the buffer. -/
def MeetsEmptyEnd (w : World) (event : Event) (r : Results) : Prop :=
  ∃ fd m p c, event = .client fd m ∧ w.heap p = some c ∧ c.fd = fd ∧ m.pollin = true ∧
    EndsEmpty c r.read

/-- **The next event is served**, unless an empty frame ends the buffer, and leaves the other
connections alone. -/
theorem serve_ok {e : Event} {es : List Event} (h : Sound w) (hp : Pending w (e :: es))
    (ha : r.Allowed w) (he : ¬ MeetsEmptyEnd w e r) : ∃ w', (serve e r).run w = .ok () w' ∧
      Sound w' ∧ Pending w' es := by
  cases e with
  | listener m =>
    refine ⟨_, run_serveListener h ha m, ?_⟩
    split
    · rename_i hr
      obtain ⟨h0, ho⟩ := ha.accept hr.2
      refine ⟨h.entered h0 ho ha.addr, hp.tail fun q d hd _ => ?_⟩
      have hne : q ≠ r.addr := by
        rintro rfl
        rw [ha.addr] at hd
        cases hd
      exact (heap_entered ..).trans ((if_neg hne).trans hd)
    · exact ⟨h, hp.tail fun _ _ hd _ => hd⟩
  | client fd m =>
    obtain ⟨p, c, hc, rfl, hfits⟩ := hp.found _ m List.mem_cons_self
    refine ⟨_, run_serveClient h hc hfits fun hend => he ⟨_, m, p, c, rfl, hc, rfl, hend⟩, ?_⟩
    split
    · refine ⟨h.finish hc hfits r, hp.tail fun q d hd hne => ?_⟩
      have hqp : q ≠ p := by
        rintro rfl
        obtain rfl := Option.some.inj (hc.symm.trans hd)
        exact hne rfl
      exact (heap_finish_ne hqp ..).trans hd
    · exact ⟨h, hp.tail fun _ _ hd _ => hd⟩

/-- The one fault. -/
theorem serve_emptyEnd {e : Event} {es : List Event} (h : Sound w) (hp : Pending w (e :: es))
    (he : MeetsEmptyEnd w e r) : ∃ w', (serve e r).run w = .error .outOfRange w' := by
  obtain ⟨_, m, p, c, rfl, hc, rfl, hin, hend⟩ := he
  obtain ⟨q, d, hd, hfd, hfits⟩ := hp.found _ m List.mem_cons_self
  obtain rfl := h.eq_of_fd hd hc hfd
  obtain rfl := Option.some.inj (hd.symm.trans hc)
  obtain ⟨-, hlookup⟩ := h.lookup_fd hd
  obtain ⟨w', hread⟩ := run_handleRead_endsEmpty (w := w) (p := q) (k := w.kernel) hend
  rw [put_self hd] at hread
  have hany : m.any = true := by simp [PollMask.any, hin]
  refine ⟨w', ?_⟩
  simp only [serve, serveClient, hany, hin, hfits.pollin hin, Bool.not_true, Bool.false_eq_true,
    if_false, if_true, EStateM.run_bind, run_index (w := w) rfl hlookup, run_deref hd, hread]

/-- **When the next event ends in a fault.** -/
theorem fault_iff {e : Event} {es : List Event} (h : Sound w) (hp : Pending w (e :: es))
    (ha : r.Allowed w) :
    (∀ fault w', (serve e r).run w = .error fault w' → fault = .outOfRange) ∧
      ((∃ w', (serve e r).run w = .error .outOfRange w') ↔ MeetsEmptyEnd w e r) := by
  by_cases he : MeetsEmptyEnd w e r
  · obtain ⟨w', herror⟩ := serve_emptyEnd h hp he
    refine ⟨fun fault w'' hrun => ?_, iff_of_true ⟨w', herror⟩ he⟩
    exact (EStateM.Result.error.inj (hrun.symm.trans herror)).1
  · obtain ⟨w', hok, -⟩ := serve_ok h hp ha he
    refine ⟨fun fault w'' hrun => ?_, iff_of_false ?_ he⟩
    · cases hok.symm.trans hrun
    · rintro ⟨w'', hrun⟩
      cases hok.symm.trans hrun

section

variable {serverFd : Fd} {events : List Event}

theorem sound_of_run (h : PollRun serverFd w events) : Sound w ∧ Pending w events := by
  induction h with
  | start => exact ⟨sound_init serverFd, by simp, by simp⟩
  | wait _ hb ih => exact ⟨ih.1, ih.1.pending hb⟩
  | @serve w e es w' hr hs ih =>
    obtain ⟨hsound, hpending⟩ := ih
    obtain ⟨r, ha, hrun⟩ := hs
    have he : ¬ MeetsEmptyEnd w e r := by
      intro he
      obtain ⟨w', herror⟩ := serve_emptyEnd hsound hpending he
      cases hrun.symm.trans herror
    obtain ⟨w', hok, hafter⟩ := serve_ok hsound hpending ha he
    obtain ⟨-, rfl⟩ := EStateM.Result.ok.inj (hok.symm.trans hrun)
    exact hafter

/-- **No `assert` fails and no pointer is null or dangling**, in any run. The loop can always fill
`poll_args`, with the listening socket first and every connection once; the next descriptor is then
served, and the only way in which this can fail is that an empty frame ends a buffer. -/
theorem safe_of_run (h : PollRun serverFd w events) :
    (∃ args, pollArgs.run w = .ok (⟨w.serverFd, ⟨true, false, false, false⟩⟩ :: args) w ∧
      (args.map Pollfd.fd).Pairwise (· < ·) ∧
        ∀ a, a ∈ args ↔ ∃ p c, w.heap p = some c ∧ a = c.pollfd) ∧
      ∀ event rest, events = event :: rest → ∀ r : Results, r.Allowed w →
        (∀ fault w', (serve event r).run w = .error fault w' → fault = .outOfRange) ∧
          ((∃ w', (serve event r).run w = .error .outOfRange w') ↔ MeetsEmptyEnd w event r) := by
  obtain ⟨hsound, hpending⟩ := sound_of_run h
  constructor
  · obtain ⟨args, hrun, hpair, hargs, hall⟩ := hsound.run_pollArgs
    refine ⟨args, hrun, hpair, fun a => ⟨hargs a, ?_⟩⟩
    rintro ⟨p, c, hc, rfl⟩
    exact hall p c hc
  · rintro event rest rfl r ha
    exact fault_iff hsound hpending ha

/-- Nothing is called, or what is called fails. -/
def Results.again : Results := ⟨-1, 0, 0, .error .EAGAIN, .error .EAGAIN, .error .EAGAIN⟩

/-- A client is accepted as descriptor 7, and the connection is put at the address 100. -/
def Results.accepted : Results := { Results.again with accept := 7, addr := 100 }

theorem allowed_accepted : Results.accepted.Allowed (World.init 3) where
  accept _ := ⟨by decide, rfl⟩
  addr := rfl
  read b h := by cases h

theorem allowed_again (w : World) (h : w.heap 0 = none) : Results.again.Allowed w where
  accept h := absurd rfl h
  addr := h
  read b h := by cases h

/-- The client was accepted, and there is something to read from it. -/
theorem pollRun_readable :
    PollRun 3 ((World.init 3).entered 7 100) [.client 7 ⟨true, false, false, false⟩] := by
  have hinit : PollRun 3 (World.init 3) [.listener ⟨true, false, false, false⟩] :=
    .wait .start (.inr ⟨_, [], _, [], rfl, rfl, .nil⟩)
  have haccept : PollRun 3 ((World.init 3).entered 7 100) [] :=
    .serve hinit ⟨_, allowed_accepted, rfl⟩
  refine .serve (e := .listener ⟨false, false, false, false⟩) (.wait haccept (.inr ?_))
    ⟨_, allowed_again _ rfl, rfl⟩
  exact ⟨_, [_], _, [(7, ⟨true, false, false, false⟩)], rfl, rfl,
    .cons ⟨rfl, fun _ => rfl, fun h => by cases h⟩ .nil⟩

/-- The header of an empty frame arrives, and nothing behind it. -/
def Results.emptyFrame : Results := { Results.again with read := .bytes [0, 0, 0, 0] }

theorem allowed_emptyFrame : Results.emptyFrame.Allowed ((World.init 3).entered 7 100) := by
  refine ⟨fun h => absurd rfl h, rfl, fun b hb => ?_⟩
  obtain rfl := ReadResult.bytes.inj hb
  exact ⟨by simp, by simp [readBufferSize]⟩

theorem safe_of_readable_run :
    (∃ args, pollArgs.run ((World.init 3).entered 7 100) =
      .ok (⟨3, ⟨true, false, false, false⟩⟩ :: args) ((World.init 3).entered 7 100) ∧
        ⟨7, ⟨true, false, true, false⟩⟩ ∈ args) ∧
      ∃ w', (serve (.client 7 ⟨true, false, false, false⟩) .emptyFrame).run
        ((World.init 3).entered 7 100) = .error .outOfRange w' := by
  obtain ⟨⟨args, hrun, -, hall⟩, hnext⟩ := safe_of_run pollRun_readable
  have hconn : ((World.init 3).entered 7 100).heap 100 = some ⟨7, true, false, false, [], []⟩ :=
    (heap_entered _ 7 100 100).trans (if_pos rfl)
  refine ⟨⟨args, hrun, (hall _).mpr ⟨100, _, hconn, rfl⟩⟩, ?_⟩
  exact (hnext _ _ rfl _ allowed_emptyFrame).2.mpr
    ⟨7, _, 100, _, rfl, hconn, rfl, rfl, _, rfl, by decide⟩

/-- **The heap, the vector, the descriptors and the flags** in every state of every run: a pointer
stands in the vector at the descriptor of its connection, and every connection has one; the open
descriptors are those of the connections and the server's; no `close` ever hit another. A connection
waits to read if it has nothing to send, else to write, and none is left that is to be closed. -/
theorem connections_of_run (h : PollRun serverFd w events) :
    (∀ n p, w.lookup n = some p ↔ ∃ c, w.heap p = some c ∧ (n : ℤ) = c.fd) ∧
      (∀ fd, w.kernel.isOpen fd = true ↔
        fd = w.serverFd ∨ ∃ p c, w.heap p = some c ∧ c.fd = fd) ∧
      w.kernel.badCloses = 0 ∧
      ∀ p c, w.heap p = some c → c.fd ≠ w.serverFd ∧ c.wantClose = false ∧
        c.wantRead = c.outgoing.isEmpty ∧ c.wantWrite = !c.outgoing.isEmpty := by
  obtain ⟨hsound, -⟩ := sound_of_run h
  refine ⟨fun n p => ⟨hsound.entry n p, ?_⟩, hsound.isOpen, hsound.badCloses, fun p c hc => ?_⟩
  · rintro ⟨c, hc, hn⟩
    obtain ⟨m, hm, hlookup⟩ := hsound.owned p c hc
    rwa [Int.natCast_inj.mp (hn.trans hm.symm)]
  · obtain ⟨hclose, hread, hwrite⟩ := hsound.settled p c hc
    exact ⟨hsound.server p c hc, hclose, hread, hwrite⟩

theorem connections_of_readable_run :
    ((World.init 3).entered 7 100).lookup 7 = some 100 ∧
      ((World.init 3).entered 7 100).kernel.badCloses = 0 := by
  obtain ⟨hlookup, -, hbad, -⟩ := connections_of_run pollRun_readable
  exact ⟨(hlookup 7 100).mpr ⟨_, (heap_entered _ 7 100 100).trans (if_pos rfl), rfl⟩, hbad⟩

end

end Byor.PollServer
