import Byor.EventLoop.Ideal
import Byor.PollServer.Safety

/-!
# The poll-based echo server is the echo service

The server of the archive and the one that replaced it do the same for their clients: `World.view`
forgets the addresses and the flags, and what is left is explained by `echoService`.

* `drain_pollDecoder`: the frames the two servers take off a buffer are the same where the older one
  does not fault.
* `serves_of_run`: its replies and buffers in every run.
* `faults_iff_of_run`: the bytes of a client with which it faults.
-/

namespace Byor.PollServer

open Wire
open Optimized (Fd Bytes Kernel ReadResult WriteResult Errno lenFieldSize Explained IsClient
  SysResults)
open EventLoop (echoDecoder echoBytes echoService noStore execAll_echoService owed_echoService)

/-! ## The frames that are taken -/

theorem next_echo_of_next {xs rest : Bytes} {f : Record Unit}
    (h : pollDecoder.next xs = some (f, rest)) :
    ¬ EmptyFrame xs ∧ echoDecoder.next xs = some (f, rest) := by
  change (if EmptyFrame xs then none else echoDecoder.next xs) = _ at h
  split at h
  · cases h
  · exact ⟨‹_›, h⟩

theorem takes_echo {xs r : Bytes} {fs : List (Record Unit)} (h : pollDecoder.Takes xs fs r) :
    echoDecoder.Takes xs fs r := by
  induction h with
  | nil => exact .nil _
  | cons h _ ih => exact .cons (next_echo_of_next h).2 ih

/-- **The frames are those of the later server** if no empty one is left. -/
theorem drain_pollDecoder {xs : Bytes} (he : ¬ EmptyFrame (pollDecoder.drain xs).2) :
    pollDecoder.drain xs = echoDecoder.drain xs := by
  refine (echoDecoder.drain_eq_of_takes (takes_echo (pollDecoder.takes_drain xs)) ?_).symm
  have hnone := pollDecoder.next_drain xs
  change (if EmptyFrame _ then none else echoDecoder.next _) = none at hnone
  rwa [if_neg he] at hnone

/-- An empty frame. -/
theorem next_emptyFrame {xs : Bytes} (h : EmptyFrame xs) :
    echoDecoder.next xs = some (⟨[], ()⟩, []) := by
  obtain ⟨hlen, hdata⟩ := h
  have hs : Optimized.StartsComplete xs := ⟨hlen.ge, by rw [hdata]; exact Nat.zero_le _, by omega⟩
  rw [EventLoop.next_echo_of_startsComplete hs, Optimized.headPayload, hdata, Nat.add_zero,
    ← hlen, List.drop_length]
  rfl

theorem emptyFrame_of_next {xs : Bytes} (h : echoDecoder.next xs = some (⟨[], ()⟩, [])) :
    EmptyFrame xs := by
  have hs := EventLoop.startsComplete_of_next_echo h
  rw [EventLoop.next_echo_of_startsComplete hs] at h
  obtain ⟨hpayload, hrest⟩ := Prod.mk.inj (Option.some.inj h)
  have hdata : Optimized.dataLen xs = 0 := by
    rw [← hs.length_headPayload]
    exact congrArg (fun f => f.payload.length) hpayload
  rw [hdata, List.drop_eq_nil_iff] at hrest
  exact ⟨Nat.le_antisymm hrest hs.1, hdata⟩

/-- **What ends in an empty frame**: frames, the last of which is empty, and nothing else. -/
theorem emptyFrame_drain_iff (xs : Bytes) : EmptyFrame (pollDecoder.drain xs).2 ↔
    ∃ fs, echoDecoder.drain xs = (fs ++ [⟨[], ()⟩], []) := by
  have htakes := takes_echo (pollDecoder.takes_drain xs)
  constructor
  · intro h
    refine ⟨_, echoDecoder.drain_eq_of_takes (htakes.trans ?_) rfl⟩
    exact .cons (next_emptyFrame h) (.nil [])
  · rintro ⟨fs, hdrain⟩
    by_contra he
    -- then the two take the same frames, also the last one
    have hpoll := pollDecoder.takes_drain xs
    rw [drain_pollDecoder he, hdrain] at hpoll
    have hlast : ∀ ys, ¬ pollDecoder.Takes ys (fs ++ [⟨[], ()⟩]) [] := by
      clear hdrain hpoll he htakes
      induction fs with
      | nil =>
        rintro ys (_ | ⟨hn, hs⟩)
        cases hs
        obtain ⟨hne, hn⟩ := next_echo_of_next hn
        exact hne (emptyFrame_of_next hn)
      | cons f fs ih =>
        rintro ys (_ | ⟨-, hs⟩)
        exact ih _ hs
    exact hlast xs hpoll

/-! ## What the clients see -/

/-- The buffers of a connection. -/
def Conn.buffers (c : Conn) : Optimized.Connection := ⟨c.fd, c.incoming, c.outgoing⟩

/-- **The world without the addresses and the flags**: the buffers of the connections by their
descriptors, and the kernel. -/
def World.view (w : World) : Optimized.World where
  serverFd := w.serverFd
  gData := Optimized.Store.empty
  connections fd :=
    if 0 ≤ fd then ((w.lookup fd.toNat).bind w.heap).map Conn.buffers else none
  kernel := w.kernel
  executed := []

variable {w w' : World} {p : Addr} {c d : Conn} {k : Kernel} {r : Results}
  {arr : List (ℕ × UInt8)}

theorem view_connections_iff (w : World) (fd : Fd) (b : Optimized.Connection) :
    w.view.connections fd = some b ↔
      ∃ p c, 0 ≤ fd ∧ w.lookup fd.toNat = some p ∧ w.heap p = some c ∧ c.buffers = b := by
  change (if 0 ≤ fd then ((w.lookup fd.toNat).bind w.heap).map Conn.buffers else none) = _ ↔ _
  split
  · rename_i h0
    simp [Option.map_eq_some_iff, Option.bind_eq_some_iff, h0]
  · rename_i h0
    simp [h0]

/-- The connections in the view are those on the heap. -/
theorem Sound.view_connections (h : Sound w) (hc : w.heap p = some c) :
    w.view.connections c.fd = some c.buffers := by
  obtain ⟨h0, hlookup⟩ := h.lookup_fd hc
  exact (view_connections_iff w c.fd _).mpr ⟨p, c, h0, hlookup, hc, rfl⟩

theorem Sound.isClient (h : Sound w) (hc : w.heap p = some c) :
    IsClient w.view c.fd c.buffers :=
  ⟨h.server p c hc, h.view_connections hc⟩

/-- A connection that is replaced. -/
theorem Sound.view_put (h : Sound w) (hc : w.heap p = some c) (d : Conn) (k : Kernel) :
    (w.put p d k).view.connections =
      Function.update w.view.connections c.fd (some d.buffers) := by
  obtain ⟨h0, hlookup⟩ := h.lookup_fd hc
  funext fd
  rw [Function.update_apply]
  split
  · rename_i he
    subst he
    exact (view_connections_iff _ _ _).mpr ⟨p, d, h0, hlookup, put_heap, rfl⟩
  · rename_i he
    apply Option.ext
    intro b
    rw [view_connections_iff, view_connections_iff]
    -- no other descriptor leads to this address
    have hne : ∀ q, 0 ≤ fd → w.lookup fd.toNat = some q → q ≠ p := by
      rintro q h0' hq rfl
      obtain ⟨e, he', hn⟩ := h.entry _ q hq
      obtain rfl := Option.some.inj (hc.symm.trans he')
      rw [Int.toNat_of_nonneg h0'] at hn
      exact he hn
    constructor
    · rintro ⟨q, e, h0', hq, he', hb⟩
      exact ⟨q, e, h0', hq, (put_heap_ne (hne q h0' hq)).symm.trans he', hb⟩
    · rintro ⟨q, e, h0', hq, he', hb⟩
      exact ⟨q, e, h0', hq, (put_heap_ne (hne q h0' hq)).trans he', hb⟩

/-- What the clients see is what the echo service does. -/
abbrev Echoing (w : World) (arr : List (ℕ × UInt8)) : Prop :=
  Explained echoService noStore w.view arr

/-- The flags of a connection are not seen. -/
theorem Sound.echoing_flags (h : Sound w) (hc : w.heap p = some c) {d' : Conn}
    (he : Echoing (w.put p d k) arr) (hd : d'.buffers = d.buffers) :
    Echoing (w.put p d' k) arr := by
  have hview : (w.put p d' k).view.connections = (w.put p d k).view.connections := by
    rw [h.view_put hc, h.view_put hc, hd]
  refine he.of_streams (fun fd e hclient => ⟨⟨hclient.1, ?_⟩, rfl⟩) rfl rfl (Nat.le_refl _) rfl rfl
  exact hview ▸ hclient.2

/-- The kernel takes bytes from the front of the outgoing buffer. -/
theorem Sound.echoing_wrote (h : Sound w) (hc : w.heap p = some c) (hfd : d.fd = c.fd)
    (he : Echoing (w.put p d k) arr) (r : WriteResult) :
    Echoing (w.put p (d.wrote r) (d.writeKernel k r)) arr := by
  have hclient : IsClient (w.put p d k).view c.fd d.buffers := by
    refine ⟨h.server p c hc, ?_⟩
    rw [h.view_put hc]
    exact Function.update_self ..
  have hview : ∀ d', (w.put p d' (d.writeKernel k r)).view.connections =
      Function.update (w.put p d k).view.connections c.fd (some d'.buffers) := by
    intro d'
    rw [h.view_put hc, h.view_put hc, Function.update_idem]
  cases r with
  | error errno =>
    refine he.send hclient [] _ d.buffers rfl (hview _) ?_ rfl rfl rfl rfl
    simp [World.view, World.put, Conn.writeKernel, Kernel.write]
  | wrote n =>
    refine he.send hclient (d.outgoing.take (min n d.outgoing.length)) _
      (d.wrote (.wrote n)).buffers rfl (hview _) ?_ rfl rfl ?_ ?_
    · rw [← hfd]
      rfl
    · rw [Conn.wrote]
      split <;> rfl
    · rw [Conn.wrote]
      split <;> exact (List.take_append_drop ..).symm

/-- **Bytes are read** and the frames that are complete now are sent back. -/
theorem Sound.echoing_parsed (h : Sound w) (hc : w.heap p = some c) {b : Bytes}
    (hend : ¬ EmptyFrame (c.parsed b).incoming) (he : Echoing w arr) :
    Echoing (w.put p (c.parsed b).stopped (w.kernel.read c.fd (.bytes b)))
      (arr ++ w.kernel.arrivals (w.kernel.read c.fd (.bytes b))) := by
  have hdrain := drain_pollDecoder hend
  have hbuffers : (c.parsed b).stopped.buffers = ⟨c.fd,
      (echoDecoder.drain (c.incoming ++ b)).2,
      c.outgoing ++ echoBytes (echoDecoder.drain (c.incoming ++ b)).1⟩ := by
    rw [← hdrain, Conn.stopped]
    split <;> rfl
  refine he.receive (h.isClient hc) b _ _ rfl (h.view_put hc _ _) rfl ?_ ?_ rfl
  · rw [hbuffers]
    rfl
  · rw [hbuffers, execAll_echoService]
    rfl

theorem writeKernel_received (c : Conn) (k : Kernel) (r : WriteResult) :
    (c.writeKernel k r).received = k.received := by
  cases r <;> rfl

/-- **The handlers of a connection** do what the service does with what was read. -/
theorem Sound.echoing_served (h : Sound w) (hc : w.heap p = some c) {m : PollMask}
    (hend : ¬ (m.pollin = true ∧ EndsEmpty c r.read)) (he : Echoing w arr) :
    Echoing (w.put p (c.served m r) (c.servedKernel w.kernel m r))
      (arr ++ w.kernel.arrivals (c.servedKernel w.kernel m r)) := by
  have hself : Echoing (w.put p c w.kernel) (arr ++ w.kernel.arrivals w.kernel) := by
    have hnil : w.kernel.arrivals w.kernel = [] := Optimized.arrivals_self w.view
    rwa [put_self hc, hnil, List.append_nil]
  have hwrote : ∀ {d : Conn} {k : Kernel} (r : WriteResult), d.fd = c.fd →
      Echoing (w.put p d k) (arr ++ w.kernel.arrivals k) →
        Echoing (w.put p (d.wrote r) (d.writeKernel k r))
          (arr ++ w.kernel.arrivals (d.writeKernel k r)) := by
    intro d k r hfd hput
    have hsame : w.kernel.arrivals (d.writeKernel k r) = w.kernel.arrivals k := by
      simp only [Kernel.arrivals, writeKernel_received]
    rw [hsame]
    exact h.echoing_wrote hc hfd hput r
  unfold Conn.served Conn.servedKernel
  split
  · rename_i hin
    unfold Conn.didRead Conn.readKernel
    cases hr : r.read with
    | eof => exact h.echoing_flags hc hself rfl
    | error errno =>
      simp only
      split
      · exact hself
      · exact h.echoing_flags hc hself rfl
    | bytes b =>
      have hparsed := h.echoing_parsed hc (fun hempty => hend ⟨hin, b, hr, hempty⟩) he
      simp only [Conn.turned, Conn.turnedKernel]
      split
      · exact hparsed
      · exact hwrote (d := { (c.parsed b).stopped with wantRead := false, wantWrite := true })
          r.writeNow (fd_stopped _) (h.echoing_flags hc hparsed rfl)
  · split
    · exact hwrote r.write rfl hself
    · exact hself

/-- A connection is closed. -/
theorem echoing_closed (he : Echoing (w.put p d k) arr) : Echoing (w.closed p d.fd k) arr := by
  obtain ⟨hsock, hacc, hreceived, hwritten⟩ := Optimized.close_streams k d.fd
  refine he.of_streams (fun fd b hclient => ⟨⟨hclient.1, ?_⟩, congrFun hsock fd⟩) rfl rfl hacc.ge
    hreceived hwritten
  obtain ⟨q, e, h0, hlookup, hheap, hb⟩ := (view_connections_iff _ fd b).mp hclient.2
  rw [lookup_closed] at hlookup
  split at hlookup
  · cases hlookup
  change Function.update w.heap p none q = some e at hheap
  rw [Function.update_apply] at hheap
  split at hheap
  · cases hheap
  · rename_i hne
    exact (view_connections_iff _ fd b).mpr ⟨q, e, h0, hlookup, (put_heap_ne hne).trans hheap, hb⟩

theorem echoing_finish (m : PollMask)
    (he : Echoing (w.put p d k) (arr ++ w.kernel.arrivals k)) :
    Echoing (w.finish p m d k) (arr ++ w.kernel.arrivals (w.finish p m d k).kernel) := by
  unfold World.finish
  split
  · have hsame : w.kernel.arrivals (k.close d.fd) = w.kernel.arrivals k := by
      simp only [Kernel.arrivals, (Optimized.close_streams k d.fd).2.2.1]
    have hclosed := echoing_closed he
    rw [← hsame] at hclosed
    exact hclosed
  · exact he

/-- A client is accepted. -/
theorem Sound.echoing_entered (h : Sound w) {fd : Fd} (h0 : 0 ≤ fd) (hp : w.heap p = none)
    (he : Echoing w arr) : Echoing (w.entered fd p) arr := by
  have haccepted : Explained echoService noStore (w.view.accepted fd) arr := he.accepted
  refine haccepted.of_streams (fun fd' b hclient => ⟨⟨hclient.1, ?_⟩, rfl⟩) rfl rfl
    (Nat.le_refl _) rfl rfl
  change Function.update w.view.connections fd (some ⟨fd, [], []⟩) fd' = some b
  obtain ⟨q, e, h0', hlookup, hheap, hb⟩ := (view_connections_iff _ fd' b).mp hclient.2
  rw [lookup_entered] at hlookup
  rw [heap_entered] at hheap
  rw [Function.update_apply]
  split
  · rename_i hfd
    subst hfd
    rw [if_pos rfl] at hlookup
    rw [if_pos (Option.some.inj hlookup).symm] at hheap
    rw [← hb, ← Option.some.inj hheap]
    rfl
  · rename_i hfd
    have hne : fd'.toNat ≠ fd.toNat := fun he' =>
      hfd (by rw [← Int.toNat_of_nonneg h0', he', Int.toNat_of_nonneg h0])
    rw [if_neg hne] at hlookup
    obtain ⟨e', he', -⟩ := h.entry _ q hlookup
    rw [if_neg (by rintro rfl; rw [hp] at he'; cases he')] at hheap
    exact (view_connections_iff w fd' b).mpr ⟨q, e, h0', hlookup, hheap, hb⟩

/-! ## Runs -/

/-- **Every event that is served** keeps the server the echo service. -/
theorem Sound.echoing_serve {e : Event} {es : List Event} (h : Sound w) (hp : Pending w (e :: es))
    (ha : r.Allowed w) (hrun : (serve e r).run w = .ok () w') (he : Echoing w arr) :
    ∃ arr', Echoing w' arr' := by
  have hend : ¬ MeetsEmptyEnd w e r := by
    intro hend
    obtain ⟨w'', herror⟩ := serve_emptyEnd h hp hend
    cases hrun.symm.trans herror
  cases e with
  | listener m =>
    obtain ⟨-, rfl⟩ := EStateM.Result.ok.inj ((run_serveListener h ha m).symm.trans hrun)
    split
    · rename_i hr
      obtain ⟨h0, -⟩ := ha.accept hr.2
      exact ⟨arr, h.echoing_entered h0 ha.addr he⟩
    · exact ⟨arr, he⟩
  | client fd m =>
    obtain ⟨p, c, hc, rfl, hfits⟩ := hp.found _ m List.mem_cons_self
    have hne : ¬ (m.pollin = true ∧ EndsEmpty c r.read) :=
      fun hend' => hend ⟨_, m, p, c, rfl, hc, rfl, hend'⟩
    obtain ⟨-, rfl⟩ := EStateM.Result.ok.inj ((run_serveClient h hc hfits hne).symm.trans hrun)
    split
    · exact ⟨_, echoing_finish m (h.echoing_served hc hne he)⟩
    · exact ⟨arr, he⟩

theorem echoing_init (serverFd : Fd) : Echoing (World.init serverFd) [] := by
  refine (Optimized.explained_init echoService rfl serverFd).of_streams ?_ rfl rfl (Nat.le_refl _)
    rfl rfl
  rintro fd b ⟨-, hb⟩
  obtain ⟨q, e, -, -, hheap, -⟩ := (view_connections_iff _ fd b).mp hb
  cases hheap

section

variable {serverFd : Fd} {events : List Event}

theorem echoing_of_run (h : PollRun serverFd w events) : ∃ arr, Echoing w arr := by
  induction h with
  | start => exact ⟨[], echoing_init serverFd⟩
  | wait _ _ ih => exact ih
  | serve hr hs ih =>
    obtain ⟨hsound, hpending⟩ := sound_of_run hr
    obtain ⟨arr, he⟩ := ih
    obtain ⟨r, ha, hrun⟩ := hs
    exact hsound.echoing_serve hpending ha hrun he

/-- The bytes the server has read from the socket of a connection. -/
def World.received (w : World) (c : Conn) : Bytes := w.kernel.received (w.kernel.socketOf c.fd)

/-- The bytes the server has written to the socket of a connection. -/
def World.written (w : World) (c : Conn) : Bytes := w.kernel.written (w.kernel.socketOf c.fd)

theorem buffers_of_echoing (h : Sound w) (he : Echoing w arr) (hc : w.heap p = some c) :
    c.incoming = (echoDecoder.drain (w.received c)).2 ∧
      w.written c ++ c.outgoing = echoBytes (echoDecoder.drain (w.received c)).1 := by
  have hclient := h.isClient hc
  have hreceived : w.received c = ofPeer (w.kernel.socketOf c.fd) arr := he.received _
  rw [hreceived, ← owed_echoService]
  refine ⟨(he.incoming c.fd c.buffers hclient).trans ?_, he.outgoing c.fd c.buffers hclient⟩
  exact congrArg Prod.snd (echoService.drain_ofPeer arr (w.kernel.socketOf c.fd)).symm

/-- **The archived server in every run.** What was ever written to a socket is a beginning of the
frames received from it. Of a connection the rest of these frames waits in its outgoing buffer and
what is not a complete frame yet in its incoming buffer; it waits to read if and only if all its
frames were sent back. -/
theorem poll_echo_of_run (h : PollRun serverFd w events) :
    (∀ s, w.kernel.written s <+: echoBytes (echoDecoder.drain (w.kernel.received s)).1) ∧
      ∀ p c, w.heap p = some c → c.incoming = (echoDecoder.drain (w.received c)).2 ∧
        w.written c ++ c.outgoing = echoBytes (echoDecoder.drain (w.received c)).1 ∧
          (c.wantRead = true ↔
            w.written c = echoBytes (echoDecoder.drain (w.received c)).1) := by
  obtain ⟨hsound, -⟩ := sound_of_run h
  obtain ⟨arr, he⟩ := echoing_of_run h
  refine ⟨fun s => ?_, fun p c hc => ?_⟩
  · have hreceived : w.kernel.received s = ofPeer s arr := he.received s
    rw [hreceived, ← owed_echoService]
    exact he.written s
  · obtain ⟨hin, hout⟩ := buffers_of_echoing hsound he hc
    refine ⟨hin, hout, ?_⟩
    rw [(hsound.settled p c hc).wantRead, ← hout, List.isEmpty_iff, List.self_eq_append_right]

/-- A frame and the beginning of another arrive; three bytes are written at once. -/
def Results.frame : Results :=
  { Results.again with read := .bytes [1, 0, 0, 0, 65, 2, 0], writeNow := .wrote 3 }

theorem poll_echo_of_readable_run :
    ∃ w, (serve (.client 7 ⟨true, false, false, false⟩) .frame).run ((World.init 3).entered 7 100) =
      .ok () w ∧ w.kernel.written 0 = [1, 0, 0] ∧
        w.kernel.written 0 <+: echoBytes (echoDecoder.drain (w.kernel.received 0)).1 := by
  have hallowed : Results.frame.Allowed ((World.init 3).entered 7 100) := by
    refine ⟨fun h => absurd rfl h, rfl, fun b hb => ?_⟩
    obtain rfl := ReadResult.bytes.inj hb
    exact ⟨by simp, by simp [Optimized.readBufferSize]⟩
  have hrun : PollRun 3 _ [] := .serve pollRun_readable ⟨_, hallowed,
    (show (serve (.client 7 ⟨true, false, false, false⟩) .frame).run
      ((World.init 3).entered 7 100) = _ from rfl)⟩
  exact ⟨_, rfl, rfl, (poll_echo_of_run hrun).1 0⟩

/-- **The input with which it faults.** Where bytes are read from a connection, the server faults if
and only if all that was read from it so far is complete frames, the last of them empty. -/
theorem faults_iff_of_run {fd : Fd} {m : PollMask} {b : Bytes}
    (h : PollRun serverFd w (.client fd m :: events)) (hin : m.pollin = true)
    (hr : r.read = .bytes b) (ha : r.Allowed w) :
    ∃ p c, w.heap p = some c ∧ c.fd = fd ∧
      ((∃ w', (serve (.client fd m) r).run w = .error .outOfRange w') ↔
        ∃ fs, echoDecoder.drain (w.received c ++ b) = (fs ++ [⟨[], ()⟩], [])) := by
  obtain ⟨hsound, hpending⟩ := sound_of_run h
  obtain ⟨arr, he⟩ := echoing_of_run h
  obtain ⟨p, c, hc, rfl, -⟩ := hpending.found _ m List.mem_cons_self
  obtain ⟨hrest, -⟩ := buffers_of_echoing hsound he hc
  refine ⟨p, c, hc, rfl, ?_⟩
  have hends : MeetsEmptyEnd w (.client c.fd m) r ↔ EmptyFrame (c.parsed b).incoming := by
    constructor
    · rintro ⟨_, _, q, d, heq, hd, rfl, -, b', hb, hempty⟩
      obtain ⟨hfd, -⟩ := Event.client.inj heq
      obtain rfl := hsound.eq_of_fd hc hd hfd
      obtain rfl := Option.some.inj (hc.symm.trans hd)
      obtain rfl := ReadResult.bytes.inj (hr.symm.trans hb)
      exact hempty
    · exact fun hempty => ⟨_, m, p, c, rfl, hc, rfl, hin, b, hr, hempty⟩
  rw [(fault_iff hsound hpending ha).2, hends]
  refine (emptyFrame_drain_iff (c.incoming ++ b)).trans ?_
  rw [echoDecoder.drain_append (w.received c) b, ← hrest]
  -- the bytes that were just read are part of the last frame
  have hne : (echoDecoder.drain (c.incoming ++ b)).2 = [] →
      (echoDecoder.drain (c.incoming ++ b)).1 ≠ [] := by
    intro hnil hfs
    have hsplit := echoDecoder.drain_split (c.incoming ++ b)
    rw [hnil, hfs, List.map_nil, List.flatten_nil, List.append_nil, List.append_eq_nil_iff]
      at hsplit
    exact (ha.read b hr).1 hsplit.2
  constructor
  · rintro ⟨fs, hdrain⟩
    exact ⟨(echoDecoder.drain (w.received c)).1 ++ fs, by rw [hdrain, List.append_assoc]⟩
  · rintro ⟨fs, hdrain⟩
    obtain ⟨hfs, hnil⟩ := Prod.mk.inj hdrain
    obtain ⟨init, last, hlast⟩ := (List.eq_nil_or_concat' _).resolve_left (hne hnil)
    rw [hlast, ← List.append_assoc] at hfs
    obtain ⟨-, heq⟩ := List.append_inj' hfs rfl
    exact ⟨init, Prod.ext (by rw [hlast, heq]) hnil⟩

theorem faults_iff_of_readable_run :
    ∃ w', (serve (.client 7 ⟨true, false, false, false⟩) .emptyFrame).run
      ((World.init 3).entered 7 100) = .error .outOfRange w' := by
  obtain ⟨p, c, hc, hfd, hiff⟩ := faults_iff_of_run (b := [0, 0, 0, 0]) pollRun_readable rfl rfl
    allowed_emptyFrame
  exact hiff.mpr ⟨[], rfl⟩

end

end Byor.PollServer
