import Byor.Optimized.Handlers

/-!
# Independence of the segmentation

What a connection does is decided by the bytes of its stream, not by where the reads cut it or by
how much each write takes.

* `Turn` is a call of `handle_read_event` or `handle_write_event` on the connection, and `runTurns`
  a sequence of them.
* `taken` is what the requests served and the incoming buffer must be after a part of the stream;
  `taken_append` is `Decoder.drain_append` for it.
* `Delivered` ties a world to the part of the stream it has seen. Each turn keeps it
  (`Delivered.read`, `Delivered.write`), so a sequence of turns does (`run_runTurns`), and it
  determines what the two runs are compared by (`segmentation_independent`).
-/

namespace Byor.Optimized

open Wire

variable {w w' : World} {conn : Fd} {c : Connection} {del : Bytes}

/-! ## Turns -/

/-- A call of a handler on one connection, with the result of its system call. -/
inductive Turn
  | read (b : Bytes)
  | write (r : WriteResult)

/-- The handler of a turn. -/
def Turn.run (conn : Fd) : Turn → Handler Unit
  | .read b => handleReadEvent (.bytes b) conn
  | .write r => handleWriteEvent r conn

/-- The handlers one after another. -/
def runTurns (conn : Fd) : List Turn → Handler Unit
  | [] => pure ()
  | t :: ts => do
    t.run conn
    runTurns conn ts

/-- The bytes a turn delivers. -/
def Turn.bytes : Turn → Bytes
  | .read b => b
  | .write _ => []

/-- The part of the stream the turns deliver. -/
def delivered (ts : List Turn) : Bytes := (ts.map Turn.bytes).flatten

/-- A read is not empty and fits the buffer; a write does not fail for good. -/
def Turn.Ok : Turn → Prop
  | .read b => b ≠ [] ∧ b.length ≤ readBufferSize
  | .write r => ∀ errno, r = .error errno → errno.isAgain = true

theorem delivered_cons (t : Turn) (ts : List Turn) :
    delivered (t :: ts) = t.bytes ++ delivered ts := rfl

/-! ## What a part of the stream amounts to -/

/-- The requests served, and what is left in the buffer, once the bytes `del` were delivered to a
connection that held `incoming`. The buffer is looked at only when something arrives. -/
def taken (incoming del : Bytes) : List Request × Bytes :=
  if del = [] then ([], incoming) else requestDecoder.drain (incoming ++ del)

@[simp] theorem taken_nil (incoming : Bytes) : taken incoming [] = ([], incoming) := if_pos rfl

theorem taken_append (incoming del : Bytes) {b : Bytes} (hb : b ≠ []) :
    taken incoming (del ++ b) =
      ((taken incoming del).1 ++ (requestDecoder.drain ((taken incoming del).2 ++ b)).1,
        (requestDecoder.drain ((taken incoming del).2 ++ b)).2) := by
  have hne : del ++ b ≠ [] := fun h => hb (List.append_eq_nil_iff.mp h).2
  rw [taken, if_neg hne]
  by_cases hd : del = []
  · subst hd
    rw [taken_nil, List.nil_append]
    rfl
  · rw [taken, if_neg hd, ← List.append_assoc, requestDecoder.drain_append]

/-- What is left of a part of the stream meets no header above the limit that the stream does not
meet. -/
theorem not_overLimit_taken {incoming del b : Bytes} (hb : b ≠ [])
    (h : ¬ MeetsOverLimit (incoming ++ (del ++ b))) :
    ¬ OverLimit (requestDecoder.drain ((taken incoming del).2 ++ b)).2 := by
  have hne : del ++ b ≠ [] := fun he => hb (List.append_eq_nil_iff.mp he).2
  have htaken : (taken incoming (del ++ b)).2 =
      (requestDecoder.drain ((taken incoming del).2 ++ b)).2 := by
    rw [taken_append incoming del hb]
  rw [← htaken, taken, if_neg hne]
  exact mt (meetsOverLimit_iff _).mpr h

/-! ## The invariant -/

/-- The world `w'` is `w` after the bytes `del` were delivered to the connection `c`. -/
structure Delivered (w : World) (conn : Fd) (c : Connection) (del : Bytes) (w' : World) : Prop where
  entry : ∃ c', w'.connections conn = some c' ∧ c'.fd = conn ∧
    c'.incoming = (taken c.incoming del).2 ∧
    w'.kernel.written (w.kernel.socketOf conn) ++ c'.outgoing =
      w.kernel.written (w.kernel.socketOf conn) ++ c.outgoing ++
        responseBytes (responses w.gData (taken c.incoming del).1)
  store : w'.gData = (runCommands w.gData ((taken c.incoming del).1.map Record.value)).1
  socketOf : w'.kernel.socketOf = w.kernel.socketOf

theorem Delivered.start (hc : w.connections conn = some c) (hfd : c.fd = conn) :
    Delivered w conn c [] w := by
  refine ⟨⟨c, hc, hfd, by rw [taken_nil], ?_⟩, by rw [taken_nil]; rfl, rfl⟩
  rw [taken_nil]
  exact (List.append_nil _).symm

/-- Changing the interest changes neither the map nor the sockets. -/
theorem afterRead_frame (conn : Fd) (c : Connection) :
    (w.afterRead conn c).gData = w.gData ∧
      (w.afterRead conn c).kernel.socketOf = w.kernel.socketOf ∧
      (w.afterRead conn c).kernel.written = w.kernel.written := by
  unfold World.afterRead
  split <;> exact ⟨rfl, rfl, rfl⟩

theorem afterWrite_frame (conn : Fd) (c : Connection) :
    (w.afterWrite conn c).gData = w.gData ∧
      (w.afterWrite conn c).kernel.socketOf = w.kernel.socketOf ∧
      (w.afterWrite conn c).kernel.written = w.kernel.written := by
  unfold World.afterWrite
  split <;> exact ⟨rfl, rfl, rfl⟩

/-- A read event serves what it completes. -/
theorem Delivered.read (h : Delivered w conn c del w') {b : Bytes} (hb : b ≠ [])
    (hlim : ¬ MeetsOverLimit (c.incoming ++ (del ++ b))) :
    ∃ w'', (handleReadEvent (.bytes b) conn).run w' = .ok () w'' ∧
      Delivered w conn c (del ++ b) w'' := by
  obtain ⟨c', hc', hfd, hin, hout⟩ := h.entry
  have ho := not_overLimit_taken hb hlim
  have htaken := taken_append c.incoming del hb
  rw [← hin] at ho htaken
  obtain ⟨hdata, hsock, hwritten⟩ :=
    afterRead_frame (w := w'.drained conn c' b) conn (c'.drained w'.gData b)
  refine ⟨_, run_handleReadEvent_bytes hc' hfd b ho, ⟨?_, ?_, ?_⟩⟩
  · refine ⟨c'.drained w'.gData b, ?_, hfd, ?_, ?_⟩
    · rw [afterRead_connections, drained_connections]
    · rw [htaken]
      rfl
    · rw [hwritten, htaken, responses_append, responseBytes_append, ← List.append_assoc, ← hout,
        List.append_assoc, ← h.store]
      rfl
  · rw [hdata, htaken, List.map_append, runCommands_append, ← h.store]
    rfl
  · rw [hsock]
    exact h.socketOf

/-- A write event moves bytes from the outgoing buffer to the socket. -/
theorem Delivered.write (h : Delivered w conn c del w') {r : WriteResult}
    (hr : (Turn.write r).Ok) :
    ∃ w'', (handleWriteEvent r conn).run w' = .ok () w'' ∧ Delivered w conn c del w'' := by
  obtain ⟨c', hc', hfd, hin, hout⟩ := h.entry
  by_cases hempty : c'.outgoing = []
  · exact ⟨_, run_handleWriteEvent_empty hc' hfd hempty r,
      ⟨c', hc', hfd, hin, hout⟩, h.store, h.socketOf⟩
  cases r with
  | error errno => exact ⟨w', run_handleWriteEvent_again hc' hempty (hr errno rfl), h⟩
  | wrote n =>
    obtain ⟨hdata, hsock, hwritten⟩ :=
      afterWrite_frame (w := w'.wrote conn c' n) conn (c'.wrote n)
    refine ⟨_, run_handleWriteEvent_wrote hc' hfd hempty n, ⟨?_, ?_, ?_⟩⟩
    · refine ⟨c'.wrote n, ?_, hfd, hin, ?_⟩
      · rw [afterWrite_connections]
        exact setConn_connections _
      · have hself : (w'.wrote conn c' n).kernel.written (w.kernel.socketOf conn) =
            w'.kernel.written (w.kernel.socketOf conn) ++
              c'.outgoing.take (min n c'.outgoing.length) := by
          rw [← h.socketOf, ← hfd]
          exact Function.update_self ..
        rw [hwritten, hself, List.append_assoc, Connection.wrote, List.take_append_drop, hout]
    · rw [hdata]
      exact h.store
    · rw [hsock]
      exact h.socketOf

/-- **A sequence of turns** returns, and the connection has then seen what the turns delivered. -/
theorem run_runTurns {ts : List Turn} (h : Delivered w conn c del w') (hts : ∀ t ∈ ts, t.Ok)
    (hlim : ¬ MeetsOverLimit (c.incoming ++ (del ++ delivered ts))) :
    ∃ w'', (runTurns conn ts).run w' = .ok () w'' ∧
      Delivered w conn c (del ++ delivered ts) w'' := by
  induction ts generalizing w' del with
  | nil => exact ⟨w', rfl, by rwa [delivered, List.map_nil, List.flatten_nil, List.append_nil]⟩
  | cons t ts ih =>
    obtain ⟨ht, hts⟩ := List.forall_mem_cons.mp hts
    rw [delivered_cons, ← List.append_assoc del] at hlim ⊢
    have hfirst : ∃ w1, (t.run conn).run w' = .ok () w1 ∧
        Delivered w conn c (del ++ t.bytes) w1 := by
      cases t with
      | read b =>
        refine h.read ht.1 fun hm => hlim ?_
        rw [← List.append_assoc c.incoming]
        exact hm.append _
      | write r =>
        obtain ⟨w1, hrun, hd⟩ := h.write ht
        exact ⟨w1, hrun, by rwa [Turn.bytes, List.append_nil]⟩
    obtain ⟨w1, hrun, hd⟩ := hfirst
    obtain ⟨w2, hrun', hd'⟩ := ih hd hts hlim
    refine ⟨w2, ?_, hd'⟩
    rw [runTurns, EStateM.run_bind, hrun]
    exact hrun'

/-- **Independence of the segmentation**: two sequences of turns that deliver the same stream leave
the same store, the same incoming buffer, and the same bytes written and to be written. -/
theorem segmentation_independent {ts ts' : List Turn} (hc : w.connections conn = some c)
    (hfd : c.fd = conn) (hts : ∀ t ∈ ts, t.Ok) (hts' : ∀ t ∈ ts', t.Ok)
    (hsame : delivered ts = delivered ts')
    (hlim : ¬ MeetsOverLimit (c.incoming ++ delivered ts)) :
    ∃ w1 w2 c1 c2, (runTurns conn ts).run w = .ok () w1 ∧ (runTurns conn ts').run w = .ok () w2 ∧
      w1.connections conn = some c1 ∧ w2.connections conn = some c2 ∧ w1.gData = w2.gData ∧
      c1.incoming = c2.incoming ∧
      w1.kernel.written (w.kernel.socketOf conn) ++ c1.outgoing =
        w2.kernel.written (w.kernel.socketOf conn) ++ c2.outgoing := by
  have hlim' : ¬ MeetsOverLimit (c.incoming ++ delivered ts') := hsame ▸ hlim
  obtain ⟨w1, hrun1, hd1⟩ := run_runTurns (.start hc hfd) hts hlim
  obtain ⟨w2, hrun2, hd2⟩ := run_runTurns (.start hc hfd) hts' hlim'
  rw [List.nil_append] at hd1 hd2
  rw [hsame] at hd1
  obtain ⟨c1, hc1, -, hin1, hout1⟩ := hd1.entry
  obtain ⟨c2, hc2, -, hin2, hout2⟩ := hd2.entry
  exact ⟨w1, w2, c1, c2, hrun1, hrun2, hc1, hc2, hd1.store.trans hd2.store.symm,
    hin1.trans hin2.symm, hout1.trans hout2.symm⟩

/-- A stream of one frame, delivered at once or cut inside its header with a short write behind. -/
theorem segmentation_independent_of_get :
    ∃ w1 w2 c1 c2,
      (runTurns 7 [.read (record lenFieldSize (encodePayload [ascii "get", ascii "k"]))]).run
        ((World.init 3).setConn 7 ⟨7, [], []⟩) = .ok () w1 ∧
      (runTurns 7 [.read ((record lenFieldSize (encodePayload [ascii "get", ascii "k"])).take 3),
        .read ((record lenFieldSize (encodePayload [ascii "get", ascii "k"])).drop 3),
        .write (.wrote 2)]).run
        ((World.init 3).setConn 7 ⟨7, [], []⟩) = .ok () w2 ∧
      w1.connections 7 = some c1 ∧ w2.connections 7 = some c2 ∧ w1.gData = w2.gData ∧
      c1.incoming = c2.incoming ∧
      w1.kernel.written 0 ++ c1.outgoing = w2.kernel.written 0 ++ c2.outgoing := by
  refine segmentation_independent (c := ⟨7, [], []⟩) rfl rfl ?_ ?_ (by decide) ?_
  · intro t ht
    obtain rfl := List.mem_singleton.mp ht
    exact ⟨by decide, by decide⟩
  · intro t ht
    simp only [List.mem_cons, List.not_mem_nil, or_false] at ht
    rcases ht with rfl | rfl | rfl
    · exact ⟨by decide, by decide⟩
    · exact ⟨by decide, by decide⟩
    · exact fun _ h => WriteResult.noConfusion h
  · rw [meetsOverLimit_iff]
    decide

end Byor.Optimized
