import Byor.Optimized.History

/-!
# Requests that are left in the buffer

Between events an incoming buffer holds what the parse loop could not use: an incomplete frame, or
a complete one that `parse_req` refuses. The first is finished by later reads; the second stays at
the front for good, and everything behind it with it.

* `Drained`: the loop leaves no request, and no header above the limit, in the buffer of a live
  connection.
* `notStuck_iff`: no complete frame is stuck exactly if the bytes read from the socket so far hold
  no complete frame that `parse_req` refuses.
* `MeetsMalformed.append`: once such a frame was read, it stays.
-/

namespace Byor.Optimized

open Wire

variable {w : World} {conn fd : Fd} {c : Connection} {event : Event} {r : SysResults}

/-- The buffer does not start with a complete frame: it holds less than a header, or a header
within the limit and less than the frame it announces. -/
def NotStuck (incoming : Bytes) : Prop :=
  incoming.length < lenFieldSize ∨
    dataLen incoming ≤ maxMsgFieldSize ∧ incoming.length < lenFieldSize + dataLen incoming

/-- Behind the requests that are served from the stream stands a complete frame that `parse_req`
refuses. -/
def MeetsMalformed (stream : Bytes) : Prop :=
  ∃ fs rest, requestDecoder.Takes stream fs rest ∧ StartsComplete rest ∧
    (parseReq (headPayload rest) []).1 = false

theorem notStuck_iff_not_startsComplete {incoming : Bytes} (ho : ¬ OverLimit incoming) :
    NotStuck incoming ↔ ¬ StartsComplete incoming := by
  constructor
  · rintro (h | ⟨-, h⟩) ⟨h4, -, hlen⟩
    · omega
    · omega
  · intro h
    by_cases h4 : incoming.length < lenFieldSize
    · exact .inl h4
    have hmax : dataLen incoming ≤ maxMsgFieldSize := by
      by_contra hgt
      exact ho ⟨Nat.le_of_not_lt h4, Nat.lt_of_not_le hgt⟩
    refine .inr ⟨hmax, ?_⟩
    by_contra hge
    exact h ⟨Nat.le_of_not_lt h4, hmax, Nat.le_of_not_lt hge⟩

/-- A buffer without a complete frame is shorter than the longest frame. -/
theorem NotStuck.length_lt {incoming : Bytes} (h : NotStuck incoming) :
    incoming.length < lenFieldSize + maxMsgFieldSize := by
  rcases h with h | ⟨hmax, h⟩ <;> omega

/-- What `parse_req` refuses is not a request. -/
theorem next_eq_none_of_refused {incoming : Bytes} (hs : StartsComplete incoming)
    (hp : (parseReq (headPayload incoming) []).1 = false) :
    requestDecoder.next incoming = none := by
  rw [next_of_startsComplete hs, hp]
  rfl

theorem meetsMalformed_iff (stream : Bytes) :
    MeetsMalformed stream ↔ StartsComplete (requestDecoder.drain stream).2 := by
  constructor
  · rintro ⟨fs, rest, ht, hs, hp⟩
    rwa [requestDecoder.drain_eq_of_takes ht (next_eq_none_of_refused hs hp)]
  · intro hs
    exact ⟨_, _, requestDecoder.takes_drain stream, hs,
      refused_of_next_eq_none hs (requestDecoder.next_drain stream)⟩

theorem StartsComplete.append {incoming : Bytes} (h : StartsComplete incoming) (b : Bytes) :
    StartsComplete (incoming ++ b) ∧ headPayload (incoming ++ b) = headPayload incoming := by
  obtain ⟨h4, hmax, hlen⟩ := h
  have hword : dataLen (incoming ++ b) = dataLen incoming := by
    rw [dataLen, List.take_append_of_le_length h4]
    rfl
  refine ⟨⟨?_, ?_, ?_⟩, ?_⟩
  · rw [List.length_append]
    omega
  · rwa [hword]
  · rw [hword, List.length_append]
    omega
  · rw [headPayload, hword, List.drop_append_of_le_length h4, List.take_append_of_le_length]
    · rfl
    · rw [List.length_drop]
      omega

/-- **A refused frame stays where it is**, whatever the client sends after it. -/
theorem MeetsMalformed.append {stream : Bytes} (h : MeetsMalformed stream) (b : Bytes) :
    MeetsMalformed (stream ++ b) := by
  obtain ⟨fs, rest, ht, hs, hp⟩ := h
  obtain ⟨hs', hhead⟩ := hs.append b
  exact ⟨fs, rest ++ b, ht.append b, hs', hhead ▸ hp⟩

/-! ## What the parse loop leaves -/

/-- **The loop has taken what it can**: no buffer of a client starts with a request or with a header
above the limit. -/
structure Drained (w : World) : Prop extends TableOk w where
  next : ∀ fd c, IsClient w fd c → requestDecoder.next c.incoming = none
  limit : ∀ fd c, IsClient w fd c → ¬ OverLimit c.incoming

theorem Drained.readEffect (h : Drained w) (hc : IsClient w conn c) (r : ReadResult) :
    Drained (w.readEffect conn c r) := by
  have ht : TableOk (w.readEffect conn c r) :=
    readEffect_steps h.toTableOk hc (fun b => h.toTableOk.drained hc.2 b)
      (fun _ m h' => h'.modified _ m) (fun _ _ h' hc' => h'.closed hc') r
  have hother : ∀ fd d, IsClient (w.readEffect conn c r) fd d → fd ≠ conn → IsClient w fd d := by
    rintro fd d ⟨hne, hd⟩ he
    rw [serverFd_readEffect] at hne
    rw [readEffect_connections_ne he] at hd
    exact ⟨hne, hd⟩
  have hself : ∀ d, (w.readEffect conn c r).connections conn = some d →
      requestDecoder.next d.incoming = none ∧ ¬ OverLimit d.incoming := by
    intro d hd
    cases r with
    | eof =>
      rw [World.readEffect, closed_connections] at hd
      cases hd
    | error errno =>
      obtain rfl := Option.some.inj (hd.symm.trans hc.2)
      exact ⟨h.next conn d hc, h.limit conn d hc⟩
    | bytes b =>
      rw [World.readEffect] at hd
      split at hd
      · rw [closed_connections] at hd
        cases hd
      · rename_i ho
        rw [afterRead_connections, drained_connections] at hd
        obtain rfl := Option.some.inj hd
        exact ⟨requestDecoder.next_drain _, ho⟩
  refine { ht with next := fun fd d hd => ?_, limit := fun fd d hd => ?_ }
  · by_cases he : fd = conn
    · exact (hself d (he ▸ hd.2)).1
    · exact h.next fd d (hother fd d hd he)
  · by_cases he : fd = conn
    · exact (hself d (he ▸ hd.2)).2
    · exact h.limit fd d (hother fd d hd he)

/-- What takes nothing off the buffers, and brings in only empty ones, keeps the invariant. -/
theorem Drained.of_incoming {w' : World} (h : Drained w) (ht : TableOk w')
    (hclient : ∀ fd d, IsClient w' fd d →
      d.incoming = [] ∨ ∃ c, IsClient w fd c ∧ d.incoming = c.incoming) : Drained w' := by
  have hnil : ¬ OverLimit [] := fun ho => absurd ho.1 (by decide)
  refine { ht with next := fun fd d hd => ?_, limit := fun fd d hd => ?_ }
  · rcases hclient fd d hd with he | ⟨c, hc, he⟩
    · rw [he]
      exact framing_next_nil (by decide)
    · exact he ▸ h.next fd c hc
  · rcases hclient fd d hd with he | ⟨c, hc, he⟩
    · rwa [he]
    · exact he ▸ h.limit fd c hc

theorem Drained.writeEffect (h : Drained w) (hc : IsClient w conn c) (r : WriteResult) :
    Drained (w.writeEffect conn c r) := by
  have ht : TableOk (w.writeEffect conn c r) :=
    writeEffect_steps h.toTableOk (fun n => h.toTableOk.wrote hc.2 n)
      (fun _ m h' => h'.modified _ m) (h.toTableOk.closed hc) r
  refine h.of_incoming ht fun fd d hd => .inr ?_
  obtain ⟨hne, hd⟩ := hd
  rw [serverFd_writeEffect] at hne
  by_cases he : fd = conn
  · subst he
    exact ⟨c, hc, writeEffect_incoming hc.2 hd⟩
  · rw [writeEffect_connections_ne he] at hd
    exact ⟨d, ⟨hne, hd⟩, rfl⟩

theorem Drained.closed (h : Drained w) (hc : IsClient w conn c) : Drained (w.closed conn) :=
  h.of_incoming (h.toTableOk.closed hc) fun _ d hd =>
    .inr ⟨d, (IsClient.of_erased w (w.closed conn) rfl rfl hd).2, rfl⟩

theorem Drained.newEffect (h : Drained w) (ha : r.Allowed w) : Drained (w.newEffect r) := by
  refine h.newEffect_cases ha h (fun ho => ?_) fun ho => ?_
  · exact h.of_incoming (h.toTableOk.refused ho) fun _ d hd => .inr ⟨d, hd, rfl⟩
  · refine h.of_incoming (h.toTableOk.accepted ho) fun fd d hd => ?_
    rcases hd.of_accepted with ⟨-, rfl⟩ | ⟨-, hd⟩
    · exact .inl rfl
    · exact .inr ⟨d, hd, rfl⟩

theorem Drained.afterEvent (h : Drained w) (ha : r.Allowed w) : Drained (afterEvent event r w) :=
  (afterEvent_effects h (fun _ h' => h'.toTableOk) (h.newEffect ha)
    (fun _ hc => h.readEffect hc r.read) (fun _ _ h' hc => h'.writeEffect hc r.write)
    fun _ _ h' hc => h'.closed hc).1

theorem drained_init (serverFd : Fd) : Drained (World.init serverFd) :=
  { tableOk_init serverFd with
    next := fun fd c hc => absurd hc (not_isClient_init serverFd fd c)
    limit := fun fd c hc => absurd hc (not_isClient_init serverFd fd c) }

theorem drained_of_reachable {Wait : World → List Event → Prop}
    {Serve : World → Event → SysResults → Prop} {serverFd : Fd} {events : List Event}
    (h : Reachable Wait Serve serverFd w events) : Drained w :=
  h.invariant (drained_init serverFd) fun _ _ _ hw ha => hw.afterEvent ha

/-! ## Stuck frames -/

/-- Accepted requests stand at the front of the stream they were taken from. -/
theorem takes_accepted {fs : List Request} (h : ∀ f ∈ fs, f.Accepted) (rest : Bytes) :
    requestDecoder.Takes ((fs.map Request.frame).flatten ++ rest) fs rest := by
  refine takes_records (by decide) fs (fun f hf => ?_) rest
  obtain ⟨hmax, hp⟩ := h f hf
  refine ⟨lt_of_le_maxMsgFieldSize hmax, ?_⟩
  rw [acceptPayload_eq hmax, hp]
  rfl

/-- The requests served from a socket, and its incoming buffer, are what the bytes read from it
decode to. -/
theorem Consistent.drain_received (h : Consistent w) (hd : Drained w) (hc : IsClient w fd c) :
    requestDecoder.drain (w.kernel.received (w.kernel.socketOf fd)) =
      ((callsOf (w.kernel.socketOf fd) w.executed).map Execution.request, c.incoming) := by
  refine requestDecoder.drain_eq_of_takes ?_ (hd.next fd c hc)
  rw [h.received fd c hc, consumedFrom, ← Function.comp_def, ← List.map_map]
  refine takes_accepted (fun f hf => ?_) c.incoming
  obtain ⟨e, he, rfl⟩ := List.mem_map.mp hf
  exact h.accepted e (List.mem_of_mem_filter he)

/-- **When no frame is stuck.** -/
theorem notStuck_iff (h : Consistent w) (hd : Drained w) (hc : IsClient w fd c) :
    NotStuck c.incoming ↔ ¬ MeetsMalformed (w.kernel.received (w.kernel.socketOf fd)) := by
  rw [notStuck_iff_not_startsComplete (hd.limit fd c hc), meetsMalformed_iff,
    h.drain_received hd hc]

/-- **No request is stuck exactly while no malformed frame was read**, in every state of every run
and whenever `handle_read_event` returns with the connection still in the table. Then all bytes read
but the buffer belong to requests that were served, and the buffer is shorter than the longest
frame. -/
theorem served_of_run {serverFd : Fd} {events : List Event}
    (h : Reachable anyBatch anyResults serverFd w events) :
    (∀ fd c, IsClient w fd c →
      (NotStuck c.incoming ↔ ¬ MeetsMalformed (w.kernel.received (w.kernel.socketOf fd))) ∧
        (NotStuck c.incoming → c.incoming.length < lenFieldSize + maxMsgFieldSize) ∧
        w.kernel.received (w.kernel.socketOf fd) =
          consumedFrom (w.kernel.socketOf fd) w.executed ++ c.incoming ∧
        w.kernel.written (w.kernel.socketOf fd) ++ c.outgoing =
          answersTo (w.kernel.socketOf fd) w.executed) ∧
      ∀ fd c, IsClient w fd c → ∀ r w', (handleReadEvent r fd).run w = .ok () w' →
        ∀ c', w'.connections fd = some c' →
          (NotStuck c'.incoming ↔
            ¬ MeetsMalformed (w'.kernel.received (w'.kernel.socketOf fd))) := by
  have hc := consistent_of_reachable h
  have hd := drained_of_reachable h
  constructor
  · intro fd c hcl
    exact ⟨notStuck_iff hc hd hcl, NotStuck.length_lt, hc.received fd c hcl, hc.written fd c hcl⟩
  · intro fd c hcl r w' hrun c' hc'
    rcases run_handleReadEvent hcl.2 (hc.entry fd c hcl.2) r with hr | ⟨hr, -⟩
    · obtain ⟨-, rfl⟩ := EStateM.Result.ok.inj (hrun.symm.trans hr)
      refine notStuck_iff (hc.readEffect hcl r) (hd.readEffect hcl r) ⟨?_, hc'⟩
      rw [serverFd_readEffect]
      exact hcl.1
    · rw [hrun] at hr
      cases hr

/-- The second frame of the pipelining client is still incomplete. -/
theorem served_of_pipelined_run :
    NotStuck ((pipelinedFrames.take 27).drop 25) ↔
      ¬ MeetsMalformed (pipelinedFirst.kernel.received 0) := by
  have hfirst : Reachable anyBatch anyResults 3 pipelinedFirst [] :=
    (reachable_pipelinedAccept trivial trivial).single trivial
      (.of_read _ (by decide) (by decide)) trivial
  have hclient : IsClient pipelinedFirst 7 ⟨7, (pipelinedFrames.take 27).drop 25,
      Response.frame ⟨.RES_OK, ascii "k set to v"⟩⟩ := ⟨by decide, by decide⟩
  exact ((served_of_run hfirst).1 7 _ hclient).1

/-- A frame whose payload ends before the string it announces, and a well-formed one behind it. -/
def malformedFrames : Bytes :=
  record lenFieldSize (leBytes lenFieldSize 1) ++
    record lenFieldSize (encodePayload [ascii "get", ascii "k"])

/-- A client sends the malformed frame and the one behind it at once. -/
def malformedRead : World :=
  afterEvent ⟨7, EPOLLIN⟩ { SysResults.again with read := .bytes malformedFrames } pipelinedAccept

/-- Both frames stay in the buffer. -/
theorem stuck_behind_malformed :
    ¬ ∀ (serverFd : Fd) (w : World) (events : List Event) (fd : Fd) (c : Connection),
      Reachable anyBatch anyResults serverFd w events → IsClient w fd c → NotStuck c.incoming := by
  intro h
  have hread : Reachable anyBatch anyResults 3 malformedRead [] :=
    (reachable_pipelinedAccept trivial trivial).single trivial
      (.of_read _ (by decide) (by decide)) trivial
  have hstuck := h 3 malformedRead [] 7 ⟨7, malformedFrames, []⟩ hread ⟨by decide, by decide⟩
  rcases hstuck with hs | ⟨-, hs⟩
  · exact absurd hs (by decide)
  · exact absurd hs (by decide)

end Byor.Optimized
