import Byor.Optimized.Acceptance
import Byor.Optimized.Progress

/-!
# One call of `try_request`, and the loop over it

* `tryRequest_atomic`: a call that returns false changes nothing, or closes the connection and
  changes nothing else; a call that returns true takes one frame, appends one response, and writes
  the map at the key of a `set` or `del` only.
* `tryRequest_drains`: the loop `while (try_request(conn))` ends after at most one turn for every
  eight bytes of the buffer, and serves the longest run of accepted frames the buffer starts with.
-/

namespace Byor.Optimized

open Wire

variable {w : World} {conn : Fd} {c : Connection} {f : Request} {incoming rest : Bytes}

/-! ## The requests in a buffer -/

/-- A request is taken exactly where an accepted frame stands at the front. -/
theorem next_eq_some_iff : requestDecoder.next incoming = some (f, rest) ↔
    f.Accepted ∧ incoming = f.frame ++ rest := by
  rw [requestDecoder_next, Framing.next_eq_some_iff]
  constructor
  · rintro ⟨he, -, hacc⟩
    exact ⟨acceptPayload_eq_some hacc, he⟩
  · rintro ⟨⟨hmax, hp⟩, he⟩
    refine ⟨he, lt_of_le_maxMsgFieldSize hmax, ?_⟩
    rw [acceptPayload_eq hmax, hp]
    rfl

/-- The payload of an accepted frame holds at least the number of its strings. -/
theorem Request.Accepted.le_length (h : f.Accepted) : lenFieldSize ≤ f.payload.length := by
  obtain ⟨-, -, rest, hrest⟩ := parseReq_eq_true h.2
  rw [hrest, List.length_append, length_encodePayload]
  omega

/-- A request takes at least eight bytes. -/
theorem length_add_eight_le (h : requestDecoder.next incoming = some (f, rest)) :
    rest.length + 8 ≤ incoming.length := by
  obtain ⟨hacc, rfl⟩ := next_eq_some_iff.mp h
  have hlen := hacc.le_length
  have h4 : lenFieldSize = 4 := rfl
  rw [List.length_append, Request.frame, length_record]
  omega

/-! ## One call -/

/-- A command changes the map at its own key at most, and only if it is a `set` or a `del`. -/
theorem isSet_or_isDel_of_ne {gData : Store} {cmd : List Bytes} {resp : Response} {key : Bytes}
    (h : (doRequest gData cmd resp).1 key ≠ gData key) :
    (∃ val, IsSet cmd key val) ∨ IsDel cmd key := by
  rw [doRequest_store] at h
  have hmem : ∃ e ∈ (writeOf cmd).toList, e.1 = key := by
    by_contra hnone
    push Not at hnone
    exact h (applyWrites_of_untouched gData hnone)
  obtain ⟨⟨k, v⟩, hk, rfl⟩ := hmem
  rcases writeOf_eq_some_iff.mp (Option.mem_toList.mp hk) with ⟨val, hset, -⟩ | ⟨hdel, -⟩
  · exact .inl ⟨val, hset⟩
  · exact .inr hdel

/-- **A call of `try_request` is one step.** If it returns false, nothing has changed, or a header
above the limit closed the connection and nothing else has changed. If it returns true, the first
frame is gone from the incoming buffer, one response frame stands behind the outgoing buffer, the
other connections are as before, and so is the map but at the key of a `set` or `del`. -/
theorem tryRequest_atomic (hc : w.connections conn = some c) :
    ∃ ok w', (tryRequest conn).run w = .ok ok w' ∧
      (ok = false → w' = w ∨ OverLimit c.incoming ∧ w'.gData = w.gData ∧
        w'.connections = Function.update w.connections c.fd none) ∧
      (ok = true → ∃ cmd resp c', parseReq (headPayload c.incoming) [] = (true, cmd) ∧
        w'.connections conn = some c' ∧ c'.fd = c.fd ∧
        lenFieldSize + dataLen c.incoming ≤ c.incoming.length ∧
        c'.incoming = c.incoming.drop (lenFieldSize + dataLen c.incoming) ∧
        c'.outgoing = c.outgoing ++ Response.frame resp ∧
        (∀ fd, fd ≠ conn → w'.connections fd = w.connections fd) ∧
        ∀ key, w'.gData key ≠ w.gData key → (∃ val, IsSet cmd key val) ∨ IsDel cmd key) := by
  rcases run_tryRequest_cases hc with ⟨ho, w', hclose, hrun⟩ | ⟨-, -, hrun⟩ | ⟨f, rest, hn, hrun⟩
  · obtain ⟨w₁, hclose₁, hdata, hconn⟩ := run_handleCloseEvent_entry hc
    obtain ⟨-, rfl⟩ := EStateM.Result.ok.inj (hclose.symm.trans hclose₁)
    exact ⟨false, w', hrun, fun _ => .inr ⟨ho, hdata, hconn⟩, nofun⟩
  · exact ⟨false, w, hrun, fun _ => .inl rfl, nofun⟩
  · refine ⟨true, _, hrun, nofun, fun _ => ?_⟩
    obtain ⟨hs, hp, rfl, rfl⟩ := request_of_next hn
    refine ⟨_, (doRequest w.gData (parseReq (headPayload c.incoming) []).2 .init).2,
      c.served w.gData [_] _, Prod.ext hp rfl, served_connections _ _, rfl, hs.2.2, rfl, ?_, ?_, ?_⟩
    · exact congrArg (c.outgoing ++ ·) (List.append_nil _)
    · exact fun fd hne => served_connections_ne hne _ _
    · exact fun key hne => isSet_or_isDel_of_ne hne

/-- A connection whose incoming buffer holds the bytes. -/
def holding (incoming : Bytes) : World := (World.init 3).setConn 7 ⟨7, incoming, []⟩

theorem holding_connections (incoming : Bytes) :
    (holding incoming).connections 7 = some ⟨7, incoming, []⟩ := rfl

/-- A part of a frame, a header above the limit, and a frame of a `set` with another one behind
it. -/
theorem tryRequest_atomic_of_buffers :
    (∃ w', (tryRequest 7).run (holding [9, 0, 0, 0, 1]) = .ok false w' ∧
      w' = holding [9, 0, 0, 0, 1]) ∧
    (∃ w', (tryRequest 7).run (holding [255, 255, 255, 255]) = .ok false w' ∧
      w'.gData = Store.empty ∧ w'.connections 7 = none) ∧
    ∃ w' cmd resp c', (tryRequest 7).run (holding pipelinedFrames) = .ok true w' ∧
      parseReq (headPayload pipelinedFrames) [] = (true, cmd) ∧ w'.connections 7 = some c' ∧
      c'.incoming = pipelinedFrames.drop 25 ∧ c'.outgoing = Response.frame resp ∧
      ∀ key, w'.gData key ≠ none → (∃ val, IsSet cmd key val) ∨ IsDel cmd key := by
  refine ⟨?_, ?_, ?_⟩
  · obtain ⟨ok, w', hrun, hfalse, -⟩ := tryRequest_atomic (holding_connections [9, 0, 0, 0, 1])
    obtain ⟨w₁, hok⟩ : ∃ w₁, (tryRequest 7).run (holding [9, 0, 0, 0, 1]) = .ok false w₁ :=
      ⟨_, rfl⟩
    obtain ⟨rfl, rfl⟩ := EStateM.Result.ok.inj (hok.symm.trans hrun)
    refine ⟨w₁, hrun, (hfalse rfl).resolve_right fun h => ?_⟩
    exact absurd h.1 (by decide)
  · obtain ⟨ok, w', hrun, hfalse, -⟩ := tryRequest_atomic (holding_connections [255, 255, 255, 255])
    obtain ⟨w₁, hok, hgone⟩ : ∃ w₁, (tryRequest 7).run (holding [255, 255, 255, 255]) =
        .ok false w₁ ∧ w₁.connections 7 = none := ⟨_, rfl, rfl⟩
    obtain ⟨rfl, rfl⟩ := EStateM.Result.ok.inj (hok.symm.trans hrun)
    refine ⟨w₁, hrun, ?_, hgone⟩
    rcases hfalse rfl with rfl | ⟨-, hdata, -⟩
    · cases hgone
    · exact hdata
  · obtain ⟨ok, w', hrun, -, htrue⟩ := tryRequest_atomic (holding_connections pipelinedFrames)
    obtain ⟨w₁, hok⟩ : ∃ w₁, (tryRequest 7).run (holding pipelinedFrames) = .ok true w₁ :=
      ⟨_, rfl⟩
    obtain ⟨rfl, rfl⟩ := EStateM.Result.ok.inj (hok.symm.trans hrun)
    obtain ⟨cmd, resp, c', hparse, hc', -, -, hin, hout, -, hdata⟩ := htrue rfl
    exact ⟨w₁, cmd, resp, c', hrun, hparse, hc', hin, hout, hdata⟩

/-! ## The loop -/

/-- **The loop drains the buffer.** It ends after at most one turn for every eight bytes, however
many more it is given; the frames it consumes are accepted and include every run of accepted frames
the buffer starts with; the map and the outgoing buffer are those of running the commands in
order. -/
theorem tryRequest_drains (hc : w.connections conn = some c) (ho : ¬ MeetsOverLimit c.incoming) :
    ∃ fs rest w', Turns (tryRequest conn) w fs.length w' ∧ fs.length ≤ c.incoming.length / 8 ∧
      (∀ n, c.incoming.length / 8 < n → (whileTryRequest n conn).run w = .ok () w') ∧
      c.incoming = (fs.map Request.frame).flatten ++ rest ∧ (∀ f ∈ fs, f.Accepted) ∧
      (∀ gs rest', (∀ g ∈ gs, g.Accepted) →
        c.incoming = (gs.map Request.frame).flatten ++ rest' → gs <+: fs) ∧
      (∀ (g : Request) (rest' : Bytes), g.Accepted → rest ≠ g.frame ++ rest') ∧
      (∃ c', w'.connections conn = some c' ∧ c'.incoming = rest ∧
        c'.outgoing = c.outgoing ++ responseBytes (responses w.gData fs)) ∧
      w'.gData = (fs.map Record.value).foldl (fun gData cmd => (doRequest gData cmd .init).1)
        w.gData := by
  have hturns := turns_tryRequest hc (run_tryRequest_none (served_connections _ _)
    (mt (meetsOverLimit_iff c.incoming).mpr ho) (requestDecoder.next_drain c.incoming))
  have htakes := requestDecoder.takes_drain c.incoming
  have hlast := requestDecoder.next_drain c.incoming
  have hlen := requestDecoder.length_drain_le length_add_eight_le c.incoming
  have hle : (requestDecoder.drain c.incoming).1.length ≤ c.incoming.length / 8 := by omega
  refine ⟨_, _, _, hturns, hle, ?_, htakes.split, ?_, ?_, ?_, ?_, ?_⟩
  · intro n hn
    rw [whileTryRequest_eq]
    exact hturns.run_whileTrue (by omega)
  · exact accepted_of_takes htakes
  · intro gs rest' hgs he
    have hgs := takes_accepted hgs rest'
    rw [← he] at hgs
    obtain ⟨cs, hcs, -⟩ := hgs.of_drain
    exact ⟨cs, hcs.symm⟩
  · intro g rest' hg he
    rw [next_eq_some_iff.mpr ⟨hg, he⟩] at hlast
    cases hlast
  · exact ⟨_, served_connections _ _, rfl, rfl⟩
  · exact runCommands_fst _ _

/-- The two requests of `pipelinedFrames`. -/
def pipelinedRequests : List Request :=
  [[ascii "set", ascii "k", ascii "v"], [ascii "get", ascii "k"]].map fun cmd =>
    ⟨encodePayload cmd, cmd⟩

/-- Both are served, with bytes of a third frame behind them. -/
theorem tryRequest_drains_pipelined :
    ∃ fs w', Turns (tryRequest 7)
        ((World.init 3).setConn 7 ⟨7, pipelinedFrames ++ [4, 0], []⟩) fs.length w' ∧
      pipelinedRequests <+: fs ∧ fs.length ≤ 5 ∧
      ∃ c', w'.connections 7 = some c' ∧
        c'.outgoing = responseBytes (responses Store.empty fs) := by
  have ho : ¬ MeetsOverLimit (pipelinedFrames ++ [4, 0]) := by
    rw [meetsOverLimit_iff]
    decide
  have hacc : ∀ g ∈ pipelinedRequests, g.Accepted := by
    intro g hg
    rcases List.mem_pair.mp hg with rfl | rfl <;> exact ⟨by decide, by decide⟩
  have hc : ((World.init 3).setConn 7 ⟨7, pipelinedFrames ++ [4, 0], []⟩).connections 7 =
      some ⟨7, pipelinedFrames ++ [4, 0], []⟩ := rfl
  obtain ⟨fs, rest, w', hturns, hlen, -, -, -, hmax, -, ⟨c', hc', -, hout⟩, -⟩ :=
    tryRequest_drains hc ho
  exact ⟨fs, w', hturns, hmax _ _ hacc rfl, hlen, c', hc', hout⟩

end Byor.Optimized
