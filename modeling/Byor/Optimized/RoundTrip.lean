import Byor.Optimized.Client
import Byor.Optimized.Handlers

/-!
# Round trips between the client and the server

* `tryRequest_serialize`: the server executes exactly the list of strings the client serialized,
  and waits as long as a part of the frame is missing.
* `deserialize_makeResponse_iff`: the client shows exactly the response the server made only when
  there is no data. The length the server sends counts the status byte, and the client takes that
  many bytes of data.
-/

namespace Byor.Optimized

open Wire

variable {w : World} {conn : Fd} {c : Connection}

/-! ## Requests -/

/-- The server can take the list of strings for a request. -/
def Sendable (msg : List Bytes) : Prop :=
  msg.length ≤ maxCmdArgs ∧
    lenFieldSize + (msg.map fun s => lenFieldSize + s.length).sum ≤ maxMsgFieldSize

theorem Sendable.length_le {msg : List Bytes} (h : Sendable msg) :
    (encodePayload msg).length ≤ maxMsgFieldSize := by
  rw [length_encodePayload]
  exact h.2

/-- What is serialized parses back to itself. -/
theorem Sendable.acceptPayload_eq {msg : List Bytes} (h : Sendable msg) :
    acceptPayload (encodePayload msg) = some msg := by
  have hlen : ∀ s ∈ msg, s.length < 256 ^ lenFieldSize := by
    intro s hs
    have hmem : lenFieldSize + s.length ∈ msg.map fun s => lenFieldSize + s.length :=
      List.mem_map_of_mem hs
    have hle := List.single_le_sum (fun _ _ => Nat.zero_le _) _ hmem
    have hmax := h.2
    rw [maxMsgFieldSize_eq] at hmax
    have h4 : 256 ^ lenFieldSize = 4294967296 := by decide
    omega
  have hparse := parseReq_encodePayload msg h.1 hlen []
  rw [List.append_nil] at hparse
  rw [Optimized.acceptPayload_eq h.length_le, hparse]
  rfl

theorem Sendable.serialize_eq {msg : List Bytes} (h : Sendable msg) :
    serialize msg = some (record lenFieldSize (encodePayload msg)) := by
  have hmax := h.length_le
  rw [maxMsgFieldSize_eq] at hmax
  have h4 : lenFieldSize = 4 := rfl
  exact Optimized.serialize_eq msg (by omega)

/-- A proper prefix of a frame is neither complete nor above the limit. -/
theorem incomplete_of_prefix {payload pre : Bytes} (hmax : payload.length ≤ maxMsgFieldSize)
    (hpre : pre <+: record lenFieldSize payload) (hne : pre ≠ record lenFieldSize payload) :
    ¬ OverLimit pre ∧ ¬ StartsComplete pre := by
  obtain ⟨tail, htail⟩ := hpre
  have hlen : pre.length < lenFieldSize + payload.length := by
    have hsum := congrArg List.length htail
    rw [List.length_append, length_record] at hsum
    have htail0 : tail ≠ [] := by
      rintro rfl
      exact hne (by rw [← htail, List.append_nil])
    have := List.length_pos_iff.mpr htail0
    omega
  have hheader : lenFieldSize ≤ pre.length → dataLen pre = payload.length := by
    intro h4
    have hword := leVal_take_leBytes_append (lt_of_le_maxMsgFieldSize hmax) payload
    change leVal ((record lenFieldSize payload).take lenFieldSize) = payload.length at hword
    rwa [← htail, List.take_append_of_le_length h4] at hword
  constructor
  · rintro ⟨h4, hgt⟩
    rw [hheader h4] at hgt
    omega
  · rintro ⟨h4, -, hfull⟩
    rw [hheader h4] at hfull
    omega

/-- **The server executes what the client serialized**: with the frame at the front of the buffer,
`try_request` runs `do_request` on exactly the list of strings and takes exactly the frame away; on
a proper prefix it returns false and changes nothing. -/
theorem tryRequest_serialize {msg : List Bytes} (hmsg : Sendable msg) :
    ∃ frame, serialize msg = some frame ∧
      (∀ (w : World) (conn : Fd) (c : Connection) (rest : Bytes), w.connections conn = some c →
        c.incoming = frame ++ rest → ∃ w', (tryRequest conn).run w = .ok true w' ∧
          w'.connections conn = some { c with
            incoming := rest
            outgoing := makeResponse (doRequest w.gData msg .init).2 c.outgoing } ∧
          w'.gData = (doRequest w.gData msg .init).1 ∧
          ∃ e, w'.executed = w.executed ++ [e] ∧ e.request.value = msg ∧
            e.resp = (doRequest w.gData msg .init).2) ∧
      ∀ (w : World) (conn : Fd) (c : Connection), w.connections conn = some c →
        c.incoming <+: frame → c.incoming ≠ frame → (tryRequest conn).run w = .ok false w := by
  refine ⟨_, hmsg.serialize_eq, ?_, ?_⟩
  · intro w conn c rest hc hin
    have hnext : requestDecoder.next c.incoming = some (⟨encodePayload msg, msg⟩, rest) := by
      rw [hin]
      exact next_record_append hmsg.acceptPayload_eq rest
    refine ⟨_, run_tryRequest_next hc hnext, ?_, rfl, ⟨_, rfl, rfl, rfl⟩⟩
    have hbytes : responseBytes (responses w.gData [⟨encodePayload msg, msg⟩]) =
        (doRequest w.gData msg .init).2.frame := List.append_nil _
    rw [served_connections, Connection.served, hbytes, makeResponse_eq]
  · intro w conn c hc hpre hne
    obtain ⟨ho, hs⟩ := incomplete_of_prefix hmsg.length_le hpre hne
    exact run_tryRequest_incomplete hc ho hs

/-- A request of two strings, one of them empty, with the beginning of another behind it. -/
theorem tryRequest_serialize_get :
    ∃ frame, serialize [ascii "get", []] = some frame ∧
      (∀ (w : World) (conn : Fd) (c : Connection) (rest : Bytes), w.connections conn = some c →
        c.incoming = frame ++ rest → ∃ w', (tryRequest conn).run w = .ok true w' ∧
          w'.connections conn = some { c with
            incoming := rest
            outgoing := makeResponse (doRequest w.gData [ascii "get", []] .init).2 c.outgoing } ∧
          w'.gData = (doRequest w.gData [ascii "get", []] .init).1 ∧
          ∃ e, w'.executed = w.executed ++ [e] ∧ e.request.value = [ascii "get", []] ∧
            e.resp = (doRequest w.gData [ascii "get", []] .init).2) ∧
      ∀ (w : World) (conn : Fd) (c : Connection), w.connections conn = some c →
        c.incoming <+: frame → c.incoming ≠ frame → (tryRequest conn).run w = .ok false w :=
  tryRequest_serialize ⟨by decide, by decide⟩

/-! ## Responses -/

/-- The response, and whatever follows it in the buffer: the header counts the status byte. -/
theorem deserialize_frame (resp : Response) (h : 1 + resp.data.length ≤ maxMsgFieldSize)
    (t : Bytes) : deserialize (resp.frame ++ t) = some (statusText resp.status.toByte ++
      if resp.data ≠ [] ∧ t ≠ [] then resp.data ++ t.take 1 else []) := by
  have hmax := h
  rw [maxMsgFieldSize_eq] at hmax
  have hframe : resp.frame ++ t =
      leBytes 4 (1 + resp.data.length) ++ (resp.status.toByte :: (resp.data ++ t)) := by
    rw [Response.frame, makeResponse, Nat.mod_eq_of_lt (by omega)]
    simp only [List.nil_append, List.append_assoc, List.cons_append]
  have hlen : (resp.frame ++ t).length = 5 + resp.data.length + t.length := by
    rw [hframe, List.length_append, length_leBytes, List.length_cons, List.length_append]
    omega
  have hdata : dataLen (resp.frame ++ t) = 1 + resp.data.length := by
    rw [hframe]
    exact leVal_take_leBytes_append (show 1 + resp.data.length < 256 ^ 4 by omega) _
  have hstatus : (resp.frame ++ t)[4]? = some resp.status.toByte := by
    rw [hframe, List.getElem?_append_right (by rw [length_leBytes]), length_leBytes]
    rfl
  have hdrop : (resp.frame ++ t).drop 5 = resp.data ++ t := by
    rw [hframe, show 5 = (leBytes 4 (1 + resp.data.length)).length + 1 by rw [length_leBytes],
      ← List.drop_drop, List.drop_left' rfl]
    rfl
  rw [deserialize_eq (by omega) (by rwa [hdata]) hstatus, hdata, hlen, hdrop]
  by_cases hd : resp.data = []
  · rw [hd, if_neg (by simp), if_neg (by simp)]
  have hpos := List.length_pos_iff.mpr hd
  by_cases ht : t = []
  · subst ht
    rw [if_neg (by rw [List.length_nil]; omega), if_neg (by simp)]
  · have htpos := List.length_pos_iff.mpr ht
    rw [if_pos ⟨by omega, by omega⟩, if_pos ⟨hd, ht⟩, Nat.add_comm, List.take_length_add_append]

/-- **When the client shows what the server sent**: exactly when the response has no data. With
data and nothing behind the frame the data is missing; with something behind it, the first byte of
that is shown too. -/
theorem deserialize_makeResponse_iff (resp : Response)
    (h : 1 + resp.data.length ≤ maxMsgFieldSize) (t : Bytes) :
    deserialize (makeResponse resp [] ++ t) = some (ascii "Status: " ++
        decimal resp.status.toByte.toNat ++ ascii ", Response: " ++ resp.data) ↔
      resp.data = [] := by
  have hframe := deserialize_frame resp h t
  change deserialize (makeResponse resp [] ++ t) = _ at hframe
  change _ = some (statusText resp.status.toByte ++ resp.data) ↔ _
  rw [hframe, Option.some_inj, List.append_cancel_left_eq]
  constructor
  · intro he
    split at he
    · rename_i hboth
      -- one byte too many
      have hlen := congrArg List.length he
      have htpos := List.length_pos_iff.mpr hboth.2
      rw [List.length_append, List.length_take] at hlen
      omega
    · exact he.symm
  · intro hd
    rw [hd, if_neg (by simp)]

/-- An answer without data, and the padding of the receive buffer behind it. -/
theorem deserialize_makeResponse_nil :
    deserialize (makeResponse ⟨.RES_NX, []⟩ [] ++ [0, 0]) = some (ascii "Status: " ++
        decimal (ResponseStatus.RES_NX).toByte.toNat ++ ascii ", Response: " ++ []) ↔
      ([] : Bytes) = [] :=
  deserialize_makeResponse_iff ⟨.RES_NX, []⟩ (by decide) [0, 0]

/-- The value `v` with one byte of padding behind its frame: the byte is shown as data. -/
theorem deserialize_shows_padding :
    ¬ ∀ (resp : Response) (t : Bytes), 1 + resp.data.length ≤ maxMsgFieldSize →
      deserialize (makeResponse resp [] ++ t) = some (ascii "Status: " ++
        decimal resp.status.toByte.toNat ++ ascii ", Response: " ++ resp.data) := by
  intro h
  exact absurd (h ⟨.RES_OK, ascii "v"⟩ [0] (by decide)) (by decide)

end Byor.Optimized
